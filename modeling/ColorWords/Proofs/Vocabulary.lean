import ColorWords.Proofs.Agreement
import ColorWords.Proofs.Aliases
import ColorWords.Proofs.Line
import ColorWords.Proofs.Lines
import ColorWords.Proofs.Views

/-! # Names of a palette as words

What a palette may call a color is one token of the extended grammar, and no weight. So every
name and alias of a loaded palette describes its color, unless the grammar takes it for an
adjective.
-/
namespace ColorWords
open Single

namespace Grammar
variable {g : Grammar} {word : List Char}

theorem tokens_of_isWord (h : g.IsWord word) : g.tokens word = [⟨word, 0⟩] := Token.scan_eq_singleton h.1 h.2 0

theorem isWord_of_name (h : Line.Name word) : extended.IsWord word := by
  obtain ⟨first, rest, rfl, hfirst, hrest⟩ := h
  refine ⟨List.cons_ne_nil _ _, List.forall_mem_cons.mpr ⟨?_, ?_⟩⟩
  · simp [isTokenChar, Line.isAlpha_iff.mpr hfirst]
  · intro c hc
    rcases hrest c hc with hletter | hdigit | rfl
    · simp [isTokenChar, Line.isAlpha_iff.mpr hletter]
    · simp [isTokenChar, extended, Line.isDigit_iff.mpr hdigit]
    · rfl

/-- A name starts with a letter and a weight with a digit. -/
theorem classify_of_name (h : Line.Name word) :
    (∃ change, extended.classify word = .adjective change) ∨ extended.classify word = .name (.ofList word) := by
  obtain ⟨first, rest, rfl, hfirst, -⟩ := h
  have hdigit := not_isDigit_of_isAlpha (Line.isAlpha_iff.mpr hfirst)
  rw [classify]
  cases extended.change? (Text.bytes (first :: rest)) with
  | some change => exact .inl ⟨change, by simp [hdigit]⟩
  | none => exact .inr (by simp [hdigit])

end Grammar

namespace Description
variable {s : Space} {table : Table s}

/-- Adjectives and then one name describe the adjusted color of the name. -/
theorem colorOf_adjectives_name (changes : List Adjustment) (name : String) :
    colorOf table (changes.map .adjective ++ [.name name]) =
      if table.lookup name = .transparent then .transparent
      else ((changes.foldl (· + ·) Adjustment.zero).apply (table.lookup name)).intoGamut := by
  have hentries : entries table (changes.map .adjective ++ [.name name]) = [(table.lookup name, 1)] := by
    rw [entries_adjectives]
    rfl
  have hmix : Color.weightedMix [(table.lookup name, 1)] = table.lookup name := rfl
  have hchanges := adjustment_adjectives changes [name]
  rw [List.map_singleton] at hchanges
  simp only [colorOf, hentries, hmix, hchanges, List.cons_ne_nil, if_false]
  split <;> simp_all

theorem colorOf_name (name : String) :
    colorOf table [.name name] =
      if table.lookup name = .transparent then .transparent else (table.lookup name).intoGamut := by
  have hzero : Adjustment.zero.apply (table.lookup name) = table.lookup name := by
    rw [Adjustment.apply, Adjustment.zero, Adjustment.move_zero _ _ denotes_zero, Adjustment.move_zero _ _ denotes_zero]
  rw [← hzero]
  exact colorOf_adjectives_name [] name

end Description

namespace Palette
open Text
variable {s : Space} {t : Table s} {text name : String}

theorem name_of_entry {content : List Char} {literal : String} (h : Line.read? content = some (.entry name literal)) :
    Line.Name name.toList := by
  cases Line.read?_eq_some_iff.mp h with
  | entry _ hname => rwa [String.toList_ofList]

theorem name_of_aliasOf {content : List Char} {target : String} (h : Line.read? content = some (.aliasOf name target)) :
    Line.Name name.toList := by
  cases Line.read?_eq_some_iff.mp h with
  | aliasOf _ hname => rwa [String.toList_ofList]

/-- The keys of a table that is built strictly are the names that were declared. -/
theorem mem_keys_of_tryBuild {b : Builder s} (h : b.tryBuild = .ok t) :
    name ∈ t.keys ↔ name ∈ Entries.keys b.entries ∨ name ∈ Entries.keys b.aliases := by
  obtain ⟨-, kept, hkept, rfl⟩ := Builder.tryBuild_eq_ok.mp h
  have hsorted : (Entries.keys (Table.ofEntries b.entries kept).entries).Perm (Entries.keys b.entries) :=
    Entries.keys_perm (Entries.sortBy_perm b.entries fun _ => [])
  have haliases : Entries.keys (Table.ofEntries b.entries kept).aliases = Entries.keys b.aliases :=
    Builder.keys_of_tryAliases hkept
  rw [Table.keys, List.mem_append, hsorted.mem_iff, haliases]

theorem name_of_mem_keys (h : load text = .ok t) (hname : name ∈ t.keys) : Line.Name name.toList := by
  obtain ⟨-, hbuild⟩ := load_eq_tryBuild.mp h
  rcases (mem_keys_of_tryBuild hbuild).mp hname with hentry | halias
  · obtain ⟨⟨_, color⟩, hmem, rfl⟩ := List.mem_map.mp hentry
    obtain ⟨content, -, hcontent⟩ := List.mem_filterMap.mp hmem
    rw [entryOf?_eq_some, declaration] at hcontent
    split at hcontent
    case h_1 => cases hcontent
    case h_2 => cases hcontent
    case h_3 hread =>
      split at hcontent
      · cases hcontent
      · cases hcontent
        exact name_of_entry hread
  · obtain ⟨⟨_, target⟩, hmem, rfl⟩ := List.mem_map.mp halias
    obtain ⟨content, -, hcontent⟩ := List.mem_filterMap.mp hmem
    exact name_of_aliasOf (aliasOf?_eq_some.mp hcontent)

/-- Every name and alias of a loaded palette is one token and no weight. Alone it describes its color
as far as that can be displayed, or nothing if it is an adjective too or its color is `transparent`. -/
theorem names_describe (h : load text = .ok t) (hname : name ∈ t.keys) :
    Grammar.extended.tokens name.toList = [⟨name.toList, 0⟩] ∧
      (∀ value, Grammar.extended.classify name.toList ≠ .weight value) ∧
      ((Grammar.extended.classify name.toList).isAdjective = true ∨ t.lookup name = .transparent →
        Description.parse t .extended name = .transparent) ∧
      (¬ ((Grammar.extended.classify name.toList).isAdjective = true ∨ t.lookup name = .transparent) →
        Grammar.extended.classify name.toList = .name name ∧
          Description.parse t .extended name = (t.lookup name).intoGamut) := by
  have hword := name_of_mem_keys h hname
  have htokens := Grammar.tokens_of_isWord (Grammar.isWord_of_name hword)
  have hparse : Description.parse t .extended name = Description.colorOf t [Grammar.extended.classify name.toList] := by
    rw [Description.parse_eq, Grammar.meanings, htokens]
    rfl
  refine ⟨htokens, ?_⟩
  rw [hparse]
  rcases Grammar.classify_of_name hword with ⟨change, hclass⟩ | hclass
  · rw [hclass]
    refine ⟨by simp, fun _ => rfl, fun hnot => absurd (.inl rfl) hnot⟩
  · rw [String.ofList_toList] at hclass
    rw [hclass, Description.colorOf_name]
    refine ⟨by simp, ?_, ?_⟩
    · rintro (hadjective | htransparent)
      · cases hadjective
      · rw [if_pos htransparent]
    · intro hnot
      exact ⟨rfl, if_neg (not_or.mp hnot).2⟩

theorem names_describe_scarlet :
    let text := "scarlet_2 = red\nDeep #800000\nred #ff0000"
    let t : Table .rgb := ⟨[("Deep", ⟨0xFE000080⟩), ("red", ⟨0xFE0000FF⟩)], [("scarlet_2", ⟨0xFE0000FF⟩)]⟩
    load text = .ok t ∧ "scarlet_2" ∈ t.keys ∧ "Deep" ∈ t.keys ∧
      Description.parse t .extended "scarlet_2" = (t.lookup "scarlet_2").intoGamut ∧
      Description.parse t .extended "Deep" = .transparent := by
  intro text t
  have hread : readAll .empty (contents text.toList) = .ok (⟨t.entries, [("scarlet_2", "red")]⟩ : Builder .rgb) := by
    decide
  have hbuild : Builder.tryBuild ⟨t.entries, [("scarlet_2", "red")]⟩ = .ok t :=
    Builder.tryBuild_eq_ok.mpr ⟨by rfl, _, by rfl, Table.ofEntries_of_increasing (by decide) _⟩
  have hload : load text = .ok t := load_eq_ok.mpr ⟨_, hread, hbuild⟩
  have hscarlet : "scarlet_2" ∈ t.keys := by decide
  have hdeep : "Deep" ∈ t.keys := by decide
  have hname : ¬ ((Grammar.extended.classify "scarlet_2".toList).isAdjective = true ∨
      t.lookup "scarlet_2" = .transparent) := by decide
  have hadjective : (Grammar.extended.classify "Deep".toList).isAdjective = true := by decide
  exact ⟨hload, hscarlet, hdeep, ((names_describe hload hscarlet).2.2.2 hname).2,
    (names_describe hload hdeep).2.2.1 (.inl hadjective)⟩

end Palette
end ColorWords
