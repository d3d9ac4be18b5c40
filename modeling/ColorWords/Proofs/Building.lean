import ColorWords.Palette.Builder
import ColorWords.Proofs.Entries

/-! # Strict and lenient building

What builders keep of aliases has new and distinct names, each with the color of an entry:
an alias of an alias is one of the entry behind. Where strict building accepts, the lenient
one drops nothing and arrives at the same table.
-/
namespace ColorWords

namespace Table
variable {s : Space} {entries aliases : Entries (Color s)} {name : String} {color : Color s}

theorem contains_iff {t : Table s} :
    t.contains name = true ↔ name ∈ Entries.keys t.entries ∨ name ∈ Entries.keys t.aliases := by
  rw [contains, get?, Option.isSome_or, Bool.or_eq_true]
  refine or_congr ?_ ?_ <;>
  · rw [Option.isSome_iff_ne_none]
    exact not_iff_comm.mp Entries.lookup_eq_none_iff.symm

theorem ofEntries_of_increasing (h : (Entries.keys entries).Pairwise (· < ·)) (aliases : Entries (Color s)) :
    ofEntries entries aliases = ⟨entries, aliases⟩ := by
  rw [ofEntries, Entries.sortBy_of_pairwise (h.imp ne_of_lt)]
  refine (List.pairwise_map.mp h).imp ?_
  intro x y hxy
  exact Prod.Lex.toLex_lt_toLex.mpr (.inr ⟨rfl, hxy⟩)

end Table

namespace Builder
variable {s : Space} {b b' : Builder s} {t : Table s} {entries others aliases kept : Entries (Color s)}
  {declared : Entries String} {name target : String} {color : Color s}

/-! ## Aliases -/

/-- Aliases have names of their own, and colors of the entries. -/
structure Resolved (entries aliases : Entries (Color s)) : Prop where
  nodup : (Entries.keys aliases).Nodup
  apart : ∀ name ∈ Entries.keys aliases, name ∉ Entries.keys entries
  colors : ∀ e ∈ aliases, ∃ name, (name, e.2) ∈ entries

theorem resolved_nil (entries : Entries (Color s)) : Resolved entries [] :=
  ⟨Entries.nodup_nil, by simp [Entries.keys], by simp⟩

theorem Resolved.of_perm (h : Resolved entries aliases) (hperm : entries.Perm others) :
    Resolved others aliases := by
  refine ⟨h.nodup, ?_, ?_⟩
  · intro name hname
    rw [← (Entries.keys_perm hperm).mem_iff]
    exact h.apart name hname
  · intro e he
    obtain ⟨name, hname⟩ := h.colors e he
    exact ⟨name, hperm.mem_iff.mp hname⟩

/-- What an alias refers to has the color of an entry. -/
theorem Resolved.color_of_get? (h : Resolved entries aliases)
    (htarget : Table.get? ⟨entries, aliases⟩ target = some color) : ∃ name, (name, color) ∈ entries := by
  rcases Option.or_eq_some_iff.mp htarget with hentry | ⟨-, halias⟩
  · exact ⟨target, Entries.mem_of_lookup hentry⟩
  · exact h.colors _ (Entries.mem_of_lookup halias)

theorem Resolved.put (h : Resolved entries aliases) (htarget : Table.get? ⟨entries, aliases⟩ target = some color)
    (hnew : name ∉ Entries.keys entries) : Resolved entries (aliases.put name color) := by
  refine ⟨Entries.nodup_put h.nodup name color, ?_, ?_⟩
  · intro other hother
    rcases Entries.mem_keys_put.mp hother with hother | rfl
    · exact h.apart other hother
    · exact hnew
  · intro e he
    rcases Entries.mem_put he with he | rfl
    · exact h.colors e he
    · exact h.color_of_get? htarget

theorem resolve_eq_ok : resolve entries aliases name target = .ok color ↔
    Table.get? ⟨entries, aliases⟩ target = some color ∧ name ∉ Entries.keys entries := by
  rw [resolve]
  cases Table.get? ⟨entries, aliases⟩ target with
  | none => simp
  | some found =>
    dsimp only
    split
    case isTrue hold =>
      rw [Entries.has_iff] at hold
      simp [hold]
    case isFalse hnew =>
      rw [Entries.has_iff] at hnew
      simp [hnew]

theorem Resolved.keepAliases (h : Resolved entries aliases) (declared : Entries String) :
    Resolved entries (keepAliases entries aliases declared) := by
  induction declared generalizing aliases with
  | nil => exact h
  | cons d rest ih =>
    obtain ⟨name, target⟩ := d
    rw [Builder.keepAliases]
    split
    case h_1 color hcolor =>
      obtain ⟨htarget, hnew⟩ := resolve_eq_ok.mp hcolor
      exact ih (h.put htarget hnew)
    case h_2 => exact ih h

/-- Aliases that are all accepted are kept as they are, and none is reported. -/
theorem keepAliases_of_tryAliases (h : tryAliases entries aliases declared = .ok kept) :
    keepAliases entries aliases declared = kept ∧ dropReports entries aliases declared = [] := by
  induction declared generalizing aliases with
  | nil => exact ⟨Except.ok.inj h, rfl⟩
  | cons d rest ih =>
    obtain ⟨name, target⟩ := d
    simp only [tryAliases] at h
    split at h
    case h_1 => cases h
    case h_2 color htarget =>
      split at h
      case isTrue => cases h
      case isFalse hnew =>
        rw [Table.contains_iff, not_or] at hnew
        have hresolve : resolve entries aliases name target = .ok color := resolve_eq_ok.mpr ⟨htarget, hnew.1⟩
        have hput : aliases.put name color = aliases ++ [(name, color)] := Entries.put_of_not_mem hnew.2 color
        rw [← hput] at h
        rw [keepAliases, dropReports, hresolve]
        exact ih h

/-! ## Tables -/

theorem firstDuplicate_eq_none_iff {before : Entries (Color s)} (hbefore : (Entries.keys before).Nodup) :
    firstDuplicate? before entries = none ↔ (Entries.keys (before.reverse ++ entries)).Nodup := by
  induction entries generalizing before with
  | nil =>
    rw [List.append_nil, Entries.keys, List.map_reverse, List.nodup_reverse]
    exact iff_of_true rfl hbefore
  | cons e rest ih =>
    obtain ⟨name, color⟩ := e
    rw [firstDuplicate?]
    split
    case isTrue hold =>
      rw [Entries.has_iff] at hold
      refine iff_of_false (Option.some_ne_none name) ?_
      rw [Entries.keys, List.map_append, List.map_reverse]
      intro h
      exact (List.nodup_append.mp h).2.2 name (List.mem_reverse.mpr hold) name List.mem_cons_self rfl
    case isFalse hnew =>
      rw [Entries.has_iff] at hnew
      have hnext : (Entries.keys ((name, color) :: before)).Nodup := List.nodup_cons.mpr ⟨hnew, hbefore⟩
      rw [ih hnext, List.reverse_cons, List.append_assoc]
      rfl

theorem tryBuild_eq_ok : b.tryBuild = .ok t ↔ firstDuplicate? [] b.entries = none ∧
    ∃ kept, tryAliases b.entries [] b.aliases = .ok kept ∧ .ofEntries b.entries kept = t := by
  rw [tryBuild]
  cases firstDuplicate? [] b.entries with
  | some name => simp
  | none => cases tryAliases b.entries [] b.aliases <;> simp

theorem lastEntries_of_nodup (h : (Entries.keys b.entries).Nodup) : b.lastEntries = b.entries :=
  Entries.putAll_of_nodup h

theorem nodup_lastEntries (b : Builder s) : (Entries.keys b.lastEntries).Nodup :=
  Entries.nodup_putAll Entries.nodup_nil b.entries

theorem resolved_build (b : Builder s) : Resolved b.build.entries b.build.aliases :=
  ((resolved_nil b.lastEntries).keepAliases b.aliases).of_perm (Entries.sortBy_perm b.lastEntries fun _ => []).symm

theorem tryBuildJournal_of_ok (h : b.tryBuild = .ok t) : b.tryBuildJournal = [t.built] := by
  rw [tryBuildJournal, h]

/-- Lenient building gives each table that the strict one gives, and drops nothing. -/
theorem build_of_tryBuild (h : b.tryBuild = .ok t) : b.build = t ∧ b.buildJournal = [t.built] := by
  obtain ⟨hnone, kept, hkept, rfl⟩ := tryBuild_eq_ok.mp h
  have hlast := lastEntries_of_nodup ((firstDuplicate_eq_none_iff Entries.nodup_nil).mp hnone)
  obtain ⟨hkeep, hdrop⟩ := keepAliases_of_tryAliases hkept
  have hbuild : b.build = .ofEntries b.entries kept := by rw [build, hlast, hkeep]
  exact ⟨hbuild, by rw [buildJournal, hlast, hdrop, hbuild, List.nil_append]⟩

theorem eq_build (h : t = b.build ∨ b.tryBuild = .ok t) : t = b.build :=
  h.elim id fun hok => (build_of_tryBuild hok).1.symm

/-! ## Order of insertion -/

section Order
variable (h : (Entries.keys entries).Nodup) (hperm : entries.Perm others)
include h hperm

theorem get?_perm (aliases : Entries (Color s)) (target : String) :
    Table.get? ⟨entries, aliases⟩ target = Table.get? ⟨others, aliases⟩ target := by
  rw [Table.get?, Table.get?, Entries.lookup_perm h hperm]

theorem keepAliases_perm (aliases : Entries (Color s)) (declared : Entries String) :
    keepAliases entries aliases declared = keepAliases others aliases declared := by
  induction declared generalizing aliases with
  | nil => rfl
  | cons d rest ih =>
    obtain ⟨name, target⟩ := d
    have hresolve : resolve entries aliases name target = resolve others aliases name target := by
      rw [resolve, resolve, get?_perm h hperm, Entries.has_perm hperm]
    simp only [keepAliases, hresolve, ih]

theorem tryAliases_perm (aliases : Entries (Color s)) (declared : Entries String) :
    tryAliases entries aliases declared = tryAliases others aliases declared := by
  induction declared generalizing aliases with
  | nil => rfl
  | cons d rest ih =>
    obtain ⟨name, target⟩ := d
    have hcontains : Table.contains ⟨entries, aliases⟩ name = Table.contains ⟨others, aliases⟩ name :=
      congrArg Option.isSome (get?_perm h hperm aliases name)
    simp only [tryAliases]
    rw [get?_perm h hperm, hcontains]
    simp only [ih]

theorem ofEntries_perm (aliases : Entries (Color s)) :
    Table.ofEntries entries aliases = Table.ofEntries others aliases := by
  rw [Table.ofEntries, Table.ofEntries, Entries.sortBy_congr h hperm]

end Order

/-- Distinct names can be inserted in any order. -/
theorem build_perm (h : (Entries.keys b.entries).Nodup) (hentries : b.entries.Perm b'.entries)
    (haliases : b.aliases = b'.aliases) : b.build = b'.build ∧ b.tryBuild = b'.tryBuild := by
  have h' : (Entries.keys b'.entries).Nodup := (Entries.keys_perm hentries).nodup_iff.mp h
  have hnone : firstDuplicate? [] b.entries = none := (firstDuplicate_eq_none_iff Entries.nodup_nil).mpr h
  have hnone' : firstDuplicate? [] b'.entries = none := (firstDuplicate_eq_none_iff Entries.nodup_nil).mpr h'
  constructor
  · rw [build, build, lastEntries_of_nodup h, lastEntries_of_nodup h', haliases,
      keepAliases_perm h hentries, ofEntries_perm h hentries]
  · rw [tryBuild, tryBuild, hnone, hnone', haliases, tryAliases_perm h hentries]
    simp only [ofEntries_perm h hentries]

end Builder
end ColorWords
