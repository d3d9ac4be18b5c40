import ColorWords.Proofs.Blank
import ColorWords.Proofs.Loading

/-! # Arrangements of lines

Loading keeps entries and aliases apart and looks at no alias before all entries are known.
A palette that is accepted has distinct names, so its entries may stand in any order, and
its aliases anywhere among them as long as they keep their own order.
-/
namespace ColorWords.Palette
open Text
variable {s : Space} {t : Table s}

/-! ## Lines of a text -/

def dropReturn (line : List Char) : List Char := if line.getLast? = some '\r' then line.dropLast else line

/-- The lines of a text, each up to its line feed. What follows the last line feed is a line if it
is not empty. -/
def lines (text : List Char) : List (List Char) :=
  (splitLines text).dropLast.map dropReturn ++ (splitLines text).getLast?.toList.filter (· ≠ [])

def said (ls : List (List Char)) : List (List Char) := (ls.map content).filter (· ≠ [])

theorem said_append (before after : List (List Char)) : said (before ++ after) = said before ++ said after := by
  simp [said]

theorem said_perm {before after : List (List Char)} (h : before.Perm after) : (said before).Perm (said after) :=
  (h.map content).filter _

theorem filterMap_said {α : Type} {f : List Char → Option α} (h : f [] = none) (ls : List (List Char)) :
    (said ls).filterMap f = ls.filterMap fun line => f (content line) := by
  rw [said, List.filterMap_filter, List.filterMap_map]
  refine List.filterMap_congr fun line _ => ?_
  cases hline : content line <;> simp [hline, h]

theorem dropComment_append_return (line : List Char) :
    dropComment (line ++ ['\r']) = dropComment line ∨ dropComment (line ++ ['\r']) = dropComment line ++ ['\r'] := by
  induction line with
  | nil => exact .inr rfl
  | cons c rest ih =>
    have hhead : (rest ++ ['\r']).head? = some '/' ↔ rest.head? = some '/' := by cases rest <;> simp
    by_cases hc : c = '/' ∧ rest.head? = some '/'
    · exact .inl (by simp [dropComment, hc])
    · simp only [List.cons_append, dropComment, hhead, hc, if_false]
      exact ih.imp (congrArg (c :: ·)) (congrArg (c :: ·))

theorem content_dropReturn (line : List Char) : content (dropReturn line) = content line := by
  rw [dropReturn]
  split
  case isTrue h =>
    obtain ⟨line, rfl⟩ := List.getLast?_eq_some_iff.mp h
    rw [List.dropLast_concat, content, content]
    rcases dropComment_append_return line with hdrop | hdrop
    · rw [hdrop]
    · rw [hdrop, trim_append_blank (by decide)]
  case isFalse => rfl

theorem splitLines_ne_nil (text : List Char) : splitLines text ≠ [] := by
  cases text with
  | nil => simp [splitLines]
  | cons c rest =>
    rw [splitLines]
    split
    case isTrue => simp
    case isFalse => split <;> simp

theorem splitLines_append {line : List Char} (h : '\n' ∉ line) (rest : List Char) :
    splitLines (line ++ '\n' :: rest) = line :: splitLines rest := by
  induction line with
  | nil => simp [splitLines]
  | cons c line ih =>
    obtain ⟨hc, hline⟩ := not_or.mp (mt List.mem_cons.mpr h)
    simp [splitLines, Ne.symm hc, ih hline]

/-- Lines that are each ended by a line feed are split again. -/
theorem splitLines_flatMap {ls : List (List Char)} (h : ∀ line ∈ ls, '\n' ∉ line) :
    splitLines (ls.flatMap (· ++ ['\n'])) = ls ++ [[]] := by
  induction ls with
  | nil => rfl
  | cons line rest ih =>
    obtain ⟨hline, hrest⟩ := List.forall_mem_cons.mp h
    simp [splitLines_append hline, ih hrest]

theorem said_lines (text : List Char) : said (lines text) = said (splitLines text) := by
  have hsplit := List.dropLast_append_getLast (splitLines_ne_nil text)
  have hreturn (pieces : List (List Char)) : said (pieces.map dropReturn) = said pieces := by
    simp [said, Function.comp_def, content_dropReturn]
  have hlast (piece : List Char) : said ([piece].filter (· ≠ [])) = said [piece] := by
    cases piece with
    | nil => rfl
    | cons c rest => rfl
  conv_rhs => rw [← hsplit]
  rw [lines, said_append, said_append, hreturn, List.getLast?_eq_some_getLast (splitLines_ne_nil text),
    Option.toList_some, hlast]

def numbered (first : ℕ) (ls : List (List Char)) : List (ℕ × List Char) :=
  (ls.zipIdx first).filterMap fun (line, number) =>
    if (content line).isEmpty then none else some (number, content line)

theorem map_snd_numbered (first : ℕ) (ls : List (List Char)) : (numbered first ls).map (·.2) = said ls := by
  have hpieces : ls = (ls.zipIdx first).map (·.1) := (List.zipIdx_map_fst first ls).symm
  conv_rhs => rw [hpieces, said, List.map_map, ← List.filterMap_eq_filter, List.filterMap_map]
  rw [numbered, List.map_filterMap]
  refine List.filterMap_congr fun piece _ => ?_
  cases hline : content piece.1 <;> simp [hline, Option.guard]

theorem map_snd_contents (text : List Char) : (contents text).map (·.2) = said (splitLines text) :=
  map_snd_numbered 1 _

/-! ## What lines declare -/

def entryOf? (content : List Char) : Option (String × Color s) :=
  match declaration content with
  | .ok (.entry name color) => some (name, color)
  | _ => none

def aliasOf? (content : List Char) : Option (String × String) :=
  match Line.read? content with
  | some (.aliasOf name target) => some (name, target)
  | _ => none

def isAlias (line : List Char) : Bool := (aliasOf? (content line)).isSome

def collected (contents : List (List Char)) : Builder s := ⟨contents.filterMap entryOf?, contents.filterMap aliasOf?⟩

section Declarations
variable {content : List Char} {name target : String} {color : Color s}

theorem aliasOf?_eq_some :
    aliasOf? content = some (name, target) ↔ Line.read? content = some (.aliasOf name target) := by
  rw [aliasOf?]
  split <;> simp_all

theorem declaration_eq_aliasOf :
    declaration content = .ok (.aliasOf name target : Declaration s) ↔
      Line.read? content = some (.aliasOf name target) := by
  rw [declaration]
  split
  case h_1 h => simp [h]
  case h_2 h => simp [h]
  case h_3 h => split <;> simp [h]

theorem entryOf?_eq_some : entryOf? content = some (name, color) ↔ declaration content = .ok (.entry name color) := by
  rw [entryOf?]
  split <;> simp_all

theorem aliasOf?_of_entry (h : declaration content = .ok (.entry name color)) : aliasOf? content = none := by
  rw [Option.eq_none_iff_forall_ne_some]
  rintro ⟨other, target⟩ hother
  rw [aliasOf?_eq_some, ← declaration_eq_aliasOf (s := s), h] at hother
  cases hother

theorem readAll_eq_ok {b b' : Builder s} {numbered : List (ℕ × List Char)} :
    readAll b numbered = .ok b' ↔
      (∀ c ∈ numbered.map (·.2), ∃ d : Declaration s, declaration c = .ok d) ∧
        b' = ⟨b.entries ++ (collected (numbered.map (·.2)) : Builder s).entries,
          b.aliases ++ (collected (numbered.map (·.2)) : Builder s).aliases⟩ := by
  induction numbered generalizing b with
  | nil => simp [readAll, collected, eq_comm]
  | cons line rest ih =>
    obtain ⟨number, content⟩ := line
    rw [readAll]
    cases hd : (declaration content : Except Fault (Declaration s)) with
    | error fault => simp [hd]
    | ok d =>
      dsimp only
      rw [ih, List.map_cons, List.forall_mem_cons, and_iff_right (⟨d, hd⟩ : ∃ d, declaration content = .ok d)]
      cases d with
      | entry name color =>
        have hentry := entryOf?_eq_some.mpr hd
        have halias := aliasOf?_of_entry hd
        simp [declare, Builder.insert, collected, hentry, halias]
      | aliasOf name target =>
        have halias := aliasOf?_eq_some.mpr (declaration_eq_aliasOf.mp hd)
        have hentry : (entryOf? content : Option (String × Color s)) = none := by
          simp [entryOf?, hd]
        simp [declare, Builder.addAlias, collected, hentry, halias]

end Declarations

/-- Loading depends on nothing but what the lines say. -/
theorem load_eq_tryBuild {text : String} :
    load text = .ok t ↔ (∀ c ∈ said (lines text.toList), ∃ d : Declaration s, declaration c = .ok d) ∧
      (collected (said (lines text.toList))).tryBuild = .ok t := by
  rw [load_eq_ok, said_lines, ← map_snd_contents]
  simp only [readAll_eq_ok, Builder.empty, List.nil_append]
  constructor
  · rintro ⟨b, ⟨hsound, rfl⟩, hbuild⟩
    exact ⟨hsound, hbuild⟩
  · rintro ⟨hsound, hbuild⟩
    exact ⟨_, ⟨hsound, rfl⟩, hbuild⟩

/-! ## Arrangements -/

theorem filterMap_said_aliasOf? (ls : List (List Char)) :
    (said ls).filterMap aliasOf? = (ls.filter isAlias).filterMap fun line => aliasOf? (content line) := by
  rw [filterMap_said (by decide), List.filterMap_filter]
  refine List.filterMap_congr fun line _ => ?_
  cases halias : aliasOf? (content line) <;> simp [halias, isAlias]

structure Rearranged (before after : List (List Char)) : Prop where
  perm : after.Perm before
  aliases : after.filter isAlias = before.filter isAlias

theorem Rearranged.collected {before after : List (List Char)} (h : Rearranged before after) :
    (collected (said after) : Builder s).entries.Perm (collected (said before) : Builder s).entries ∧
      (collected (said after) : Builder s).aliases = (collected (said before) : Builder s).aliases := by
  constructor
  · exact (said_perm h.perm).filterMap _
  · simp only [Palette.collected]
    rw [filterMap_said_aliasOf?, filterMap_said_aliasOf?, h.aliases]

theorem load_rearranged {text text' : String} (h : load text = .ok t)
    (harranged : Rearranged (lines text.toList) (lines text'.toList)) : load text' = .ok t := by
  rw [load_eq_tryBuild] at h ⊢
  obtain ⟨hsound, hbuild⟩ := h
  obtain ⟨hentries, haliases⟩ := harranged.collected (s := s)
  have hdistinct := (Builder.firstDuplicate_eq_none_iff Entries.nodup_nil).mp (Builder.tryBuild_eq_ok.mp hbuild).1
  refine ⟨fun c hc => hsound c ((said_perm harranged.perm).mem_iff.mp hc), ?_⟩
  rw [← hbuild]
  exact (Builder.build_perm hdistinct hentries.symm haliases.symm).2.symm

theorem rearranged_aliases_first (ls : List (List Char)) :
    Rearranged ls (ls.filter isAlias ++ ls.filter fun line => !isAlias line) where
  perm := List.filter_append_perm _ _
  aliases := by simp [List.filter_append, List.filter_filter]

/-- Strict loading does not depend on where the aliases of a palette stand, so that they may
also stand before all entries. -/
theorem load_arrangements (s : Space) (text : String) (t : Table s) (h : load text = .ok t) (text' : String) :
    (Rearranged (lines text.toList) (lines text'.toList) → load text' = .ok t) ∧
      (lines text'.toList = (lines text.toList).filter isAlias ++ (lines text.toList).filter (fun line => !isAlias line) →
        load text' = .ok t) := by
  refine ⟨load_rearranged h, fun hlines => load_rearranged h ?_⟩
  rw [hlines]
  exact rearranged_aliases_first _

theorem load_arrangements_scarlet :
    let text := "red #ff0000 // first\nscarlet = red\n\nlime #0f0\nrose = scarlet"
    let text' := "scarlet = red\r\nrose = scarlet\r\nred #ff0000 // first\r\n\r\nlime #0f0\r\n"
    let b : Builder .rgb :=
      ⟨[("red", ⟨0xFE0000FF⟩), ("lime", ⟨0xFE00FF00⟩)], [("scarlet", "red"), ("rose", "scarlet")]⟩
    let t : Table .rgb := .ofEntries b.entries [("scarlet", ⟨0xFE0000FF⟩), ("rose", ⟨0xFE0000FF⟩)]
    load text = .ok t ∧ Rearranged (lines text.toList) (lines text'.toList) ∧
      lines text'.toList = (lines text.toList).filter isAlias ++ (lines text.toList).filter (fun line => !isAlias line) ∧
      load text' = .ok t := by
  intro text text' b t
  have hread : readAll .empty (contents text.toList) = .ok b := by decide
  have hload : load text = .ok t := load_eq_ok.mpr ⟨b, hread, by rfl⟩
  have harranged : Rearranged (lines text.toList) (lines text'.toList) := ⟨by decide, by decide⟩
  have hfirst : lines text'.toList =
      (lines text.toList).filter isAlias ++ (lines text.toList).filter (fun line => !isAlias line) := by decide
  exact ⟨hload, harranged, hfirst, (load_arrangements .rgb text t hload text').2 hfirst⟩

end ColorWords.Palette
