import ColorWords.Palette.Line
import Mathlib.Data.List.Basic
import Mathlib.Data.List.TakeWhile

/-! # What a palette line may be

The written forms of a declaration are given apart from the reader: blanks, a name, and then
a literal after a blank or an equals sign and another name. The reader splits greedily and
looks at one character after the name; it accepts the written forms and nothing else, and
agrees with trying an alias first and an entry where that fails.
-/
namespace ColorWords.Line

/-! ## Written forms -/

def Letter (c : Char) : Prop := 'a' ≤ c ∧ c ≤ 'z' ∨ 'A' ≤ c ∧ c ≤ 'Z'

def Digit (c : Char) : Prop := '0' ≤ c ∧ c ≤ '9'

def HexDigit (c : Char) : Prop := Digit c ∨ 'a' ≤ c ∧ c ≤ 'f' ∨ 'A' ≤ c ∧ c ≤ 'F'

def Blanks (text : List Char) : Prop := ∀ c ∈ text, c = ' ' ∨ c = '\t'

def Name (text : List Char) : Prop :=
  ∃ first rest, text = first :: rest ∧ Letter first ∧ ∀ c ∈ rest, Letter c ∨ Digit c ∨ c = '_'

def Literal (text : List Char) : Prop := ∃ digits, text = '#' :: digits ∧ digits ≠ [] ∧ ∀ c ∈ digits, HexDigit c

inductive Written : List Char → Line → Prop where
  | entry {before name gap literal after : List Char} (hbefore : Blanks before) (hname : Name name)
      (hgap : Blanks gap) (hne : gap ≠ []) (hliteral : Literal literal) (hafter : Blanks after) :
      Written (before ++ name ++ gap ++ literal ++ after) (.entry (.ofList name) (.ofList literal))
  | aliasOf {before name left right target after : List Char} (hbefore : Blanks before) (hname : Name name)
      (hleft : Blanks left) (hright : Blanks right) (htarget : Name target) (hafter : Blanks after) :
      Written (before ++ name ++ left ++ '=' :: right ++ target ++ after) (.aliasOf (.ofList name) (.ofList target))

/-! ## Characters -/

theorem isAlpha_iff {c : Char} : c.isAlpha = true ↔ Letter c := by
  change (decide ('A'.val ≤ c.val ∧ c.val ≤ 'Z'.val) || (decide ('a'.val ≤ c.val) && decide (c.val ≤ 'z'.val))) =
    true ↔ Letter c
  simp only [Letter, Bool.or_eq_true, Bool.and_eq_true, decide_eq_true_eq, Char.le_def]
  exact or_comm

theorem isDigit_iff {c : Char} : c.isDigit = true ↔ Digit c := by
  simp only [Char.isDigit, Digit, Bool.and_eq_true, decide_eq_true_eq, ge_iff_le, Char.le_def]

theorem isNamePart_iff {c : Char} : isNamePart c = true ↔ Letter c ∨ Digit c ∨ c = '_' := by
  rw [isNamePart, Char.isAlphanum, Bool.or_eq_true, Bool.or_eq_true, isAlpha_iff, isDigit_iff, beq_iff_eq, or_assoc]

theorem isHexDigit_iff {c : Char} : isHexDigit c = true ↔ HexDigit c := by
  simp only [isHexDigit, HexDigit, Bool.or_eq_true, Bool.and_eq_true, decide_eq_true_eq, isDigit_iff, or_assoc]

theorem isSpace_iff {c : Char} : isSpace c = true ↔ c = ' ' ∨ c = '\t' := by
  rw [isSpace, Bool.or_eq_true, beq_iff_eq, beq_iff_eq]

/-! ## Runs -/

section Runs
variable {p : Char → Bool} {run rest : List Char}

def StartsWithout (p : Char → Bool) (text : List Char) : Prop := ∀ c ∈ text.head?, p c = false

theorem startsWithout_cons {c : Char} {text : List Char} : StartsWithout p (c :: text) ↔ p c = false := by
  simp [StartsWithout]

theorem startsWithout_dropWhile (p : Char → Bool) (text : List Char) : StartsWithout p (text.dropWhile p) := by
  intro c hc
  have hhead := List.head?_dropWhile_not p text
  rw [Option.mem_def.mp hc] at hhead
  exact hhead

/-- The longest run is the one that the rest does not go on with. -/
theorem takeWhile_run (hrun : ∀ c ∈ run, p c = true) (hrest : StartsWithout p rest) :
    (run ++ rest).takeWhile p = run ∧ (run ++ rest).dropWhile p = rest := by
  rw [List.takeWhile_append_of_pos hrun, List.dropWhile_append_of_pos hrun]
  cases rest with
  | nil => exact ⟨List.append_nil run, rfl⟩
  | cons c rest =>
    have hc : ¬ p c = true := Bool.eq_false_iff.mp (startsWithout_cons.mp hrest)
    rw [List.takeWhile_cons_of_neg hc, List.dropWhile_cons_of_neg hc]
    exact ⟨List.append_nil run, rfl⟩

end Runs

variable {text name rest before : List Char} {line : Line}

theorem startsWithout_of_blanks {p : Char → Bool} (hspace : p ' ' = false) (htab : p '\t' = false)
    (h : Blanks text) : StartsWithout p text := by
  cases text with
  | nil => simp [StartsWithout]
  | cons c rest =>
    rw [startsWithout_cons]
    rcases h c List.mem_cons_self with rfl | rfl
    · exact hspace
    · exact htab

theorem Name.startsWithout_space (h : Name name) (rest : List Char) : StartsWithout isSpace (name ++ rest) := by
  obtain ⟨first, later, rfl, hfirst, -⟩ := h
  rw [List.cons_append, startsWithout_cons, Bool.eq_false_iff]
  intro hspace
  rcases isSpace_iff.mp hspace with rfl | rfl <;> exact absurd (isAlpha_iff.mpr hfirst) (by decide)

theorem blanks_iff : text.all isSpace = true ↔ Blanks text := by
  simp only [List.all_eq_true, isSpace_iff, Blanks]

theorem dropSpaces_append (hbefore : Blanks before) (hrest : StartsWithout isSpace rest) :
    dropSpaces (before ++ rest) = rest :=
  (takeWhile_run (fun c hc => isSpace_iff.mpr (hbefore c hc)) hrest).2

theorem exists_blanks (text : List Char) : ∃ before, Blanks before ∧ text = before ++ dropSpaces text := by
  refine ⟨text.takeWhile isSpace, ?_, List.takeWhile_append_dropWhile.symm⟩
  intro c hc
  exact isSpace_iff.mp (List.mem_takeWhile_imp hc)

/-! ## Readers -/

/-- A name is read to its end. -/
theorem spanName?_eq_some_iff :
    spanName? text = some (name, rest) ↔ text = name ++ rest ∧ Name name ∧ StartsWithout isNamePart rest := by
  constructor
  · intro h
    cases text with
    | nil => cases h
    | cons first later =>
      rw [spanName?] at h
      split at h
      case isTrue hfirst =>
        obtain ⟨rfl, rfl⟩ := Prod.mk.inj (Option.some.inj h)
        refine ⟨?_, ⟨first, _, rfl, isAlpha_iff.mp hfirst, ?_⟩, startsWithout_dropWhile _ _⟩
        · rw [List.cons_append, List.takeWhile_append_dropWhile]
        · intro c hc
          exact isNamePart_iff.mp (List.mem_takeWhile_imp hc)
      case isFalse => cases h
  · rintro ⟨rfl, ⟨first, later, rfl, hfirst, hlater⟩, hrest⟩
    obtain ⟨htake, hdrop⟩ := takeWhile_run (fun c hc => isNamePart_iff.mpr (hlater c hc)) hrest
    rw [List.cons_append, spanName?, if_pos (isAlpha_iff.mpr hfirst), htake, hdrop]

theorem readAlias?_eq_some_iff :
    readAlias? name text = some line ↔ ∃ right target after, text = right ++ (target ++ after) ∧
      Blanks right ∧ Name target ∧ Blanks after ∧ line = .aliasOf (.ofList name) (.ofList target) := by
  simp only [readAlias?, Option.bind_eq_bind, Option.bind_eq_some_iff, Prod.exists, spanName?_eq_some_iff,
    Option.ite_none_right_eq_some, Option.some.injEq, blanks_iff]
  constructor
  · rintro ⟨target, after, ⟨htext, htarget, -⟩, hafter, rfl⟩
    obtain ⟨right, hright, hsplit⟩ := exists_blanks text
    exact ⟨right, target, after, by rw [← htext, ← hsplit], hright, htarget, hafter, rfl⟩
  · rintro ⟨right, target, after, rfl, hright, htarget, hafter, rfl⟩
    refine ⟨target, after, ⟨dropSpaces_append hright (htarget.startsWithout_space after), htarget, ?_⟩, hafter, rfl⟩
    exact startsWithout_of_blanks rfl rfl hafter

theorem readEntry?_eq_some_iff :
    readEntry? name text = some line ↔ ∃ digits after, text = digits ++ after ∧ digits ≠ [] ∧
      (∀ c ∈ digits, HexDigit c) ∧ Blanks after ∧ line = .entry (.ofList name) (.ofList ('#' :: digits)) := by
  simp only [ readEntry?, Option.ite_none_right_eq_some, Option.some.injEq, Bool.and_eq_true, Bool.not_eq_true',
    List.isEmpty_eq_false_iff, blanks_iff]
  constructor
  · rintro ⟨⟨hne, hafter⟩, rfl⟩
    refine ⟨_, _, List.takeWhile_append_dropWhile.symm, hne, ?_, hafter, rfl⟩
    intro c hc
    exact isHexDigit_iff.mp (List.mem_takeWhile_imp hc)
  · rintro ⟨digits, after, rfl, hne, hdigits, hafter, rfl⟩
    obtain ⟨htake, hdrop⟩ := takeWhile_run (fun c hc => isHexDigit_iff.mpr (hdigits c hc))
      (startsWithout_of_blanks (p := isHexDigit) rfl rfl hafter)
    rw [htake, hdrop]
    exact ⟨⟨hne, hafter⟩, rfl⟩

/-- What follows the name decides between an alias and an entry. -/
theorem read?_eq_some : read? text = some line ↔
    ∃ name rest, spanName? (dropSpaces text) = some (name, rest) ∧
      ((∃ tail, dropSpaces rest = '=' :: tail ∧ readAlias? name tail = some line) ∨
        ∃ tail, dropSpaces rest = '#' :: tail ∧ rest.head?.any isSpace = true ∧
          readEntry? name tail = some line) := by
  simp only [read?, Option.bind_eq_bind, Option.bind_eq_some_iff, Prod.exists]
  refine exists_congr fun name => exists_congr fun rest => and_congr_right fun _ => ?_
  split
  case h_1 tail htail => simp [htail]
  case h_2 tail htail => simp [htail]
  case h_3 halias hentry =>
    refine iff_of_false (by simp) ?_
    rintro (⟨tail, htail, -⟩ | ⟨tail, htail, -⟩)
    · exact halias tail htail
    · exact hentry tail htail

/-! ## The language of lines -/

theorem written_of_read? (h : read? text = some line) : Written text line := by
  obtain ⟨name, rest, hname, hrest⟩ := read?_eq_some.mp h
  obtain ⟨before, hbefore, htext⟩ := exists_blanks text
  obtain ⟨hsplit, hname, -⟩ := spanName?_eq_some_iff.mp hname
  obtain ⟨gap, hgap, hrest'⟩ := exists_blanks rest
  rw [hsplit] at htext
  rcases hrest with ⟨tail, htail, hread⟩ | ⟨tail, htail, hspace, hread⟩
  · obtain ⟨right, target, after, rfl, hright, htarget, hafter, rfl⟩ := readAlias?_eq_some_iff.mp hread
    have hwritten := Written.aliasOf hbefore hname hgap hright htarget hafter
    rw [htext, hrest', htail]
    simpa only [List.append_assoc, List.cons_append] using hwritten
  · obtain ⟨digits, after, rfl, hne, hdigits, hafter, rfl⟩ := readEntry?_eq_some_iff.mp hread
    have hgap' : gap ≠ [] := by
      rintro rfl
      rw [hrest', htail] at hspace
      cases hspace
    have hwritten := Written.entry hbefore hname hgap hgap' ⟨digits, rfl, hne, hdigits⟩ hafter
    rw [htext, hrest', htail]
    simpa only [List.append_assoc, List.cons_append] using hwritten

theorem read?_of_written (h : Written text line) : read? text = some line := by
  rw [read?_eq_some]
  cases h with
  | @entry before name gap literal after hbefore hname hgap hne hliteral hafter =>
    obtain ⟨digits, rfl, hdigits, hhex⟩ := hliteral
    obtain ⟨c, gap, rfl⟩ := List.exists_cons_of_ne_nil hne
    have hc : isSpace c = true := isSpace_iff.mpr (hgap c List.mem_cons_self)
    refine ⟨name, c :: gap ++ '#' :: digits ++ after, ?_, .inr ⟨digits ++ after, ?_, hc, ?_⟩⟩
    · rw [spanName?_eq_some_iff]
      refine ⟨?_, hname, startsWithout_cons.mpr (startsWithout_cons.mp (startsWithout_of_blanks rfl rfl hgap))⟩
      simp only [List.append_assoc]
      exact dropSpaces_append hbefore (hname.startsWithout_space _)
    · rw [List.append_assoc, List.cons_append]
      exact dropSpaces_append hgap (startsWithout_cons.mpr rfl)
    · exact readEntry?_eq_some_iff.mpr ⟨digits, after, rfl, hdigits, hhex, hafter, rfl⟩
  | @aliasOf before name left right target after hbefore hname hleft hright htarget hafter =>
    refine ⟨name, left ++ '=' :: (right ++ (target ++ after)), ?_, .inl ⟨right ++ (target ++ after), ?_, ?_⟩⟩
    · rw [spanName?_eq_some_iff]
      refine ⟨?_, hname, ?_⟩
      · simp only [List.append_assoc, List.cons_append]
        exact dropSpaces_append hbefore (hname.startsWithout_space _)
      · cases left with
        | nil => exact startsWithout_cons.mpr rfl
        | cons c left => exact startsWithout_cons.mpr (startsWithout_cons.mp (startsWithout_of_blanks rfl rfl hleft))
    · exact dropSpaces_append hleft (startsWithout_cons.mpr rfl)
    · exact readAlias?_eq_some_iff.mpr ⟨right, target, after, rfl, hright, htarget, hafter, rfl⟩

theorem read?_eq_some_iff : read? text = some line ↔ Written text line := ⟨written_of_read?, read?_of_written⟩

/-- A line declares one thing at most. -/
theorem Written.unique {other : Line} (h : Written text line) (h' : Written text other) : line = other :=
  Option.some.inj ((read?_of_written h).symm.trans (read?_of_written h'))

/-! ## Trying an alias first -/

def lettersThenMore? (text : List Char) : Option (List Char × List Char) :=
  let letters := text.takeWhile Char.isAlpha
  let rest := text.dropWhile Char.isAlpha
  if letters.isEmpty then none else some (letters ++ rest.takeWhile isNamePart, rest.dropWhile isNamePart)

def aliasThen? (text : List Char) : Option (Line × List Char) := do
  let (name, rest) ← lettersThenMore? text
  match dropSpaces rest with
  | '=' :: tail =>
    let (target, after) ← lettersThenMore? (dropSpaces tail)
    return (.aliasOf (.ofList name) (.ofList target), after)
  | _ => none

def entryThen? (text : List Char) : Option (Line × List Char) := do
  let (name, rest) ← lettersThenMore? text
  if (rest.takeWhile isSpace).isEmpty then none
  else match dropSpaces rest with
    | '#' :: tail =>
      let digits := tail.takeWhile isHexDigit
      if digits.isEmpty then none
      else some (.entry (.ofList name) (.ofList ('#' :: digits)), tail.dropWhile isHexDigit)
    | _ => none

def readInTurn? (text : List Char) : Option Line := do
  let start := dropSpaces text
  let (line, rest) ← (aliasThen? start).or (entryThen? start)
  if (dropSpaces rest).isEmpty then some line else none

theorem isNamePart_of_isAlpha {c : Char} (h : c.isAlpha = true) : isNamePart c = true := by
  rw [isNamePart, Char.isAlphanum, h]
  rfl

theorem lettersThenMore?_eq (text : List Char) : lettersThenMore? text = spanName? text := by
  cases text with
  | nil => rfl
  | cons c rest =>
    rw [lettersThenMore?, spanName?]
    by_cases hc : c.isAlpha = true
    · have hletters : ∀ d ∈ rest.takeWhile Char.isAlpha, isNamePart d = true :=
        fun d hd => isNamePart_of_isAlpha (List.mem_takeWhile_imp hd)
      have hsplit : rest.takeWhile Char.isAlpha ++ rest.dropWhile Char.isAlpha = rest :=
        List.takeWhile_append_dropWhile
      have htake : (rest.takeWhile Char.isAlpha ++ rest.dropWhile Char.isAlpha).takeWhile isNamePart =
          rest.takeWhile Char.isAlpha ++ (rest.dropWhile Char.isAlpha).takeWhile isNamePart :=
        List.takeWhile_append_of_pos hletters
      have hdrop : (rest.takeWhile Char.isAlpha ++ rest.dropWhile Char.isAlpha).dropWhile isNamePart =
          (rest.dropWhile Char.isAlpha).dropWhile isNamePart := List.dropWhile_append_of_pos hletters
      rw [hsplit] at htake hdrop
      simp [hc, htake, hdrop]
    · simp [hc]

theorem isEmpty_dropSpaces (text : List Char) : (dropSpaces text).isEmpty = text.all isSpace := by
  rw [Bool.eq_iff_iff, List.isEmpty_iff, dropSpaces, List.dropWhile_eq_nil_iff, List.all_eq_true]

theorem isEmpty_takeWhile (p : Char → Bool) (text : List Char) :
    (text.takeWhile p).isEmpty = !text.head?.any p := by
  cases text with
  | nil => rfl
  | cons c rest => cases hc : p c <;> simp [hc]

/-- Nothing is lost by deciding at the first character after the name: an alias that fails
later has an equals sign there, and no entry has. -/
theorem readInTurn?_eq_read? (text : List Char) : readInTurn? text = read? text := by
  rw [readInTurn?, aliasThen?, entryThen?, read?]
  simp only [lettersThenMore?_eq, isEmpty_dropSpaces, isEmpty_takeWhile, Option.bind_eq_bind]
  cases hname : spanName? (dropSpaces text) with
  | none => rfl
  | some found =>
    obtain ⟨name, rest⟩ := found
    simp only [Option.bind_some]
    split
    case h_1 tail htail =>
      rw [htail]
      change _ = readAlias? name tail
      rw [readAlias?]
      cases spanName? (dropSpaces tail) with
      | none => cases rest.head?.any isSpace <;> rfl
      | some found => rfl
    case h_2 hnot =>
      cases hrest : dropSpaces rest with
      | nil => simp
      | cons c tail =>
        have hequals : c ≠ '=' := by
          rintro rfl
          exact hnot tail hrest
        by_cases hsharp : c = '#'
        · subst hsharp
          cases rest.head?.any isSpace with
          | false => rfl
          | true =>
            change (if (!tail.head?.any isHexDigit) = true then none
              else some (_, tail.dropWhile isHexDigit)).bind _ = readEntry? name tail
            rw [ readEntry?, isEmpty_takeWhile]
            cases tail.head?.any isHexDigit with
            | false => rfl
            | true => rfl
        · simp [hequals, hsharp]

/-- The reader accepts a line with its parts if and only if it is written so, and refuses every
other text. No line is written as two declarations, an entry and an alias least of all, and
trying an alias before an entry reads the same. -/
theorem read?_exact (text : String) :
    (∀ line, read? text.toList = some line ↔ Written text.toList line) ∧
      (read? text.toList = none ↔ ∀ line, ¬ Written text.toList line) ∧
      (∀ line other, Written text.toList line → Written text.toList other → line = other) ∧
      readInTurn? text.toList = read? text.toList := by
  refine ⟨fun line => read?_eq_some_iff, ?_, fun line other => Written.unique, readInTurn?_eq_read? _⟩
  rw [Option.eq_none_iff_forall_ne_some]
  exact forall_congr' fun line => not_congr read?_eq_some_iff

theorem read?_exact_scarlet :
    let text := "\tscarlet_2=  red "
    Written text.toList (.aliasOf "scarlet_2" "red") ∧
      ∀ other, Written text.toList other → .aliasOf "scarlet_2" "red" = other := by
  intro text
  obtain ⟨hread, -, hunique, -⟩ := read?_exact text
  have hwritten : Written text.toList (.aliasOf "scarlet_2" "red") := (hread _).mp (by decide)
  exact ⟨hwritten, fun other => hunique _ other hwritten⟩

end ColorWords.Line
