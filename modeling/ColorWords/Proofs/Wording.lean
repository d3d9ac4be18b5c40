import ColorWords.Wording
import ColorWords.Proofs.Adjustment
import ColorWords.Proofs.Token

/-! # Words for levels are read back

The words for two levels are tokens of every grammar, and every grammar that says them
classifies them as adjectives whose changes add up to the change of the levels.
-/
namespace ColorWords.Grammar
open Single

def spoken (g : Grammar) (l r : ℤ) : List String :=
  [(g.levelWords l r).1, (g.levelWords l r).2].filter (· ≠ "")

/-- The levels that a token says where compound adjectives are known or not. -/
def wordLevels? (compounds : Bool) (token : List UInt8) : Option (ℤ × ℤ) := do
  let a ← (Adjective.all.filter fun a => compounds || !a.compound).find? (·.claims token)
  let level ← a.level? token.length
  return (a.lightness * level, a.saturation * level)

def saidLevels (compounds : Bool) (l r : ℤ) : List (ℤ × ℤ) :=
  if compounds && l != 0 && l.natAbs == r.natAbs then [(l, r)]
  else [(l, 0), (0, r)].filter (· ≠ (0, 0))

variable {g : Grammar} {l r : ℤ}

theorem change?_eq (g : Grammar) (token : List UInt8) :
    g.change? token = (wordLevels? g.features.compounds token).map fun levels => g.steps levels.1 levels.2 := by
  simp only [change?, wordLevels?, adjectives]
  cases (Adjective.all.filter fun a => g.features.compounds || !a.compound).find? (·.claims token) with
  | none => rfl
  | some a =>
    simp only [Option.bind_eq_bind, Option.bind_some]
    cases a.level? token.length <;> rfl

theorem not_isDigit_of_isAlpha {c : Char} (h : c.isAlpha = true) : c.isDigit = false := by
  rw [Bool.eq_false_iff]
  intro hdigit
  simp only [Char.isAlpha, Char.isUpper, Char.isLower, Char.isDigit, Bool.or_eq_true, Bool.and_eq_true,
    decide_eq_true_eq, ge_iff_le, UInt32.le_iff_toNat_le] at h hdigit
  have hnine : '9'.val.toNat = 57 := rfl
  have hupper : 'A'.val.toNat = 65 := rfl
  have hlower : 'a'.val.toNat = 97 := rfl
  omega

theorem classify_of_wordLevels {word : List Char} {levels : ℤ × ℤ} (halpha : ∀ c ∈ word, c.isAlpha = true)
    (h : wordLevels? g.features.compounds (Text.bytes word) = some levels) :
    g.classify word = .adjective (g.steps levels.1 levels.2) := by
  have hdigit : word.head?.any Char.isDigit = false := by
    cases word with
    | nil => rfl
    | cons c rest => exact not_isDigit_of_isAlpha (halpha c List.mem_cons_self)
  rw [classify, hdigit, Bool.and_false, change?_eq, h]
  rfl

def readsBack (compounds : Bool) (l r : ℤ) : Bool :=
  let words := spoken ⟨⟨compounds, false, false⟩, 0, 0⟩ l r
  words.all (fun w => !w.toList.isEmpty && w.toList.all Char.isAlpha) &&
    words.map (fun w => wordLevels? compounds (Text.bytes w.toList)) == (saidLevels compounds l r).map some

def levels : List ℤ := [-4, -3, -2, -1, 0, 1, 2, 3, 4]

theorem mem_levels {l : ℤ} (h : -4 ≤ l ∧ l ≤ 4) : l ∈ levels := by
  simp only [levels, List.mem_cons, List.not_mem_nil, or_false]
  omega

/-- The vocabulary, checked word by word. -/
theorem all_readsBack :
    ([false, true].all fun compounds => levels.all fun l => levels.all fun r => readsBack compounds l r) = true := by
  set_option maxRecDepth 2000 in decide

theorem readsBack_of_bounds (compounds : Bool) (hl : -4 ≤ l ∧ l ≤ 4) (hr : -4 ≤ r ∧ r ≤ 4) :
    readsBack compounds l r = true := by
  have hcompounds : compounds ∈ [false, true] := by cases compounds <;> simp
  have hall := List.all_eq_true.mp all_readsBack compounds hcompounds
  exact List.all_eq_true.mp (List.all_eq_true.mp hall l (mem_levels hl)) r (mem_levels hr)

/-- What was checked of the vocabulary holds of every grammar. -/
theorem spoken_spec (g : Grammar) (hl : -4 ≤ l ∧ l ≤ 4) (hr : -4 ≤ r ∧ r ≤ 4) :
    (∀ w ∈ g.spoken l r, w.toList ≠ [] ∧ ∀ c ∈ w.toList, c.isAlpha = true) ∧
      (g.spoken l r).map (fun w => wordLevels? g.features.compounds (Text.bytes w.toList)) =
        (saidLevels g.features.compounds l r).map some := by
  have hcheck := readsBack_of_bounds g.features.compounds hl hr
  have hspoken : spoken ⟨⟨g.features.compounds, false, false⟩, 0, 0⟩ l r = g.spoken l r := rfl
  simp only [readsBack, hspoken, Bool.and_eq_true, List.all_eq_true, beq_iff_eq, Bool.not_eq_true',
    List.isEmpty_eq_false_iff] at hcheck
  exact hcheck

theorem isWord_of_mem_spoken (hl : -4 ≤ l ∧ l ≤ 4) (hr : -4 ≤ r ∧ r ≤ 4) {w : String}
    (hw : w ∈ g.spoken l r) : g.IsWord w.toList := by
  obtain ⟨hne, halpha⟩ := (spoken_spec g hl hr).1 w hw
  refine ⟨hne, ?_⟩
  intro c hc
  rw [isTokenChar, halpha c hc, Bool.true_or, Bool.true_or]

theorem map_classify {words : List String} {levels : List (ℤ × ℤ)}
    (halpha : ∀ w ∈ words, ∀ c ∈ w.toList, c.isAlpha = true)
    (h : words.map (fun w => wordLevels? g.features.compounds (Text.bytes w.toList)) = levels.map some) :
    words.map (fun w => g.classify w.toList) = levels.map fun p => .adjective (g.steps p.1 p.2) := by
  induction words generalizing levels with
  | nil =>
    obtain rfl := List.map_eq_nil_iff.mp h.symm
    rfl
  | cons w rest ih =>
    cases levels with
    | nil => cases h
    | cons p later =>
      obtain ⟨hp, hlater⟩ := List.cons.inj h
      obtain ⟨hw, hrest⟩ := List.forall_mem_cons.mp halpha
      rw [List.map_cons, List.map_cons, classify_of_wordLevels hw hp, ih hrest hlater]

def saidChanges (g : Grammar) (l r : ℤ) : List Adjustment :=
  (saidLevels g.features.compounds l r).map fun p => g.steps p.1 p.2

/-- The words for two levels are read as adjectives. -/
theorem classify_spoken (g : Grammar) (hl : -4 ≤ l ∧ l ≤ 4) (hr : -4 ≤ r ∧ r ≤ 4) :
    (g.spoken l r).map (fun w => g.classify w.toList) = (g.saidChanges l r).map .adjective := by
  obtain ⟨hwords, hlevels⟩ := spoken_spec g hl hr
  rw [saidChanges, List.map_map]
  exact map_classify (fun w hw => (hwords w hw).2) hlevels

/-- Together the words change a color as the levels do. -/
theorem foldl_saidChanges_alike (hg : g.FiniteSteps) (l r : ℤ) :
    ((g.saidChanges l r).foldl (· + ·) Adjustment.zero).Alike (g.steps l r) := by
  rw [saidChanges, saidLevels]
  split
  case isTrue => exact Adjustment.zero_add_alike _
  case isFalse =>
    by_cases hl : l = 0
    · subst hl
      by_cases hr : r = 0
      · subst hr
        exact ⟨.inr ⟨denotes_zero, hg.lightness_zero 0⟩, .inr ⟨denotes_zero, hg.saturation_zero 0⟩⟩
      · have hsaid : [((0 : ℤ), (0 : ℤ)), (0, r)].filter (· ≠ (0, 0)) = [(0, r)] := by simp [hr]
        rw [hsaid]
        exact Adjustment.zero_add_alike _
    · by_cases hr : r = 0
      · subst hr
        have hsaid : [(l, (0 : ℤ)), (0, 0)].filter (· ≠ (0, 0)) = [(l, 0)] := by simp [hl]
        rw [hsaid]
        exact Adjustment.zero_add_alike _
      · have hsaid : [(l, (0 : ℤ)), (0, r)].filter (· ≠ (0, 0)) = [(l, 0), (0, r)] := by simp [hl, hr]
        rw [hsaid]
        exact hg.add_alike l r

end ColorWords.Grammar
