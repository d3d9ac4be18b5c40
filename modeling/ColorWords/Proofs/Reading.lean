import ColorWords.Description
import Mathlib.Data.List.Basic

/-! # What a description means

The one pass over the tokens keeps a draft and mutates its latest entry. Here the names
with their weights and the changes of the adjectives are read off separately, and the
pass is shown to arrive at both.
-/
namespace ColorWords

namespace Meaning

def isName : Meaning → Bool
  | .name _ => true
  | _ => false

def isAdjective : Meaning → Bool
  | .adjective _ => true
  | _ => false

def change? : Meaning → Option Adjustment
  | .adjective change => some change
  | _ => none

def weight? : Meaning → Option Float32
  | .weight value => some value
  | _ => none

end Meaning

namespace Description
variable {s : Space} (table : Table s)

/-- The last weight before the next name, `value` when there is none. -/
def lastWeight (value : Float32) (later : List Meaning) : Float32 :=
  ((later.takeWhile (!·.isName)).filterMap Meaning.weight?).getLastD value

def entries : List Meaning → List (Color s × Float32)
  | [] => []
  | .name text :: later => ((table.get? text).getD .transparent, lastWeight 1 later) :: entries later
  | _ :: later => entries later

def adjustment (meanings : List Meaning) : Adjustment :=
  (meanings.filterMap Meaning.change?).foldl (· + ·) .zero

def colorOf (meanings : List Meaning) : Color s :=
  let mixture := Color.weightedMix (entries table meanings)
  if entries table meanings = [] then .transparent
  else if mixture = .transparent then mixture
  else ((adjustment meanings).apply mixture).intoGamut

section Weights
variable (value : Float32) (later : List Meaning)

@[simp] theorem lastWeight_nil : lastWeight value [] = value := rfl

@[simp] theorem lastWeight_name (text : String) : lastWeight value (.name text :: later) = value := rfl

@[simp] theorem lastWeight_adjective (change : Adjustment) :
    lastWeight value (.adjective change :: later) = lastWeight value later := rfl

@[simp] theorem lastWeight_weight (next : Float32) :
    lastWeight value (.weight next :: later) = lastWeight next later :=
  List.getLastD_cons

end Weights

/-! ## One pass -/

def settle (later : List Meaning) : List (Color s × Float32) → List (Color s × Float32)
  | [] => []
  | (color, value) :: older => (color, lastWeight value later) :: older

theorem settle_weight (value : Float32) (later : List Meaning) (older : List (Color s × Float32)) :
    settle later (Draft.setWeight value older) = settle (.weight value :: later) older := by
  cases older with
  | nil => rfl
  | cons entry older => simp [Draft.setWeight, settle]

theorem settle_name (text : String) (later : List Meaning) (older : List (Color s × Float32)) :
    settle (.name text :: later) older = older := by
  cases older with
  | nil => rfl
  | cons entry older => rfl

theorem settle_adjective (change : Adjustment) (later : List Meaning) (older : List (Color s × Float32)) :
    settle (.adjective change :: later) older = settle later older := by
  cases older with
  | nil => rfl
  | cons entry older => rfl

/-- The pass from any draft: later weights reach the latest entry of the draft, and only
that one. -/
theorem foldl_read (meanings : List Meaning) (draft : Draft s) :
    meanings.foldl (Draft.read table) draft =
      ⟨(entries table meanings).reverse ++ settle meanings draft.entries,
        (meanings.filterMap Meaning.change?).foldl (· + ·) draft.adjustment⟩ := by
  induction meanings generalizing draft with
  | nil =>
    obtain ⟨older, change⟩ := draft
    cases older <;> rfl
  | cons m later ih =>
    rw [List.foldl_cons, ih]
    cases m with
    | adjective change =>
      rw [settle_adjective]
      rfl
    | weight value =>
      simp only [Draft.read, settle_weight]
      rfl
    | name text =>
      rw [settle_name, entries, List.reverse_cons, List.append_assoc]
      rfl

theorem color_foldl_read (meanings : List Meaning) :
    (meanings.foldl (Draft.read table) .empty).color = colorOf table meanings := by
  have hempty : settle meanings ([] : List (Color s × Float32)) = [] := rfl
  simp only [foldl_read, Draft.empty, hempty, List.append_nil, Draft.color, List.reverse_reverse,
    List.isEmpty_reverse, Bool.or_eq_true, List.isEmpty_iff, beq_iff_eq, colorOf]
  by_cases hnone : entries table meanings = []
  · rw [if_pos (.inl hnone), if_pos hnone]
  · by_cases hmix : Color.weightedMix (entries table meanings) = .transparent
    · rw [if_pos (.inr hmix), if_neg hnone, if_pos hmix, hmix]
    · rw [if_neg (not_or.mpr ⟨hnone, hmix⟩), if_neg hnone, if_neg hmix]
      rfl

/-! ## Interleaving -/

theorem lastWeight_filter (value : Float32) (meanings : List Meaning) :
    lastWeight value (meanings.filter (!·.isAdjective)) = lastWeight value meanings := by
  induction meanings generalizing value with
  | nil => rfl
  | cons m later ih =>
    cases m with
    | adjective change => exact ih value
    | weight next =>
      rw [List.filter_cons_of_pos (by rfl)]
      simpa using ih next
    | name text => rfl

theorem entries_filter (meanings : List Meaning) :
    entries table (meanings.filter (!·.isAdjective)) = entries table meanings := by
  induction meanings with
  | nil => rfl
  | cons m later ih =>
    cases m with
    | adjective change => exact ih
    | weight value => exact ih
    | name text =>
      rw [List.filter_cons_of_pos (by rfl), entries, entries, lastWeight_filter, ih]

theorem adjustment_filter (meanings : List Meaning) :
    adjustment (meanings.filter Meaning.isAdjective) = adjustment meanings := by
  have hchanges : (meanings.filter Meaning.isAdjective).filterMap Meaning.change? =
      meanings.filterMap Meaning.change? := by
    induction meanings with
    | nil => rfl
    | cons m later ih =>
      cases m with
      | adjective change => exact congrArg (change :: ·) ih
      | weight value => exact ih
      | name text => exact ih
  rw [adjustment, hchanges, adjustment]

theorem colorOf_congr {ms ns : List Meaning}
    (hadj : ms.filter Meaning.isAdjective = ns.filter Meaning.isAdjective)
    (hrest : ms.filter (!·.isAdjective) = ns.filter (!·.isAdjective)) : colorOf table ms = colorOf table ns := by
  have hentries : entries table ms = entries table ns := by
    rw [← entries_filter, hrest, entries_filter]
  have hadjustment : adjustment ms = adjustment ns := by
    rw [← adjustment_filter, hadj, adjustment_filter]
  simp only [colorOf, hentries, hadjustment]

theorem parse_eq (table : Table s) (g : Grammar) (text : String) :
    parse table g text = colorOf table (g.meanings text.toList) :=
  color_foldl_read table _

/-- The color of a description is the declared one, so that only the sequence of its adjectives
and the sequence of its names and weights matter. -/
theorem parse_eq_colorOf (table : Table s) (g : Grammar) (text : String) :
    parse table g text = colorOf table (g.meanings text.toList) ∧
      ∀ other : String,
        (g.meanings text.toList).filter Meaning.isAdjective =
          (g.meanings other.toList).filter Meaning.isAdjective →
        (g.meanings text.toList).filter (!·.isAdjective) =
          (g.meanings other.toList).filter (!·.isAdjective) →
        parse table g text = parse table g other := by
  refine ⟨parse_eq table g text, ?_⟩
  intro other hadj hrest
  rw [parse_eq, parse_eq]
  exact colorOf_congr table hadj hrest

theorem parse_interleaved :
    let table : Table .rgb := ⟨[("mint", ⟨0xFE98FB98⟩), ("sage", ⟨0xFE8DB89C⟩)], []⟩
    let text := "darker rich mint 2 sage 0.5"
    let other := "mint darker 2, sage (rich) 0.5"
    (Grammar.extended.meanings text.toList).filter Meaning.isAdjective =
        (Grammar.extended.meanings other.toList).filter Meaning.isAdjective ∧
      (Grammar.extended.meanings text.toList).filter (!·.isAdjective) =
        (Grammar.extended.meanings other.toList).filter (!·.isAdjective) ∧
      parse table .extended text = parse table .extended other := by
  intro table text other
  have hadj : (Grammar.extended.meanings text.toList).filter Meaning.isAdjective =
      (Grammar.extended.meanings other.toList).filter Meaning.isAdjective := by decide
  have hrest : (Grammar.extended.meanings text.toList).filter (!·.isAdjective) =
      (Grammar.extended.meanings other.toList).filter (!·.isAdjective) := by decide
  exact ⟨hadj, hrest, (parse_eq_colorOf table .extended text).2 other hadj hrest⟩

end Description
end ColorWords
