import ColorWords.Proofs.Mixing
import ColorWords.Proofs.Reading
import ColorWords.Proofs.Single.Scaling

/-! # Weights in proportion

Weights count only in relation to one another: with a power of two as a common factor each color has
the same share of the total as without it, so the mixture comes out the same, bit for bit. Only the
range of singles puts an end to this, which is why the weights and all totals are to be normal.
-/
namespace ColorWords
open Single

variable {s : Space} {state state' entry entry' : Color s × Float32} {rest rest' : List (Color s × Float32)} {j : ℤ}

namespace Color

structure ScaledEntry (j : ℤ) (e e' : Color s × Float32) : Prop where
  positive : 0 < e.2
  color : e'.1 = e.1
  weight : Scaled j e.2 e'.2

def totals : List (Color s × Float32) → List Float32
  | [] => []
  | entry :: rest => (rest.scanl addWeighted entry).map (·.2)

theorem totals_cons (state entry : Color s × Float32) (rest : List (Color s × Float32)) :
    totals (state :: entry :: rest) = state.2 :: totals (addWeighted state entry :: rest) := by
  simp only [totals, List.scanl_cons, List.map_cons]

theorem mem_totals (entry : Color s × Float32) (rest : List (Color s × Float32)) :
    entry.2 ∈ totals (entry :: rest) := by
  cases rest with
  | nil => exact List.mem_cons_self
  | cons e rest =>
    rw [totals_cons]
    exact List.mem_cons_self

/-- The same colors with `2 ^ j` times the weights, where no total leaves the range of normal singles. -/
structure InProportion (j : ℤ) (entries entries' : List (Color s × Float32)) : Prop where
  scaled : List.Forall₂ (ScaledEntry j) entries entries'
  normal : ∀ t ∈ totals entries, ∃ u, Scaled j t u

/-! ## One color -/

theorem addWeighted_of_pos (ht : 0 < value state.2) (hw : 0 < value entry.2)
    (hfinite : state.2.isFinite = true ∧ entry.2.isFinite = true) :
    addWeighted state entry =
      (state.1.lerp entry.1 (entry.2 / (state.2 + entry.2)), state.2 + entry.2) :=
  if_neg ((denotes_value hfinite.1).add_not_le_zero (denotes_value hfinite.2) ht hw.le)

/-- Both mixtures take the same share of the next color. -/
theorem ScaledEntry.step (hstate : ScaledEntry j state state') (hentry : ScaledEntry j entry entry')
    (htotal : ∃ u, Scaled j (addWeighted state entry).2 u) :
    ScaledEntry j (addWeighted state entry) (addWeighted state' entry') := by
  have ht := hstate.weight.value_pos hstate.positive
  have hw := hentry.weight.value_pos hentry.positive
  rw [addWeighted_of_pos ht.1 hw.1 ⟨hstate.weight.source.finite, hentry.weight.source.finite⟩] at htotal ⊢
  rw [addWeighted_of_pos ht.2 hw.2 ⟨hstate.weight.target.finite, hentry.weight.target.finite⟩]
  have hsum := hstate.weight.add hentry.weight ⟨hstate.positive, hentry.positive⟩ htotal
  have hrounded := hstate.weight.denotes.1.add_of_finite hentry.weight.denotes.1 ht.1.le hw.1.le hsum.source.finite
  have hle : value entry.2 ≤ value (state.2 + entry.2) := by
    rw [hrounded.eq]
    exact le_rounded hentry.weight.denotes.1.representable (by linarith)
  obtain ⟨c, hc, hc', h0, h1⟩ := hentry.weight.share hsum hw.1.le hle
  refine ⟨(denotes_zero.lt_iff hsum.denotes.1).mpr (hw.1.trans_le hle), ?_, hsum⟩
  rw [hstate.color, hentry.color]
  exact lerp_congr hc' hc h0 h1 _ _

/-! ## All colors -/

theorem ScaledEntry.foldl (hstate : ScaledEntry j state state') (hrest : List.Forall₂ (ScaledEntry j) rest rest')
    (htotals : ∀ t ∈ totals (state :: rest), ∃ u, Scaled j t u) :
    ScaledEntry j (rest.foldl addWeighted state) (rest'.foldl addWeighted state') := by
  induction hrest generalizing state state' with
  | nil => exact hstate
  | cons hentry _ ih =>
    rw [totals_cons] at htotals
    obtain ⟨-, hlater⟩ := List.forall_mem_cons.mp htotals
    exact ih (hstate.step hentry (hlater _ (mem_totals _ _))) hlater

theorem InProportion.weightedMix_eq {entries entries' : List (Color s × Float32)}
    (h : InProportion j entries entries') : weightedMix entries' = weightedMix entries := by
  obtain ⟨hscaled, hnormal⟩ := h
  cases hscaled with
  | nil => rfl
  | cons hfirst hrest => exact (hfirst.foldl hrest hnormal).color

theorem InProportion.eq_nil_iff {entries entries' : List (Color s × Float32)} (h : InProportion j entries entries') :
    entries' = [] ↔ entries = [] := by
  rw [← List.length_eq_zero_iff, ← h.scaled.length_eq, List.length_eq_zero_iff]

end Color

/-! ## Descriptions -/

namespace Description
open Color

theorem colorOf_of_inProportion {table : Table s} {ms ns : List Meaning}
    (hadj : ms.filter Meaning.isAdjective = ns.filter Meaning.isAdjective)
    (h : InProportion j (entries table ms) (entries table ns)) : colorOf table ns = colorOf table ms := by
  have hadjustment : adjustment ns = adjustment ms := by
    rw [← adjustment_filter, ← hadj, adjustment_filter]
  simp only [colorOf, h.weightedMix_eq, h.eq_nil_iff, hadjustment]

/-- Weights count only in proportion, in mixtures and in descriptions with the same adjectives. -/
theorem proportion_decides :
    (∀ (j : ℤ) (entries entries' : List (Color s × Float32)), InProportion j entries entries' →
      weightedMix entries' = weightedMix entries) ∧
    ∀ (j : ℤ) (table : Table s) (g : Grammar) (text other : String),
      (g.meanings text.toList).filter Meaning.isAdjective = (g.meanings other.toList).filter Meaning.isAdjective →
      InProportion j (entries table (g.meanings text.toList)) (entries table (g.meanings other.toList)) →
      parse table g other = parse table g text := by
  refine ⟨fun j entries entries' h => h.weightedMix_eq, ?_⟩
  intro j table g text other hadj h
  rw [parse_eq, parse_eq]
  exact colorOf_of_inProportion hadj h

/-- Halves and wholes, and a factor that no single stands for. -/
theorem proportion_decides_halved :
    let red : Rgb := ⟨0xFE0000FF⟩
    let blue : Rgb := ⟨0xFEFF0000⟩
    let table : Table .rgb := ⟨[("blue", blue), ("red", red)], []⟩
    let smallest : Float32 := .ofBits 0x00800000
    let large : Float32 := .ofBits 0x7E000000
    InProportion 1 (entries table (Grammar.extended.meanings "red 0.5 blue".toList))
        (entries table (Grammar.extended.meanings "red blue 2".toList)) ∧
      parse table .extended "red blue 2" = parse table .extended "red 0.5 blue" ∧
      weightedMix [(red, large), (blue, large)] = weightedMix [(red, smallest), (blue, smallest)] := by
  intro red blue table smallest large
  have htotals : totals [(red, 0.5), (blue, 1)] = [0.5, 1.5] ∧
      totals [(red, smallest), (blue, smallest)] = [smallest, .ofBits 0x01000000] := by decide
  have hhalved : InProportion 1 [(red, 0.5), (blue, 1)] [(red, 1), (blue, 2)] := by
    refine ⟨.cons ⟨by decide, rfl, by decide +kernel⟩ (.cons ⟨by decide, rfl, by decide +kernel⟩ .nil), ?_⟩
    rw [htotals.1]
    simp only [List.forall_mem_cons]
    exact ⟨⟨1, by decide +kernel⟩, ⟨3, by decide +kernel⟩, List.forall_mem_nil _⟩
  have hextreme : InProportion 251 [(red, smallest), (blue, smallest)] [(red, large), (blue, large)] := by
    refine ⟨.cons ⟨by decide, rfl, by decide +kernel⟩ (.cons ⟨by decide, rfl, by decide +kernel⟩ .nil), ?_⟩
    rw [htotals.2]
    simp only [List.forall_mem_cons]
    exact ⟨⟨large, by decide +kernel⟩, ⟨.ofBits 0x7E800000, by decide +kernel⟩, List.forall_mem_nil _⟩
  have hentries : entries table (Grammar.extended.meanings "red 0.5 blue".toList) = [(red, 0.5), (blue, 1)] ∧
      entries table (Grammar.extended.meanings "red blue 2".toList) = [(red, 1), (blue, 2)] := by decide
  have hadj : (Grammar.extended.meanings "red 0.5 blue".toList).filter Meaning.isAdjective =
      (Grammar.extended.meanings "red blue 2".toList).filter Meaning.isAdjective := by decide
  obtain ⟨hmix, hparse⟩ := proportion_decides (s := .rgb)
  rw [← hentries.1, ← hentries.2] at hhalved
  exact ⟨hhalved, hparse 1 table .extended _ _ hadj hhalved, hmix 251 _ _ hextreme⟩

end Description
end ColorWords
