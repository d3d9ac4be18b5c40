import ColorWords.Grammar
import ColorWords.Proofs.Single.Zero

/-! # Adjustments and zeros

The sum of the changes that words say and the change of two levels may differ in the signs
of their zeros. No color shows the difference: a zero of either sign moves nothing.
-/
namespace ColorWords
open Single

namespace Adjustment
variable {s : Space} {a b : Adjustment}

/-- Equal up to the signs of zeros. -/
structure Alike (a b : Adjustment) : Prop where
  lightness : Single.Alike a.lightness b.lightness
  saturation : Single.Alike a.saturation b.saturation

theorem Alike.refl (a : Adjustment) : a.Alike a := ⟨.refl _, .refl _⟩

theorem move_zero (up down : Color s → Float32 → Color s) {change : Float32} (h : Denotes change 0)
    (color : Color s) : move up down change color = color := by
  have hpos : ¬ 0 < change := by
    rw [denotes_zero.lt_iff h]
    exact lt_irrefl 0
  have hneg : ¬ change < 0 := by
    rw [h.lt_iff denotes_zero]
    exact lt_irrefl 0
  rw [move, if_neg hpos, if_neg hneg]

theorem move_congr (up down : Color s → Float32 → Color s) {x y : Float32} (h : Single.Alike x y)
    (color : Color s) : move up down x color = move up down y color := by
  rcases h with rfl | ⟨hx, hy⟩
  · rfl
  · rw [move_zero up down hx, move_zero up down hy]

theorem apply_congr (h : a.Alike b) (color : Color s) : a.apply color = b.apply color := by
  rw [apply, apply, move_congr _ _ h.lightness, move_congr _ _ h.saturation]

theorem zero_add_alike (a : Adjustment) : (zero + a).Alike a :=
  ⟨alike_zero_add denotes_zero _, alike_zero_add denotes_zero _⟩

end Adjustment

namespace Grammar
variable {g : Grammar}

structure FiniteSteps (g : Grammar) : Prop where
  lightness : g.lightnessStep.isFinite = true
  saturation : g.saturationStep.isFinite = true

theorem FiniteSteps.lightness_zero (h : g.FiniteSteps) (r : ℤ) : Denotes (g.steps 0 r).lightness 0 :=
  (denotes_value h.lightness).mul_zero denotes_zero

theorem FiniteSteps.saturation_zero (h : g.FiniteSteps) (l : ℤ) : Denotes (g.steps l 0).saturation 0 :=
  (denotes_value h.saturation).mul_zero denotes_zero

/-- A change of lightness and then one of saturation are the change of both levels. -/
theorem FiniteSteps.add_alike (h : g.FiniteSteps) (l r : ℤ) :
    (Adjustment.zero + g.steps l 0 + g.steps 0 r).Alike (g.steps l r) := by
  constructor
  · have hfirst := alike_zero_add denotes_zero (g.steps l 0).lightness
    exact (alike_add_zero _ (h.lightness_zero r)).trans hfirst
  · have hfirst : Denotes (0 + (g.steps l 0).saturation) 0 := denotes_zero.add_zero (h.saturation_zero l)
    exact alike_zero_add hfirst (g.steps 0 r).saturation

end Grammar
end ColorWords
