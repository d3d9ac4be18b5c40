import ColorWords.Proofs.Single.Bounds

/-! # Singles around a number

How far a single may be from the number that exact arithmetic gives. Every operation adds at
most one slip to what its operands are off, as long as results stay below eight.
-/
namespace ColorWords.Single

variable {a b x y : Float32} {d e p q P Q : ℚ}

def slip : ℚ := 1 / 2 ^ 22

theorem slip_pos : 0 < slip := by norm_num [slip]

theorem abs_rounded_sub_le_slip (h : |q| < 8) : |rounded q - q| ≤ slip := by
  have hgrid : |q| < 2 ^ 24 * 2 ^ (-21 : ℤ) := by
    norm_num
    exact h
  exact (abs_rounded_sub_le hgrid (by norm_num)).trans (by norm_num [slip])

theorem abs_rounded_lt_range (h : |q| < 8) : |rounded q| < 2 ^ 128 :=
  (abs_rounded_le_two_pow (n := 3) (h.le.trans (by norm_num))).trans_lt (by norm_num)

/-- `x` is finite and at most `e` from `q`. -/
def Around (e : ℚ) (x : Float32) (q : ℚ) : Prop := ∃ p, Denotes x p ∧ |p - q| ≤ e

theorem Denotes.around (h : Denotes x q) : Around 0 x q := ⟨q, h, by rw [sub_self, abs_zero]⟩

theorem Around.mono (h : Around d x q) (hle : d ≤ e) : Around e x q := by
  obtain ⟨p, hx, hp⟩ := h
  exact ⟨p, hx, hp.trans hle⟩

theorem Around.shift (h : Around d x p) (hpq : |p - q| ≤ e) : Around (d + e) x q := by
  obtain ⟨r, hx, hr⟩ := h
  exact ⟨r, hx, (abs_sub_le r p q).trans (add_le_add hr hpq)⟩

theorem around_of_rounded (hx : |rounded p| < 2 ^ 128 → Denotes x (rounded p)) (h : |p| < 8) (hpq : |p - q| ≤ e) :
    Around (e + slip) x q := by
  rw [add_comm]
  exact Around.shift ⟨_, hx (abs_rounded_lt_range h), abs_rounded_sub_le_slip h⟩ hpq

theorem Around.add (hx : Around d x p) (hy : Around e y q) (h : |p + q| + (d + e) < 8) :
    Around (d + e + slip) (x + y) (p + q) := by
  obtain ⟨p', hx, hp⟩ := hx
  obtain ⟨q', hy, hq⟩ := hy
  have hoff : |p' + q' - (p + q)| ≤ d + e := by
    rw [add_sub_add_comm]
    exact (abs_add_le _ _).trans (add_le_add hp hq)
  refine around_of_rounded (hx.add hy) ?_ hoff
  have htriangle := abs_sub_abs_le_abs_sub (p' + q') (p + q)
  linarith

theorem Around.sub (hx : Around d x p) (hy : Around e y q) (h : |p - q| + (d + e) < 8) :
    Around (d + e + slip) (x - y) (p - q) := by
  obtain ⟨p', hx, hp⟩ := hx
  obtain ⟨q', hy, hq⟩ := hy
  have hoff : |p' - q' - (p - q)| ≤ d + e := by
    rw [sub_sub_sub_comm]
    exact (abs_sub _ _).trans (add_le_add hp hq)
  refine around_of_rounded (hx.sub hy) ?_ hoff
  have htriangle := abs_sub_abs_le_abs_sub (p' - q') (p - q)
  linarith

theorem abs_mul_le_mul (hp : |p| ≤ P) (hq : |q| ≤ Q) : |p * q| ≤ P * Q := by
  rw [abs_mul]
  exact mul_le_mul hp hq (abs_nonneg q) ((abs_nonneg p).trans hp)

theorem Around.mul (hx : Around d x p) (hy : Around e y q) (hp : |p| ≤ P) (hq : |q| ≤ Q) (h : (P + d) * (Q + e) < 8) :
    Around (d * (Q + e) + P * e + slip) (x * y) (p * q) := by
  obtain ⟨p', hx, hp'⟩ := hx
  obtain ⟨q', hy, hq'⟩ := hy
  have hp'abs : |p'| ≤ P + d := by linarith [abs_sub_abs_le_abs_sub p' p]
  have hq'abs : |q'| ≤ Q + e := by linarith [abs_sub_abs_le_abs_sub q' q]
  have hoff : |p' * q' - p * q| ≤ d * (Q + e) + P * e := by
    have hsplit : p' * q' - p * q = (p' - p) * q' + p * (q' - q) := by ring
    rw [hsplit]
    exact (abs_add_le _ _).trans (add_le_add (abs_mul_le_mul hp' hq'abs) (abs_mul_le_mul hp hq'))
  exact around_of_rounded (hx.mul hy) ((abs_mul_le_mul hp'abs hq'abs).trans_lt h) hoff

theorem around_div (ha : Denotes a p) (hb : Denotes b q) (hq : q ≠ 0) (h : |p / q| < 8) :
    Around slip (a / b) (p / q) := by
  rw [← zero_add slip]
  exact around_of_rounded (ha.div hb hq) h (by rw [sub_self, abs_zero])

/-- Cutting to the unit interval leads no farther from a number in it. -/
theorem Around.clampUnit (h : Around e x q) (hq : 0 ≤ q ∧ q ≤ 1) : Around e (clampUnit x) q := by
  obtain ⟨p, hx, hp⟩ := h
  refine ⟨_, hx.clampUnit, le_trans ?_ hp⟩
  have hcut := (abs_min_sub_min_le_max 1 p 1 q).trans (max_le (by simp) le_rfl)
  have hfloor := (abs_max_sub_max_le_max 0 (min 1 p) 0 (min 1 q)).trans (max_le (by simp) hcut)
  rwa [clampUnit_of_mem hq] at hfloor

end ColorWords.Single
