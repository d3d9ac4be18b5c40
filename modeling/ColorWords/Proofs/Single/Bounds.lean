import ColorWords.Proofs.Single.Whole

/-! # Bounds of results

Sums, differences and products of singles below a power of two stay below another one, so that
they are finite. A difference is not lost in rounding, and a part stays a part of its whole.
-/
namespace ColorWords.Single

variable {a b x y : Float32} {m n : ℕ} {p q r : ℚ}

/-! ## Small numbers -/

theorem lt_range (h0 : 0 ≤ q) (h : q ≤ 8) : |q| < 2 ^ 128 := by
  rw [abs_of_nonneg h0]
  linarith

theorem denotes_two : Denotes 2 2 := by exact_mod_cast denotes_ofInt (n := 2) (by norm_num)

theorem denotes_three : Denotes 3 3 := by exact_mod_cast denotes_ofInt (n := 3) (by norm_num)

theorem denotes_four : Denotes 4 4 := by exact_mod_cast denotes_ofInt (n := 4) (by norm_num)

theorem denotes_six : Denotes 6 6 := by exact_mod_cast denotes_ofInt (n := 6) (by norm_num)

theorem denotes_half : Denotes 0.5 (1 / 2) := by
  have hunpack : (0.5 : Float32).toModel.unpack = .finite .positive 8388608 (-24) (by norm_num) := by rfl
  have h := denotes_of_unpack hunpack
  norm_num [signFactor] at h ⊢
  exact h

/-! ## Powers of two -/

def Within (n : ℕ) (x : Float32) : Prop := ∃ q, Denotes x q ∧ |q| ≤ 2 ^ n

theorem abs_rounded_le_two_pow (h : |p| ≤ 2 ^ n) : |rounded p| ≤ 2 ^ n :=
  abs_rounded_le ⟨1, n, by norm_num, by omega, by simp⟩ h

theorem two_pow_lt_range (h : n < 128) : (2 : ℚ) ^ n < 2 ^ 128 := pow_lt_pow_right₀ (by norm_num) h

theorem abs_add_le_two_pow (hp : |p| ≤ 2 ^ m) (hq : |q| ≤ 2 ^ n) : |p| + |q| ≤ 2 ^ (max m n + 1) := by
  have hm : (2 : ℚ) ^ m ≤ 2 ^ max m n := pow_le_pow_right₀ (by norm_num) (le_max_left m n)
  have hn : (2 : ℚ) ^ n ≤ 2 ^ max m n := pow_le_pow_right₀ (by norm_num) (le_max_right m n)
  rw [pow_succ]
  linarith

theorem Within.add (hx : Within m x) (hy : Within n y) (h : max m n + 1 < 128) : Within (max m n + 1) (x + y) := by
  obtain ⟨p, hx, hp⟩ := hx
  obtain ⟨q, hy, hq⟩ := hy
  have hsum := abs_rounded_le_two_pow ((abs_add_le p q).trans (abs_add_le_two_pow hp hq))
  exact ⟨_, hx.add hy (hsum.trans_lt (two_pow_lt_range h)), hsum⟩

theorem Within.sub (hx : Within m x) (hy : Within n y) (h : max m n + 1 < 128) : Within (max m n + 1) (x - y) := by
  obtain ⟨p, hx, hp⟩ := hx
  obtain ⟨q, hy, hq⟩ := hy
  have hsum := abs_rounded_le_two_pow ((abs_sub p q).trans (abs_add_le_two_pow hp hq))
  exact ⟨_, hx.sub hy (hsum.trans_lt (two_pow_lt_range h)), hsum⟩

theorem Within.mul (hx : Within m x) (hy : Within n y) (h : m + n < 128) : Within (m + n) (x * y) := by
  obtain ⟨p, hx, hp⟩ := hx
  obtain ⟨q, hy, hq⟩ := hy
  have hproduct : |p * q| ≤ 2 ^ (m + n) := by
    rw [abs_mul, pow_add]
    exact mul_le_mul hp hq (abs_nonneg q) (by positivity)
  have hrounded := abs_rounded_le_two_pow hproduct
  exact ⟨_, hx.mul hy (hrounded.trans_lt (two_pow_lt_range h)), hrounded⟩

theorem within_of_bounds (h : -8 ≤ x ∧ x ≤ 8) : Within 3 x := by
  have height : Denotes 8 8 := by exact_mod_cast denotes_ofInt (n := 8) (by norm_num)
  obtain ⟨q, hx, hq⟩ := denotes_of_bounds height.neg height h.1 h.2
  exact ⟨q, hx, abs_le.mpr (by norm_num; exact hq)⟩

/-! ## The unit interval -/

theorem unit_of_denotes (hx : Denotes x q) (h : 0 ≤ q ∧ q ≤ 1) : 0 ≤ x ∧ x ≤ 1 :=
  ⟨(denotes_zero.le_iff hx).mpr h.1, (hx.le_iff denotes_one).mpr h.2⟩

theorem Denotes.clampUnit (h : Denotes x q) : Denotes (clampUnit x) (max 0 (min 1 q)) := by
  rw [Single.clampUnit, clamp]
  by_cases hlow : x < 0
  · have hq := (h.lt_iff denotes_zero).mp hlow
    rw [if_pos hlow, max_eq_left ((min_le_right 1 q).trans hq.le)]
    exact denotes_zero
  · have hq := not_lt.mp (mt (h.lt_iff denotes_zero).mpr hlow)
    rw [if_neg hlow]
    by_cases hhigh : 1 < x
    · rw [if_pos hhigh, min_eq_left ((denotes_one.lt_iff h).mp hhigh).le, max_eq_right zero_le_one]
      exact denotes_one
    · rw [if_neg hhigh, min_eq_right (not_lt.mp (mt (denotes_one.lt_iff h).mpr hhigh)), max_eq_right hq]
      exact h

theorem clampUnit_mem (q : ℚ) : 0 ≤ max 0 (min 1 q) ∧ max 0 (min 1 q) ≤ 1 :=
  ⟨le_max_left _ _, max_le zero_le_one (min_le_left _ _)⟩

theorem clampUnit_of_mem (h : 0 ≤ q ∧ q ≤ 1) : max 0 (min 1 q) = q := by rw [min_eq_right h.2, max_eq_right h.1]

/-! ## Parts -/

/-- Numbers of singles lie on a grid, on which a difference is nothing or at least a step. -/
theorem rounded_sub_pos (hp : Representable p) (hq : Representable q) (h : q < p) : 0 < rounded (p - q) := by
  have hstep {r : ℚ} (hr : Representable r) : ∃ k : ℤ, r = k * 2 ^ (-149 : ℤ) := by
    obtain ⟨m, e, -, he, rfl⟩ := hr
    refine ⟨m * 2 ^ (e + 149).toNat, ?_⟩
    have hexponent : e = -149 + (e + 149).toNat := by omega
    conv_lhs => rw [hexponent, two_zpow_add]
    push_cast
    ring
  obtain ⟨j, rfl⟩ := hstep hp
  obtain ⟨k, rfl⟩ := hstep hq
  have hpos := two_zpow_pos (-149)
  have hjk : k + 1 ≤ j := by
    by_contra hle
    have hcast : (j : ℚ) ≤ k := by exact_mod_cast (by omega : j ≤ k)
    exact absurd h (not_lt.mpr (mul_le_mul_of_nonneg_right hcast hpos.le))
  have hcast : (k : ℚ) + 1 ≤ j := by exact_mod_cast hjk
  refine hpos.trans_le (le_rounded ⟨1, -149, by norm_num, le_rfl, by simp⟩ ?_)
  rw [← sub_mul]
  exact le_mul_of_one_le_left hpos.le (by linarith)

theorem abs_rounded_div_le_one (hq : 0 < q) (h : |p| ≤ q) : |rounded (p / q)| ≤ 1 := by
  refine abs_rounded_le denotes_one.representable ?_
  rwa [abs_div, abs_of_pos hq, div_le_one hq]

end ColorWords.Single
