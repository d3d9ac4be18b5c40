import ColorWords.Proofs.Single.Amount

/-! # Powers of two as factors

A normal single has all 24 digits of its grid, so a power of two as factor moves the grid along and
leaves the digits alone, as long as the product is normal as well. Sums scale with their parts, and
quotients of two singles with one common factor are the same.
-/
namespace ColorWords.Single

variable {a a' b b' x y : Float32} {p q : ℚ} {j : ℤ}

/-! ## Rounding -/

theorem gridExponent_of_normal (h : 2 ^ (-126 : ℤ) ≤ |q|) : gridExponent q = Int.log 2 |q| - 23 := by
  have hlog : -126 ≤ Int.log 2 |q| :=
    (Int.zpow_le_iff_le_log (by norm_num) ((two_zpow_pos _).trans_le h)).mp (by exact_mod_cast h)
  simp only [gridExponent]
  omega

theorem gridExponent_mul_two_zpow (h : 2 ^ (-126 : ℤ) ≤ |q|) (hj : 2 ^ (-126 : ℤ) ≤ |q * 2 ^ j|) :
    gridExponent (q * 2 ^ j) = gridExponent q + j := by
  have hpos : 0 < |q| := (two_zpow_pos _).trans_le h
  rw [gridExponent_of_normal h, gridExponent_of_normal hj, abs_mul, abs_of_pos (two_zpow_pos j),
    log_mul_two_zpow hpos]
  omega

/-- The digits of a rounding do not depend on where its grid is. -/
theorem rounded_mul_two_zpow (h : 2 ^ (-126 : ℤ) ≤ |q|) (hj : 2 ^ (-126 : ℤ) ≤ |q * 2 ^ j|) :
    rounded (q * 2 ^ j) = rounded q * 2 ^ j := by
  have hgrid : (2 : ℚ) ^ gridExponent (q * 2 ^ j) = 2 ^ gridExponent q * 2 ^ j := by
    rw [gridExponent_mul_two_zpow h hj, zpow_add₀ (by norm_num)]
  simp only [rounded, hgrid, mul_div_mul_right q _ (two_zpow_pos j).ne', mul_assoc]

/-! ## Scaled singles -/

structure Normal (x : Float32) : Prop where
  finite : x.isFinite = true
  two_zpow_le : 2 ^ (-126 : ℤ) ≤ |value x|

/-- Two normal singles, the second of which is `2 ^ j` times the first. -/
structure Scaled (j : ℤ) (x y : Float32) : Prop where
  source : Normal x
  target : Normal y
  value_eq : value y = value x * 2 ^ j

instance (x : Float32) : Decidable (Normal x) :=
  decidable_of_iff (x.isFinite = true ∧ 2 ^ (-126 : ℤ) ≤ |value x|) ⟨fun h => ⟨h.1, h.2⟩, fun h => ⟨h.1, h.2⟩⟩

instance (j : ℤ) (x y : Float32) : Decidable (Scaled j x y) :=
  decidable_of_iff (Normal x ∧ Normal y ∧ value y = value x * 2 ^ j)
    ⟨fun h => ⟨h.1, h.2.1, h.2.2⟩, fun h => ⟨h.1, h.2, h.3⟩⟩

theorem Scaled.denotes (h : Scaled j x y) : Denotes x (value x) ∧ Denotes y (value x * 2 ^ j) :=
  ⟨denotes_value h.source.finite, h.target.finite, h.value_eq⟩

theorem Scaled.value_pos (h : Scaled j x y) (hpos : 0 < x) : 0 < value x ∧ 0 < value y := by
  have hx : 0 < value x := (denotes_zero.lt_iff h.denotes.1).mp hpos
  refine ⟨hx, ?_⟩
  rw [h.value_eq]
  exact mul_pos hx (two_zpow_pos j)

theorem Denotes.add_of_finite (ha : Denotes a p) (hb : Denotes b q) (hp : 0 ≤ p) (hq : 0 ≤ q)
    (h : (a + b).isFinite = true) : Denotes (a + b) (rounded (p + q)) := by
  refine (ha.add_amount hb hp hq).resolve_right fun hinfinite => ?_
  rw [hinfinite] at h
  exact absurd h (by decide)

/-- A sum is at least as large as one of its parts, so it is normal before it is rounded, with the
factor and without it. -/
theorem Scaled.two_zpow_le_add (h : Scaled j a a') (hp : 0 ≤ value a) (hq : 0 ≤ q) :
    2 ^ (-126 : ℤ) ≤ |value a + q| ∧ 2 ^ (-126 : ℤ) ≤ |(value a + q) * 2 ^ j| := by
  have hle : |value a| ≤ |value a + q| := abs_le_abs_of_nonneg hp (by linarith)
  have hscaled : |value a'| ≤ |(value a + q) * 2 ^ j| := by
    rw [h.value_eq, abs_mul, abs_mul]
    exact mul_le_mul_of_nonneg_right hle (abs_nonneg _)
  exact ⟨h.source.two_zpow_le.trans hle, h.target.two_zpow_le.trans hscaled⟩

/-- A sum scales with its parts, provided that it is normal and can be scaled at all. -/
theorem Scaled.add (ha : Scaled j a a') (hb : Scaled j b b') (hpos : 0 < a ∧ 0 < b)
    (hsum : ∃ u, Scaled j (a + b) u) : Scaled j (a + b) (a' + b') := by
  obtain ⟨u, hu⟩ := hsum
  have hp := (ha.value_pos hpos.1).1.le
  have hq := (hb.value_pos hpos.2).1.le
  have hrounded := ha.denotes.1.add_of_finite hb.denotes.1 hp hq hu.source.finite
  obtain ⟨hnormal, hnormal'⟩ := ha.two_zpow_le_add hp hq
  have hscaled : rounded (value a * 2 ^ j + value b * 2 ^ j) = value u := by
    rw [← add_mul, rounded_mul_two_zpow hnormal hnormal', ← hrounded.eq, hu.value_eq]
  have hsum' := ha.denotes.2.add hb.denotes.2
  rw [hscaled] at hsum'
  have hdenotes := hsum' (denotes_value hu.target.finite).abs_lt
  refine ⟨hu.source, ⟨hdenotes.finite, ?_⟩, hdenotes.eq.trans hu.value_eq⟩
  rw [hdenotes.eq]
  exact hu.target.two_zpow_le

/-- A common factor leaves a quotient alone. -/
theorem Scaled.div (ha : Scaled j a a') (hb : Scaled j b b') (h : |rounded (value a / value b)| < 2 ^ 128) :
    Denotes (a / b) (rounded (value a / value b)) ∧ Denotes (a' / b') (rounded (value a / value b)) := by
  have hne : value b ≠ 0 := abs_pos.mp ((two_zpow_pos _).trans_le hb.source.two_zpow_le)
  have hquot : value a * 2 ^ j / (value b * 2 ^ j) = value a / value b :=
    mul_div_mul_right _ _ (two_zpow_pos j).ne'
  refine ⟨ha.denotes.1.div hb.denotes.1 hne h, ?_⟩
  rw [← hquot] at h ⊢
  exact ha.denotes.2.div hb.denotes.2 (mul_ne_zero hne (two_zpow_pos j).ne') h

/-- The share of a part in a total, with a common factor or without it. -/
theorem Scaled.share (hw : Scaled j a a') (ht : Scaled j b b') (h0 : 0 ≤ value a) (h : value a ≤ value b) :
    ∃ c, Denotes (a / b) c ∧ Denotes (a' / b') c ∧ 0 ≤ c ∧ c ≤ 1 := by
  have hlow : 0 ≤ rounded (value a / value b) := rounded_nonneg (div_nonneg h0 (h0.trans h))
  have hhigh : rounded (value a / value b) ≤ 1 :=
    rounded_le denotes_one.representable (div_le_one_of_le₀ h (h0.trans h))
  have hquot := hw.div ht (by rw [abs_of_nonneg hlow]; linarith)
  exact ⟨_, hquot.1, hquot.2, hlow, hhigh⟩

end ColorWords.Single
