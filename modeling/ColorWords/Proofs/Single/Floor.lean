import ColorWords.Proofs.Single.Whole

/-! # Floors and nearest whole numbers

Shifting a mantissa down is the floor of the number, with a half added first for the nearest
whole number. What is less than a half from a whole number in range leads to it.
-/
namespace ColorWords.Single
open Float.Model (UnpackedFloat)
open Float.Model.UnpackedFloat

variable {x : Float32} {q : ℚ}

theorem nearestPart_eq (m : ℕ) (e : ℤ) : (nearestPart m e : ℤ) = ⌊(m * 2 ^ e + 1 / 2 : ℚ)⌋ := by
  cases e with
  | ofNat k =>
    have hcast : (m * 2 ^ (Int.ofNat k) : ℚ) = ((m * 2 ^ k : ℤ) : ℚ) := by
      push_cast
      rfl
    rw [hcast, Int.floor_intCast_add, nearestPart, Nat.shiftLeft_eq]
    norm_num
  | negSucc k =>
    have hdiv : (m * 2 ^ (Int.negSucc k) + 1 / 2 : ℚ) = (m + 2 ^ k : ℕ) / (2 ^ (k + 1) : ℕ) := by
      rw [zpow_negSucc]
      push_cast
      rw [pow_succ]
      field_simp
    rw [hdiv, nearestPart, Nat.shiftRight_eq_div_pow, Nat.shiftLeft_eq, one_mul]
    exact_mod_cast (Rat.floor_natCast_div_natCast (m + 2 ^ k) (2 ^ (k + 1))).symm

/-- The nearest whole number in range. -/
theorem Denotes.nearest {k hi : ℕ} (h : Denotes x q) (hk : |q - k| < 1 / 2) (hhi : k ≤ hi) : nearest hi x = k := by
  obtain ⟨hhigh, hlow⟩ := abs_sub_lt_iff.mp hk
  obtain ⟨s, hx, rfl⟩ | ⟨s, m, e, hm, hx, -, -, rfl⟩ := h.unpack_cases
  · have hzero : (k : ℚ) < 1 := by linarith
    obtain rfl : k = 0 := by exact_mod_cast Nat.lt_one_iff.mp (by exact_mod_cast hzero)
    rw [Single.nearest, toWhole, hx]
    rfl
  · have hpos : (0 : ℚ) < m * 2 ^ e := mul_pos (by exact_mod_cast hm) (two_zpow_pos e)
    rw [Single.nearest, toWhole, hx]
    cases s with
    | negative =>
      simp only [number, signFactor, neg_one_mul] at hlow hhigh
      have hzero : (k : ℚ) < 1 := by linarith
      obtain rfl : k = 0 := Nat.lt_one_iff.mp (by exact_mod_cast hzero)
      have hpart : (nearestPart m e : ℤ) = 0 := by
        rw [nearestPart_eq, Int.floor_eq_zero_iff]
        exact ⟨by positivity, by linarith⟩
      simp only [Sign.apply, hpart, bounded]
      omega
    | positive =>
      simp only [number, signFactor, one_mul] at hlow hhigh
      have hpart : (nearestPart m e : ℤ) = k := by
        rw [nearestPart_eq, Int.floor_eq_iff]
        push_cast
        exact ⟨by linarith, by linarith⟩
      simp only [Sign.apply, hpart, bounded]
      omega

theorem Denotes.floor_of_lt_one (h : Denotes x q) (h0 : 0 ≤ q) (h1 : q < 1) : Denotes (floor x) 0 := by
  obtain ⟨s, hx, rfl⟩ | ⟨s, m, e, hm, hx, -, -, rfl⟩ := h.unpack_cases
  · rw [floor, hx]
    exact h
  · have hpos : (0 : ℚ) < m * 2 ^ e := mul_pos (by exact_mod_cast hm) (two_zpow_pos e)
    cases s with
    | negative =>
      rw [number, signFactor] at h0
      linarith
    | positive =>
      rw [number, signFactor, one_mul] at h1
      cases e with
      | ofNat k =>
        rw [Int.ofNat_eq_natCast, zpow_natCast] at h1
        have hwhole : m * 2 ^ k < 1 := by exact_mod_cast h1
        exact absurd hwhole (not_lt.mpr (Nat.one_le_iff_ne_zero.mpr (by positivity)))
      | negSucc k =>
        have hpart : (m : ℤ) >>> (k + 1) = 0 := by
          have hwhole : (wholePart m (.negSucc k) : ℤ) = 0 := by
            rw [wholePart_eq, Int.floor_eq_zero_iff]
            exact ⟨hpos.le, h1⟩
          exact hwhole
        rw [floor, hx]
        simp only [Sign.apply, hpart]
        exact denotes_zero

end ColorWords.Single
