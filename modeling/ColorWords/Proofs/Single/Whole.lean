import ColorWords.Proofs.Single.Order

/-! # Whole numbers as singles

Whole numbers of at most 24 binary digits are singles, and cutting a single toward zero
is cutting the rational that it stands for.
-/
namespace ColorWords.Single
open Float.Model (UnpackedFloat)
open Float.Model.UnpackedFloat

variable {x : Float32} {q : ℚ}

theorem abs_intCast_lt {n : ℤ} (h : |n| ≤ 2 ^ 24) : |(n : ℚ)| < 2 ^ 128 := by
  have hle : |(n : ℚ)| ≤ 2 ^ 24 := by exact_mod_cast h
  exact hle.trans_lt (by norm_num)

theorem denotes_ofInt {n : ℤ} (h : |n| ≤ 2 ^ 24) : Denotes (ofInt n) n := by
  have hspec := normalize_spec n 0 .positive
  rw [zpow_zero, mul_one, rounded_of_representable (representable_intCast h)] at hspec
  have hpack := denotes_pack hspec.1 (hspec.2 ▸ abs_intCast_lt h)
  rwa [hspec.2] at hpack

theorem toFloat32_eq_ofInt (w : UInt32) : w.toFloat32 = ofInt w.toNat := rfl

theorem denotes_toFloat32 {w : UInt32} (h : w.toNat ≤ 2 ^ 24) : Denotes w.toFloat32 w.toNat := by
  rw [toFloat32_eq_ofInt]
  exact_mod_cast denotes_ofInt (n := w.toNat) (by rw [abs_of_nonneg (by omega)]; exact_mod_cast h)

theorem denotes_zero : Denotes 0 0 := denotes_ofInt (n := 0) (by norm_num)

theorem denotes_one : Denotes 1 1 := by
  exact_mod_cast denotes_ofInt (n := 1) (by norm_num)

/-- A single between two finite ones is finite. -/
theorem denotes_of_bounds {a b : Float32} {p r : ℚ} (ha : Denotes a p) (hb : Denotes b r) (hlow : a ≤ x)
    (hhigh : x ≤ b) : ∃ q, Denotes x q ∧ p ≤ q ∧ q ≤ r := by
  have hfinite : x.isFinite = true := by
    have hlow' := le_iff_compare.mp hlow
    have hhigh' := le_iff_compare.mp hhigh
    change x.toModel.unpack.isFinite = true
    cases hx : x.toModel.unpack with
    | zero s => rfl
    | finite s m e hm => rfl
    | notANumber =>
      rw [hx] at hhigh'
      exact absurd hhigh' Bool.false_ne_true
    | infinity s =>
      rw [hx] at hlow' hhigh'
      cases s with
      | negative =>
        obtain ⟨s, ha, -⟩ | ⟨s, m, e, hm, ha, -⟩ := ha.unpack_cases <;> rw [ha] at hlow'
        · exact absurd hlow' Bool.false_ne_true
        · cases s <;> exact absurd hlow' Bool.false_ne_true
      | positive =>
        obtain ⟨s, hb, -⟩ | ⟨s, m, e, hm, hb, -⟩ := hb.unpack_cases <;> rw [hb] at hhigh'
        · exact absurd hhigh' Bool.false_ne_true
        · cases s <;> exact absurd hhigh' Bool.false_ne_true
  have hx := denotes_value hfinite
  exact ⟨value x, hx, (ha.le_iff hx).mp hlow, (hx.le_iff hb).mp hhigh⟩

theorem denotes_of_unit (h : 0 ≤ x ∧ x ≤ 1) : ∃ q, Denotes x q ∧ 0 ≤ q ∧ q ≤ 1 :=
  denotes_of_bounds denotes_zero denotes_one h.1 h.2

section Exact
variable {a b : Float32} {m n : ℤ}

theorem Denotes.add_int (ha : Denotes a m) (hb : Denotes b n) (h : |m + n| ≤ 2 ^ 24) :
    Denotes (a + b) ((m + n : ℤ) : ℚ) := by
  have hr := representable_intCast h
  have hlt := abs_intCast_lt h
  rw [Int.cast_add] at hr hlt ⊢
  exact ha.add_exact hb hr hlt

theorem Denotes.sub_int (ha : Denotes a m) (hb : Denotes b n) (h : |m - n| ≤ 2 ^ 24) :
    Denotes (a - b) ((m - n : ℤ) : ℚ) := by
  have hr := representable_intCast h
  have hlt := abs_intCast_lt h
  rw [Int.cast_sub] at hr hlt ⊢
  exact ha.sub_exact hb hr hlt

theorem Denotes.mul_int (ha : Denotes a m) (hb : Denotes b n) (h : |m * n| ≤ 2 ^ 24) :
    Denotes (a * b) ((m * n : ℤ) : ℚ) := by
  have hr := representable_intCast h
  have hlt := abs_intCast_lt h
  rw [Int.cast_mul] at hr hlt ⊢
  exact ha.mul_exact hb hr hlt

end Exact

/-- The running total of equal weights stays exact. -/
theorem ofInt_add_one {n : ℤ} (h0 : 0 ≤ n) (h : n < 2 ^ 24) : ofInt n + 1 = ofInt (n + 1) := by
  have hn := denotes_ofInt (n := n) (by rw [abs_of_nonneg h0]; exact h.le)
  have habs : |n + 1| ≤ 2 ^ 24 := by rw [abs_of_nonneg (by omega)]; omega
  have hone : Denotes 1 (1 : ℤ) := by exact_mod_cast denotes_one
  exact (hn.add_int hone habs).unique (denotes_ofInt habs) (by exact_mod_cast (by omega : n + 1 ≠ 0))

theorem representable_two_pow_24 : Representable (2 ^ 24) := ⟨2 ^ 23, 1, by norm_num, by norm_num, by norm_num⟩

/-- Above the whole numbers that are singles, one is too little to change a sum. -/
theorem rounded_two_pow_24_add_one : rounded (2 ^ 24 + 1) = 2 ^ 24 := by
  have hlarge : Denotes (ofInt (2 ^ 24)) (2 ^ 24) := by
    have h := denotes_ofInt (n := 2 ^ 24) (by norm_num)
    push_cast at h
    exact h
  have hbound : |rounded (2 ^ 24 + 1)| ≤ 2 ^ 25 :=
    abs_rounded_le ⟨2 ^ 23, 2, by norm_num, by norm_num, by norm_num⟩ (by norm_num)
  have hsum := hlarge.add denotes_one (hbound.trans_lt (by norm_num))
  have hstays : ofInt (2 ^ 24) + 1 = ofInt (2 ^ 24) := by decide
  rw [hstays] at hsum
  exact hsum.eq.symm.trans hlarge.eq

/-- So sums with at most one more stay in bounds. -/
theorem abs_rounded_add_le {p q : ℚ} (hp : |p| ≤ 2 ^ 24) (hq : |q| ≤ 1) : |rounded (p + q)| ≤ 2 ^ 24 := by
  obtain ⟨hplow, hphigh⟩ := abs_le.mp hp
  obtain ⟨hqlow, hqhigh⟩ := abs_le.mp hq
  have hhigh := rounded_mono (add_le_add hphigh hqhigh)
  have hlow := rounded_mono (add_le_add hplow hqlow)
  rw [← neg_add, rounded_neg] at hlow
  rw [rounded_two_pow_24_add_one] at hlow hhigh
  exact abs_le.mpr ⟨hlow, hhigh⟩

def towardZero (q : ℚ) : ℤ := if 0 ≤ q then ⌊q⌋ else ⌈q⌉

theorem towardZero_mono {p : ℚ} (h : p ≤ q) : towardZero p ≤ towardZero q := by
  simp only [towardZero]
  split_ifs with hp hq hq
  · exact Int.floor_mono h
  · exact absurd (hp.trans h) hq
  · exact (Int.ceil_le.mpr (by exact_mod_cast (not_le.mp hp).le)).trans (Int.floor_nonneg.mpr hq)
  · exact Int.ceil_mono h

theorem towardZero_of_abs_lt_one (h : |q| < 1) : towardZero q = 0 := by
  obtain ⟨hlow, hhigh⟩ := abs_lt.mp h
  rw [towardZero]
  split_ifs with h0
  · exact Int.floor_eq_zero_iff.mpr ⟨h0, hhigh⟩
  · exact Int.ceil_eq_zero_iff.mpr ⟨hlow, (not_le.mp h0).le⟩

theorem towardZero_neg_of_pos {q : ℚ} (h : 0 < q) : towardZero (-q) = -⌊q⌋ := by
  rw [towardZero, if_neg (by linarith), Int.ceil_neg]

theorem wholePart_eq (m : ℕ) (e : ℤ) : (wholePart m e : ℤ) = ⌊(m * 2 ^ e : ℚ)⌋ := by
  cases e with
  | ofNat k =>
    have hcast : (m * 2 ^ (Int.ofNat k) : ℚ) = ((m * 2 ^ k : ℤ) : ℚ) := by
      push_cast
      rfl
    rw [hcast, Int.floor_intCast, wholePart, Nat.shiftLeft_eq]
    push_cast
    rfl
  | negSucc k =>
    have hdiv : (m * 2 ^ (Int.negSucc k) : ℚ) = m / (2 ^ (k + 1) : ℕ) := by
      rw [zpow_negSucc, div_eq_mul_inv]
      push_cast
      rfl
    rw [hdiv, wholePart, Nat.shiftRight_eq_div_pow]
    exact_mod_cast (Rat.floor_natCast_div_natCast m (2 ^ (k + 1))).symm

theorem Denotes.truncate (h : Denotes x q) :
    truncate x = bounded (-0x80000000) 0x7FFFFFFF (towardZero q) := by
  obtain ⟨s, hx, rfl⟩ | ⟨s, m, e, hm, hx, -, -, rfl⟩ := h.unpack_cases
  · rw [Single.truncate, toWhole, hx]
    rfl
  · have hpos : (0 : ℚ) < m * 2 ^ e := mul_pos (by exact_mod_cast hm) (two_zpow_pos e)
    rw [Single.truncate, toWhole, hx]
    cases s with
    | negative =>
      simp only [Sign.apply, number, signFactor]
      rw [neg_one_mul, towardZero_neg_of_pos hpos, wholePart_eq]
    | positive =>
      simp only [Sign.apply, number, signFactor]
      rw [one_mul, towardZero, if_pos hpos.le, wholePart_eq]

theorem Denotes.truncate_mono {y : Float32} {p : ℚ} (hx : Denotes x p) (hy : Denotes y q) (h : p ≤ q) :
    Single.truncate x ≤ Single.truncate y := by
  have hle := towardZero_mono h
  rw [hx.truncate, hy.truncate, bounded, bounded]
  omega

end ColorWords.Single
