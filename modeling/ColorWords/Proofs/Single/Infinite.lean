import ColorWords.Proofs.Single.Amount

/-! # How far a single reaches

Where a change counts for at most one whole, an infinity is as good as any number beyond it and
NaN is no change. `Reaches` gives every single a rational in this sense, so that comparisons and
products out of the range keep the order of numbers.
-/
namespace ColorWords.Single
open Float.Model (UnpackedFloat)
open Float.Model.UnpackedFloat

variable {a b x y : Float32} {p q : ℚ}

/-- `x` stands for `p`, or is the infinity on the side where `p` is at least one whole, or is NaN. -/
inductive Reaches (x : Float32) (p : ℚ) : Prop where
  | number (h : Denotes x p)
  | above (h : x = infinity) (hp : 1 ≤ p)
  | below (h : x = -infinity) (hp : p ≤ -1)
  | nothing (h : NotNumber x) (hp : p = 0)

theorem unpack_infinity : infinity.toModel.unpack = .infinity .positive := by rfl

theorem unpack_neg_infinity : (-infinity).toModel.unpack = .infinity .negative := by rfl

/-- The four kinds of singles. -/
theorem exists_denotes_or (x : Float32) : (∃ q, Denotes x q) ∨ x = infinity ∨ x = -infinity ∨ NotNumber x := by
  cases hx : x.toModel.unpack with
  | zero s => exact .inl ⟨0, denotes_of_unpack_zero hx⟩
  | finite s m e hm => exact .inl ⟨_, denotes_of_unpack hx⟩
  | infinity s =>
    cases s with
    | positive => exact .inr (.inl (eq_of_unpack_eq (hx.trans unpack_infinity.symm)))
    | negative => exact .inr (.inr (.inl (eq_of_unpack_eq (hx.trans unpack_neg_infinity.symm))))
  | notANumber => exact .inr (.inr (.inr hx))

/-! ## Comparisons -/

theorem NotNumber.compare_left (h : NotNumber x) (y : Float32) : x.toModel.unpack.compare y.toModel.unpack = none := by
  rw [h]
  rfl

theorem NotNumber.compare_right (h : NotNumber y) (x : Float32) : x.toModel.unpack.compare y.toModel.unpack = none := by
  rw [h]
  cases x.toModel.unpack <;> rfl

theorem NotNumber.not_le_left (h : NotNumber x) (y : Float32) : ¬ x ≤ y := by
  rw [le_iff_compare, h.compare_left]
  exact Bool.false_ne_true

theorem NotNumber.not_le_right (h : NotNumber y) (x : Float32) : ¬ x ≤ y := by
  rw [le_iff_compare, h.compare_right]
  exact Bool.false_ne_true

theorem NotNumber.not_lt_left (h : NotNumber x) (y : Float32) : ¬ x < y := by
  rw [lt_iff_compare, h.compare_left]
  exact nofun

theorem NotNumber.not_lt_right (h : NotNumber y) (x : Float32) : ¬ x < y := by
  rw [lt_iff_compare, h.compare_right]
  exact nofun

theorem Denotes.not_infinity_le (h : Denotes x q) : ¬ infinity ≤ x := by
  rw [le_iff_compare, unpack_infinity]
  obtain ⟨s, hx, -⟩ | ⟨s, m, e, hm, hx, -⟩ := h.unpack_cases <;> rw [hx] <;> exact Bool.false_ne_true

theorem Denotes.not_le_neg_infinity (h : Denotes x q) : ¬ x ≤ -infinity := by
  rw [le_iff_compare, unpack_neg_infinity]
  obtain ⟨s, hx, -⟩ | ⟨s, m, e, hm, hx, -⟩ := h.unpack_cases <;> rw [hx]
  · exact Bool.false_ne_true
  · cases s <;> exact Bool.false_ne_true

/-- Singles in order reach rationals in order. -/
theorem exists_reaches_of_le (h : x ≤ y) : ∃ p q, p ≤ q ∧ Reaches x p ∧ Reaches y q := by
  obtain ⟨p, hx⟩ | rfl | rfl | hx := exists_denotes_or x
  · obtain ⟨q, hy⟩ | rfl | rfl | hy := exists_denotes_or y
    · exact ⟨p, q, (hx.le_iff hy).mp h, .number hx, .number hy⟩
    · exact ⟨p, max p 1, le_max_left p 1, .number hx, .above rfl (le_max_right p 1)⟩
    · exact absurd h hx.not_le_neg_infinity
    · exact absurd h (hy.not_le_right x)
  · obtain ⟨q, hy⟩ | rfl | rfl | hy := exists_denotes_or y
    · exact absurd h hy.not_infinity_le
    · exact ⟨1, 1, le_rfl, .above rfl le_rfl, .above rfl le_rfl⟩
    · exact absurd h (by decide)
    · exact absurd h (hy.not_le_right _)
  · obtain ⟨q, hy⟩ | rfl | rfl | hy := exists_denotes_or y
    · exact ⟨min (-1) q, q, min_le_right _ q, .below rfl (min_le_left _ q), .number hy⟩
    · exact ⟨-1, 1, by norm_num, .below rfl le_rfl, .above rfl le_rfl⟩
    · exact ⟨-1, -1, le_rfl, .below rfl le_rfl, .below rfl le_rfl⟩
    · exact absurd h (hy.not_le_right _)
  · exact absurd h (hx.not_le_left y)

theorem Reaches.eq_of_denotes (h : Reaches x p) (hx : Denotes x q) : p = q := by
  have hfinite : x.toModel.unpack.isFinite = true := hx.finite
  cases h with
  | number h => exact h.eq.symm.trans hx.eq
  | above h hp =>
    rw [h, unpack_infinity] at hfinite
    exact absurd hfinite Bool.false_ne_true
  | below h hp =>
    rw [h, unpack_neg_infinity] at hfinite
    exact absurd hfinite Bool.false_ne_true
  | nothing h hp =>
    rw [h] at hfinite
    exact absurd hfinite Bool.false_ne_true

theorem amount_of_nonneg (h : 0 ≤ x) : Amount x := by
  obtain ⟨q, hx⟩ | hx | rfl | hx := exists_denotes_or x
  · exact hx.amount ((denotes_zero.le_iff hx).mp h)
  · exact .inr hx
  · exact absurd h (by decide)
  · exact absurd h (hx.not_le_right 0)

theorem le_trans_one (hxy : x ≤ y) (h1 : y ≤ 1) : x ≤ 1 := by
  obtain ⟨p, hx⟩ | rfl | rfl | hx := exists_denotes_or x
  · obtain ⟨q, hy, hpq, hq⟩ := denotes_of_bounds hx denotes_one hxy h1
    exact (hx.le_iff denotes_one).mpr (hpq.trans hq)
  · obtain ⟨q, hy⟩ | rfl | rfl | hy := exists_denotes_or y
    · exact absurd hxy hy.not_infinity_le
    · exact h1
    · exact absurd hxy (by decide)
    · exact absurd hxy (hy.not_le_right _)
  · decide
  · exact absurd hxy (hx.not_le_left y)

/-- Two singles in order from zero to one. -/
theorem denotes_of_ordered (h0 : 0 ≤ x) (hxy : x ≤ y) (h1 : y ≤ 1) :
    ∃ p q, Denotes x p ∧ Denotes y q ∧ 0 ≤ p ∧ p ≤ q ∧ q ≤ 1 := by
  obtain ⟨p, hx, hp, -⟩ := denotes_of_unit ⟨h0, le_trans_one hxy h1⟩
  obtain ⟨q, hy, hpq, hq⟩ := denotes_of_bounds hx denotes_one hxy h1
  exact ⟨p, q, hx, hy, hp, hpq, hq⟩

/-! ## Products -/

/-- A product out of the range is the infinity on its side. -/
theorem Denotes.mul_reaches (ha : Denotes a p) (hb : Denotes b q) : Reaches (a * b) (rounded (p * q)) := by
  rcases lt_or_ge |rounded (p * q)| (2 ^ 128) with h | h
  · exact .number (ha.mul hb h)
  · have hspec := mul_spec ha.isRounded hb.isRounded
    change IsRounded _ ∧ _ = rounded (value a * value b) at hspec
    rw [ha.eq, hb.eq] at hspec
    have hlarge := h
    rw [← hspec.2] at h
    have hproduct := ofModel_pack_of_large hspec.1 h
    rw [hspec.2] at hproduct
    by_cases hpos : 0 < rounded (p * q)
    · rw [abs_of_pos hpos] at hlarge
      exact .above (hproduct.trans (if_pos hpos)) (by linarith)
    · rw [abs_of_nonpos (not_lt.mp hpos)] at hlarge
      exact .below (hproduct.trans (if_neg hpos)) (by linarith)

theorem infinity_mul_ofInt {n : ℤ} (hn : |n| ≤ 2 ^ 24) : Reaches (infinity * ofInt n) n := by
  have hproduct : infinity * ofInt n =
      .ofModel (.pack (UnpackedFloat.mul .binary32 (.infinity .positive) (ofInt n).toModel.unpack)) := rfl
  have hden := denotes_ofInt hn
  obtain ⟨s, hs, hzero⟩ | ⟨s, m, e, hm, hs, -, -, hq⟩ := hden.unpack_cases
  · rw [hs] at hproduct
    exact .nothing (notNumber_of_pack hproduct) hzero
  · rw [hs] at hproduct
    have hpos : (0 : ℚ) < m * 2 ^ e := mul_pos (by exact_mod_cast hm) (two_zpow_pos e)
    cases s with
    | positive =>
      rw [number, signFactor, one_mul] at hq
      rw [← hq] at hpos
      have hn1 : 1 ≤ n := Int.add_one_le_of_lt (by exact_mod_cast hpos)
      exact .above (hproduct.trans ofModel_pack_infinity) (by exact_mod_cast hn1)
    | negative =>
      rw [number, signFactor, neg_one_mul] at hq
      have hneg : (n : ℚ) < 0 := by linarith
      have hn1 : n ≤ -1 := Int.le_sub_one_of_lt (by exact_mod_cast hneg)
      exact .below (hproduct.trans rfl) (by exact_mod_cast hn1)

/-- No level of a step is no change, also of a step that is infinite or NaN. -/
theorem mul_ofInt_zero_reaches (step : Float32) : Reaches (step * ofInt 0) 0 := by
  obtain ⟨p, hstep⟩ | rfl | rfl | hstep := exists_denotes_or step
  · exact .number (hstep.mul_zero denotes_zero)
  · exact_mod_cast infinity_mul_ofInt (n := 0) (by norm_num)
  · exact .nothing (notNumber_of_pack rfl) rfl
  · exact .nothing (hstep.mul _) rfl

/-- Multiples of a step that is not negative reach rationals in the order of their counts. -/
theorem exists_reaches_multiples {step : Float32} (h : 0 ≤ step) :
    ∃ f : ℤ → ℚ, Monotone f ∧ ∀ n : ℤ, |n| ≤ 2 ^ 24 → Reaches (step * ofInt n) (f n) := by
  obtain ⟨p, hp, hstep⟩ | rfl := amount_of_nonneg h
  · refine ⟨fun n => rounded (p * n), ?_, fun n hn => hstep.mul_reaches (denotes_ofInt hn)⟩
    intro m n hmn
    exact rounded_mono (mul_le_mul_of_nonneg_left (by exact_mod_cast hmn) hp)
  · exact ⟨Int.cast, Int.cast_mono, fun n hn => infinity_mul_ofInt hn⟩

end ColorWords.Single
