import ColorWords.Proofs.Single.Denotation

/-! # The order of finite singles

Singles compare as the rationals they stand for, and stand in that order among all singles.
-/
namespace ColorWords.Single
open Float.Model (Format UnpackedFloat)
open Float.Model.UnpackedFloat

variable {a b x : Float32} {p q : ℚ}

theorem compare_canonical {m n : ℕ} {e f : ℤ} (hm : Canonical m e) (hn : Canonical n f) :
    (compare e f).then (compare m n) = compare (m * 2 ^ e : ℚ) (n * 2 ^ f) := by
  rcases lt_trichotomy e f with h | rfl | h
  · rw [compare_lt_iff_lt.mpr h, compare_lt_iff_lt.mpr (canonical_lt hm hn h)]
    rfl
  · have hmul : compare (m * 2 ^ e : ℚ) (n * 2 ^ e) = compare m n := by
      rcases lt_trichotomy m n with h | rfl | h
      · have hq : (m : ℚ) < n := by exact_mod_cast h
        rw [compare_lt_iff_lt.mpr h,
          compare_lt_iff_lt.mpr (mul_lt_mul_of_pos_right hq (two_zpow_pos e))]
      · rw [compare_eq_iff_eq.mpr rfl, compare_eq_iff_eq.mpr rfl]
      · have hq : (n : ℚ) < m := by exact_mod_cast h
        rw [compare_gt_iff_gt.mpr h,
          compare_gt_iff_gt.mpr (mul_lt_mul_of_pos_right hq (two_zpow_pos e))]
    rw [compare_eq_iff_eq.mpr rfl, hmul]
    rfl
  · rw [compare_gt_iff_gt.mpr h, compare_gt_iff_gt.mpr (canonical_lt hn hm h)]
    rfl

theorem compare_neg (p q : ℚ) : compare (-p) (-q) = (compare p q).swap := by
  rcases lt_trichotomy p q with h | rfl | h
  · rw [compare_gt_iff_gt.mpr (neg_lt_neg h), compare_lt_iff_lt.mpr h]
    rfl
  · rw [compare_eq_iff_eq.mpr rfl, compare_eq_iff_eq.mpr rfl]
    rfl
  · rw [compare_lt_iff_lt.mpr (neg_lt_neg h), compare_gt_iff_gt.mpr h]
    rfl

theorem compare_spec {f g : UnpackedFloat} (hf : IsRounded f) (hg : IsRounded g) :
    f.compare g = some (compare (number f) (number g)) := by
  have hpos {m : ℕ} (hm : 0 < m) (e : ℤ) : (0 : ℚ) < m * 2 ^ e :=
    mul_pos (by exact_mod_cast hm) (two_zpow_pos e)
  cases f with
  | infinity s => exact hf.elim
  | notANumber => exact hf.elim
  | zero s =>
    cases g with
    | infinity t => exact hg.elim
    | notANumber => exact hg.elim
    | zero t => rfl
    | finite t n f hn =>
      have hn' := hpos hn f
      cases t
      · exact congrArg some (compare_gt_iff_gt.mpr (by simp only [number, signFactor]; linarith)).symm
      · exact congrArg some (compare_lt_iff_lt.mpr (by simp only [number, signFactor]; linarith)).symm
  | finite s m e hm =>
    have hm' := hpos hm e
    cases g with
    | infinity t => exact hg.elim
    | notANumber => exact hg.elim
    | zero t =>
      cases s
      · exact congrArg some (compare_lt_iff_lt.mpr (by simp only [number, signFactor]; linarith)).symm
      · exact congrArg some (compare_gt_iff_gt.mpr (by simp only [number, signFactor]; linarith)).symm
    | finite t n f hn =>
      have hn' := hpos hn f
      cases s <;> cases t <;> simp only [UnpackedFloat.compare, number, signFactor, one_mul, neg_one_mul]
      · rw [compare_neg, compare_canonical hf hg]
      · exact congrArg some (compare_lt_iff_lt.mpr (by linarith)).symm
      · exact congrArg some (compare_gt_iff_gt.mpr (by linarith)).symm
      · rw [compare_canonical hf hg]

theorem lt_iff_compare : a < b ↔ a.toModel.unpack.compare b.toModel.unpack = some .lt := by
  change decide (a.toModel < b.toModel) = true ↔ _
  rw [decide_eq_true_iff]
  exact beq_iff_eq

theorem le_iff_compare : a ≤ b ↔ (a.toModel.unpack.compare b.toModel.unpack).any (·.isLE) = true := by
  change decide (a.toModel ≤ b.toModel) = true ↔ _
  rw [decide_eq_true_iff]
  rfl

theorem Denotes.compare (ha : Denotes a p) (hb : Denotes b q) :
    a.toModel.unpack.compare b.toModel.unpack = some (Ord.compare p q) := by
  rw [← ha.eq, ← hb.eq]
  exact compare_spec ha.isRounded hb.isRounded

theorem Denotes.lt_iff (ha : Denotes a p) (hb : Denotes b q) : a < b ↔ p < q := by
  rw [lt_iff_compare, ha.compare hb, Option.some_inj]
  exact compare_lt_iff_lt

theorem Denotes.le_iff (ha : Denotes a p) (hb : Denotes b q) : a ≤ b ↔ p ≤ q := by
  rw [le_iff_compare, ha.compare hb]
  exact (Ordering.isLE_iff_ne_gt (o := _)).trans compare_le_iff_le

theorem Denotes.beq_iff (ha : Denotes a p) (hb : Denotes b q) : (a == b) = true ↔ p = q := by
  have h : (a == b) = a.toModel.unpack.beq b.toModel.unpack := rfl
  rw [h, UnpackedFloat.beq, ha.compare hb, beq_iff_eq, Option.some_inj]
  exact compare_eq_iff_eq

theorem Denotes.isNaN (ha : Denotes a p) : a.isNaN = false := by
  change a.toModel.unpack.isNaN = false
  obtain ⟨s, hunpack, -⟩ | ⟨s, m, e, hm, hunpack, -⟩ := ha.unpack_cases
  · rw [hunpack]
    rfl
  · rw [hunpack]
    rfl

theorem Denotes.smaller (ha : Denotes a p) (hb : Denotes b q) : Denotes (Single.smaller a b) (min p q) := by
  rw [Single.smaller, ha.isNaN, Bool.or_false]
  by_cases h : b < a
  · rw [decide_eq_true h, if_pos rfl, min_eq_right ((hb.lt_iff ha).mp h).le]
    exact hb
  · rw [decide_eq_false h, if_neg (by simp), min_eq_left (not_lt.mp (mt (hb.lt_iff ha).mpr h))]
    exact ha

theorem Denotes.larger (ha : Denotes a p) (hb : Denotes b q) : Denotes (Single.larger a b) (max p q) := by
  rw [Single.larger, ha.isNaN, Bool.or_false]
  by_cases h : a < b
  · rw [decide_eq_true h, if_pos rfl, max_eq_right ((ha.lt_iff hb).mp h).le]
    exact hb
  · rw [decide_eq_false h, if_neg (by simp), max_eq_left (not_lt.mp (mt (ha.lt_iff hb).mpr h))]
    exact ha

theorem Denotes.lt_infinity (ha : Denotes a p) : a < infinity := by
  have hinf : infinity.toModel.unpack = .infinity .positive := by rfl
  rw [lt_iff_compare, hinf]
  obtain ⟨s, hx, -⟩ | ⟨s, m, e, hm, hx, -⟩ := ha.unpack_cases
  · rw [hx]
    rfl
  · rw [hx]
    cases s <;> rfl

/-! ## Places -/

def magnitude (w : ℕ) : ℚ :=
  if w / 2 ^ 23 = 0 then w * 2 ^ (-149 : ℤ) else (2 ^ 23 + w % 2 ^ 23 : ℕ) * 2 ^ ((w / 2 ^ 23 : ℕ) - 150 : ℤ)

theorem magnitude_lt_succ (w : ℕ) : magnitude w < magnitude (w + 1) := by
  have hpow (e : ℤ) : (0 : ℚ) < 2 ^ e := two_zpow_pos e
  rcases Nat.lt_or_ge (w % 2 ^ 23 + 1) (2 ^ 23) with hinside | hedge
  · have hdiv : (w + 1) / 2 ^ 23 = w / 2 ^ 23 := by omega
    have hmod : (w + 1) % 2 ^ 23 = w % 2 ^ 23 + 1 := by omega
    rw [magnitude, magnitude, hdiv, hmod]
    split_ifs
    · exact mul_lt_mul_of_pos_right (by exact_mod_cast w.lt_succ_self) (hpow _)
    · exact mul_lt_mul_of_pos_right (by exact_mod_cast Nat.lt_succ_self _) (hpow _)
  · have hdiv : (w + 1) / 2 ^ 23 = w / 2 ^ 23 + 1 := by omega
    have hmod : (w + 1) % 2 ^ 23 = 0 := by omega
    rw [magnitude, magnitude, hdiv, hmod, if_neg (Nat.succ_ne_zero _)]
    have hmod' : w % 2 ^ 23 = 2 ^ 23 - 1 := by omega
    split_ifs with hzero
    · have hw : w = 2 ^ 23 - 1 := by omega
      rw [hzero, hw]
      norm_num
    · have hstep : ((w / 2 ^ 23 + 1 : ℕ) : ℤ) - 150 = ((w / 2 ^ 23 : ℕ) : ℤ) - 150 + 1 := by omega
      rw [hstep, zpow_add_one₀ (by norm_num), hmod', mul_comm _ (2 : ℚ), ← mul_assoc]
      exact mul_lt_mul_of_pos_right (by norm_num) (hpow _)

theorem magnitude_strictMono : StrictMono magnitude := strictMono_nat_of_lt_succ magnitude_lt_succ

theorem magnitude_nonneg (w : ℕ) : 0 ≤ magnitude w := by
  have hzero : magnitude 0 = 0 := by norm_num [magnitude]
  rw [← hzero]
  exact magnitude_strictMono.monotone (Nat.zero_le w)

theorem packComponents_toNat (s : Sign) (e : BitVec 8) (m : BitVec 23) :
    (packComponents .binary32 s e m).toNat = s.toBitVec.toNat * 2 ^ 31 + (e.toNat * 2 ^ 23 + m.toNat) := by
  have happend : (packComponents .binary32 s e m).toNat = (s.toBitVec ++ e ++ m).toNat := rfl
  rw [happend, BitVec.toNat_append, BitVec.toNat_append, ← Nat.shiftLeft_add_eq_or_of_lt m.isLt,
    ← Nat.shiftLeft_add_eq_or_of_lt e.isLt, Nat.shiftLeft_eq, Nat.shiftLeft_eq]
  omega

theorem number_unpack_packComponents (s : Sign) {e : BitVec 8} (he : e ≠ -1#8) (m : BitVec 23) :
    number (unpack .binary32 (packComponents .binary32 s e m)) =
      signFactor s * magnitude (e.toNat * 2 ^ 23 + m.toNat) := by
  have hm := m.isLt
  have hdiv : (e.toNat * 2 ^ 23 + m.toNat) / 2 ^ 23 = e.toNat := by omega
  have hmod : (e.toNat * 2 ^ 23 + m.toNat) % 2 ^ 23 = m.toNat := by omega
  rw [unpack_packComponents, if_neg he, magnitude, hdiv, hmod]
  by_cases hzero : e = 0#8
  · subst hzero
    rw [if_pos rfl, if_pos (by rfl)]
    split_ifs with hm0
    · simp [number, hm0]
    · simp [number]
  · have hzero' : e.toNat ≠ 0 := fun h => hzero (BitVec.eq_of_toNat_eq h)
    rw [if_neg hzero, if_neg hzero']
    rfl

theorem exists_packComponents (b : BitVec Format.binary32.numBits) :
    ∃ (s : Sign) (e : BitVec 8) (m : BitVec 23), b = packComponents .binary32 s e m :=
  ⟨_, _, _, (packComponents_unpackSign_unpackExponent_unpackMantissa b).symm⟩

/-- Where a finite single stands among all singles, and its number. -/
theorem Denotes.place (h : Denotes x q) : ∃ w < 2 ^ 31,
    orderKey x = 2 ^ 31 + w ∧ q = magnitude w ∨ orderKey x = 2 ^ 31 - 1 - w ∧ q = -magnitude w := by
  obtain ⟨s, e, m, hbits⟩ := exists_packComponents x.toModel.toBits.toBitVec
  have hunpack : x.toModel.unpack = unpack .binary32 (packComponents .binary32 s e m) := by
    rw [← hbits]
    rfl
  have hfinite : e ≠ -1#8 := by
    rintro rfl
    have hrounded := h.isRounded
    rw [hunpack, unpack_packComponents, if_pos rfl] at hrounded
    split_ifs at hrounded <;> exact hrounded.elim
  have hnumber : q = signFactor s * magnitude (e.toNat * 2 ^ 23 + m.toNat) := by
    rw [← h.eq, value, hunpack, number_unpack_packComponents s hfinite]
  have hword : x.toBits.toNat = s.toBitVec.toNat * 2 ^ 31 + (e.toNat * 2 ^ 23 + m.toNat) := by
    rw [← packComponents_toNat, ← hbits]
    rfl
  have he : e.toNat < 2 ^ 8 := e.isLt
  have hm : m.toNat < 2 ^ 23 := m.isLt
  refine ⟨e.toNat * 2 ^ 23 + m.toNat, by omega, ?_⟩
  cases s with
  | positive =>
    have hsign : (Sign.positive.toBitVec).toNat = 0 := rfl
    rw [hsign] at hword
    refine .inl ⟨?_, by rw [hnumber, signFactor, one_mul]⟩
    simp only [orderKey]
    rw [if_pos (by omega)]
    omega
  | negative =>
    have hsign : (Sign.negative.toBitVec).toNat = 1 := rfl
    rw [hsign] at hword
    refine .inr ⟨?_, by rw [hnumber, signFactor, neg_one_mul]⟩
    simp only [orderKey]
    rw [if_neg (by omega)]
    omega

/-- Finite singles stand in the order of their numbers. -/
theorem Denotes.orderKey_lt (ha : Denotes a p) (hb : Denotes b q) (h : p < q) : orderKey a < orderKey b := by
  obtain ⟨v, hv, ⟨hka, rfl⟩ | ⟨hka, rfl⟩⟩ := ha.place <;> obtain ⟨w, hw, ⟨hkb, rfl⟩ | ⟨hkb, rfl⟩⟩ := hb.place
  · have hvw := magnitude_strictMono.lt_iff_lt.mp h
    omega
  · have hv0 := magnitude_nonneg v
    have hw0 := magnitude_nonneg w
    linarith
  · omega
  · have hwv := magnitude_strictMono.lt_iff_lt.mp (neg_lt_neg_iff.mp h)
    omega

end ColorWords.Single
