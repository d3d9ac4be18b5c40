import ColorWords.Proofs.Single.Zero
import ColorWords.Single.Numeral

/-! # Amounts

An amount is a single that is not negative, infinity included. Too large a sum of amounts
is infinity, numerals spell amounts, and what a finite amount adds to a total is a share
of it between nothing and the whole.
-/
namespace ColorWords.Single
open Float.Model (Format UnpackedFloat)
open Float.Model.UnpackedFloat

variable {a b t w x : Float32} {p q r : ℚ}

def Amount (x : Float32) : Prop := (∃ q, 0 ≤ q ∧ Denotes x q) ∨ x = infinity

theorem Denotes.amount (h : Denotes x q) (hq : 0 ≤ q) : Amount x := .inl ⟨q, hq, h⟩

theorem Amount.eq_infinity (h : Amount x) (hinfinite : ¬ x.isFinite = true) : x = infinity :=
  h.resolve_left fun ⟨_, _, hq⟩ => hinfinite hq.finite

/-! ## Infinity -/

theorem ofModel_pack_infinity : Float32.ofModel (.pack (.infinity .positive)) = infinity := by rfl

theorem Denotes.add_infinity (h : Denotes a p) : a + infinity = infinity := by
  have hsum : a + infinity =
      Float32.ofModel (.pack (UnpackedFloat.add .binary32 a.toModel.unpack (.infinity .positive))) := rfl
  rw [hsum, ← ofModel_pack_infinity]
  obtain ⟨s, ha, -⟩ | ⟨s, m, e, hm, ha, -⟩ := h.unpack_cases <;> rw [ha] <;> rfl

theorem Amount.infinity_add (h : Amount b) : infinity + b = infinity := by
  have hsum : infinity + b =
      Float32.ofModel (.pack (UnpackedFloat.add .binary32 (.infinity .positive) b.toModel.unpack)) := rfl
  rw [hsum, ← ofModel_pack_infinity]
  obtain ⟨q, -, hb⟩ | rfl := h
  · obtain ⟨s, hb, -⟩ | ⟨s, m, e, hm, hb, -⟩ := hb.unpack_cases <;> rw [hb] <;> rfl
  · rfl

theorem Amount.add_infinity (h : Amount a) : a + infinity = infinity := by
  obtain ⟨p, -, ha⟩ | rfl := h
  · exact ha.add_infinity
  · exact Amount.infinity_add (.inr rfl)

theorem Denotes.div_infinity (h : Denotes a p) : Denotes (a / infinity) 0 := by
  have hquot : a / infinity =
      Float32.ofModel (.pack (UnpackedFloat.div .binary32 a.toModel.unpack (.infinity .positive))) := rfl
  obtain ⟨s, hs⟩ : ∃ s, UnpackedFloat.div .binary32 a.toModel.unpack (.infinity .positive) = .zero s := by
    obtain ⟨s, ha, -⟩ | ⟨s, m, e, hm, ha, -⟩ := h.unpack_cases <;> rw [ha] <;> exact ⟨_, rfl⟩
  have hpackable : Packable (.zero s) := trivial
  refine denotes_of_unpack_zero (s := s) ?_
  rw [hquot, hs]
  exact unpack_toModel_ofModel hpackable

theorem infinity_not_le_zero : ¬ infinity ≤ 0 := by decide

/-- What is rounded to a number beyond the largest single packs to the infinity on its side. -/
theorem ofModel_pack_of_large {f : UnpackedFloat} (hf : IsRounded f) (h : 2 ^ 128 ≤ |number f|) :
    Float32.ofModel (.pack f) = if 0 < number f then infinity else -infinity := by
  cases f with
  | infinity s => exact hf.elim
  | notANumber => exact hf.elim
  | zero s => norm_num [number] at h
  | finite s m e hm =>
    have hpos : (0 : ℚ) < m * 2 ^ e := mul_pos (by exact_mod_cast hm) (two_zpow_pos e)
    have he : 104 < e := by
      by_contra hsmall
      have hm24 : (m : ℚ) < 2 ^ 24 := by exact_mod_cast hf.1
      have hpow : (2 : ℚ) ^ e ≤ 2 ^ (104 : ℤ) := zpow_le_zpow_right₀ (by norm_num) (by omega)
      have hprod := mul_lt_mul hm24 hpow (two_zpow_pos e) (by norm_num)
      rw [abs_number_finite] at h
      norm_num at h hprod
      linarith
    have hpack : pack .binary32 (.finite s m e hm) = pack .binary32 (.infinity s) :=
      if_pos (by change 2 ^ 8 ≤ (e + 127 + 23).toNat + 1; omega)
    have hinfinite : Float32.ofModel (.pack (.finite s m e hm)) = .ofModel (.pack (.infinity s)) := by
      simp only [Float32.Model.pack, hpack]
    rw [hinfinite, number]
    cases s with
    | positive => rw [signFactor, one_mul, if_pos hpos, ofModel_pack_infinity]
    | negative =>
      rw [signFactor, neg_one_mul, if_neg (by linarith)]
      rfl

/-- A sum of finite amounts is rounded or too large. -/
theorem Denotes.add_amount (ha : Denotes a p) (hb : Denotes b q) (hp : 0 ≤ p) (hq : 0 ≤ q) :
    Denotes (a + b) (rounded (p + q)) ∨ a + b = infinity := by
  rcases lt_or_ge |rounded (p + q)| (2 ^ 128) with h | h
  · exact .inl (ha.add hb h)
  · have hspec := add_spec ha.isRounded hb.isRounded
    change IsRounded _ ∧ _ = rounded (value a + value b) at hspec
    rw [ha.eq, hb.eq] at hspec
    have hpos : 0 < rounded (p + q) := by
      rw [abs_of_nonneg (rounded_nonneg (add_nonneg hp hq))] at h
      linarith
    rw [← hspec.2] at h hpos
    exact .inr ((ofModel_pack_of_large hspec.1 h).trans (if_pos hpos))

theorem Amount.add (ha : Amount a) (hb : Amount b) : Amount (a + b) := by
  obtain ⟨p, hp, ha⟩ | rfl := ha
  · obtain ⟨q, hq, hb⟩ | rfl := hb
    · exact (ha.add_amount hb hp hq).imp (fun h => ⟨_, rounded_nonneg (add_nonneg hp hq), h⟩) id
    · exact .inr ha.add_infinity
  · exact .inr hb.infinity_add

/-- A sum with a positive part is beyond zero, whether it is rounded or infinite. -/
theorem Denotes.add_not_le_zero (ha : Denotes a p) (hb : Denotes b q) (hp : 0 < p) (hq : 0 ≤ q) : ¬ a + b ≤ 0 := by
  rcases ha.add_amount hb hp.le hq with hsum | hsum
  · rw [hsum.le_iff denotes_zero, not_le]
    exact hp.trans_le (le_rounded ha.representable (by linarith))
  · rw [hsum]
    exact infinity_not_le_zero

/-- A count is rounded or too large. -/
theorem denotes_count (k : ℕ) : Denotes (ofInt k) (rounded k) ∨ ofInt k = infinity := by
  have hspec := normalize_spec k 0 .positive
  rw [zpow_zero, mul_one, Int.cast_natCast] at hspec
  rcases lt_or_ge |rounded (k : ℚ)| (2 ^ 128) with h | h
  · exact .inl (denotes_of_spec hspec h)
  · have hpos : 0 < rounded (k : ℚ) := by
      rw [abs_of_nonneg (rounded_nonneg (Nat.cast_nonneg k))] at h
      linarith
    rw [← hspec.2] at h hpos
    exact .inr ((ofModel_pack_of_large hspec.1 h).trans (if_pos hpos))

/-! ## What is no number -/

def NotNumber (x : Float32) : Prop := x.toModel.unpack = .notANumber

theorem notNumber_of_pack (h : x = Float32.ofModel (.pack .notANumber)) : NotNumber x := by
  have hpackable : Packable .notANumber := trivial
  rw [h]
  exact unpack_toModel_ofModel hpackable

theorem notNumber_infinity_div_infinity : NotNumber (infinity / infinity) := notNumber_of_pack rfl

theorem NotNumber.mul (h : NotNumber a) (b : Float32) : NotNumber (a * b) := by
  have hprod : a * b = Float32.ofModel (.pack (UnpackedFloat.mul .binary32 a.toModel.unpack b.toModel.unpack)) := rfl
  rw [h] at hprod
  exact notNumber_of_pack hprod

theorem NotNumber.add_left (h : NotNumber b) (a : Float32) : NotNumber (a + b) := by
  have hsum : a + b = Float32.ofModel (.pack (UnpackedFloat.add .binary32 a.toModel.unpack b.toModel.unpack)) := rfl
  rw [h] at hsum
  refine notNumber_of_pack ?_
  cases ha : a.toModel.unpack <;> rw [ha] at hsum <;> exact hsum

theorem NotNumber.truncate (h : NotNumber x) : Single.truncate x = 0 := by
  rw [Single.truncate, toWhole, h]

/-! ## Shares -/

/-- The share of a finite amount in a total that it has been added to. -/
theorem Amount.share (ht : Amount t) (hw : Denotes w q) (hq : 0 ≤ q) (hpos : ¬ t + w ≤ 0) :
    ∃ c, Denotes (w / (t + w)) c ∧ 0 ≤ c ∧ c ≤ 1 := by
  have hinfinite (h : t + w = infinity) : ∃ c, Denotes (w / (t + w)) c ∧ 0 ≤ c ∧ c ≤ 1 := by
    refine ⟨0, ?_, le_rfl, zero_le_one⟩
    rw [h]
    exact hw.div_infinity
  obtain ⟨p, hp, ht⟩ | rfl := ht
  · rcases ht.add_amount hw hp hq with hsum | hsum
    · rw [hsum.le_iff denotes_zero, not_le] at hpos
      have hle : q ≤ rounded (p + q) := le_rounded hw.representable (by linarith)
      have hlow : 0 ≤ rounded (q / rounded (p + q)) := rounded_nonneg (div_nonneg hq hpos.le)
      have hhigh : rounded (q / rounded (p + q)) ≤ 1 :=
        rounded_le denotes_one.representable (div_le_one_of_le₀ hle hpos.le)
      refine ⟨_, hw.div hsum hpos.ne' ?_, hlow, hhigh⟩
      rw [abs_of_nonneg hlow]
      linarith
    · exact hinfinite hsum
  · exact hinfinite (Amount.infinity_add (hw.amount hq))

/-! ## Numerals -/

theorem roundWithAccuracy_positive (m : ℕ) (e : ℤ) (accuracy : Accuracy) :
    roundWithAccuracy .binary32 .positive m e accuracy = .zero .positive ∨
      ∃ n f hn, roundWithAccuracy .binary32 .positive m e accuracy = .finite .positive n f hn := by
  rw [roundWithAccuracy]
  dsimp only
  split
  case isTrue => exact .inl rfl
  case isFalse hne => exact .inr ⟨_, _, Nat.pos_of_ne_zero hne, rfl⟩

/-- A positive mantissa packs to an amount, also one that is not in canonical form. -/
theorem amount_pack_finite (m : ℕ) (e : ℤ) (hm : 0 < m) :
    Amount (.ofModel (.pack (.finite .positive m e hm))) := by
  set x := Float32.ofModel (.pack (.finite .positive m e hm)) with hx
  have hcomponents {k : BitVec 8} {n : BitVec 23} (hk : k ≠ -1#8)
      (h : pack .binary32 (.finite .positive m e hm) = packComponents .binary32 .positive k n) : Amount x := by
    have hunpack : x.toModel.unpack = unpack .binary32 (packComponents .binary32 .positive k n) := by
      rw [← h]
      rfl
    rw [unpack_packComponents, if_neg hk] at hunpack
    split_ifs at hunpack
    · exact (denotes_of_unpack_zero hunpack).amount le_rfl
    · exact (denotes_of_unpack hunpack).amount (by rw [signFactor, one_mul]; positivity)
    · exact (denotes_of_unpack hunpack).amount (by rw [signFactor, one_mul]; positivity)
  by_cases hlarge : 2 ^ 8 ≤ (e + 127 + 23).toNat + 1
  · refine .inr ?_
    have hpack : pack .binary32 (.finite .positive m e hm) = pack .binary32 (.infinity .positive) := if_pos hlarge
    rw [hx, ← ofModel_pack_infinity]
    simp only [Float32.Model.pack, hpack]
  · have hexponent : BitVec.ofNat 8 (e + 127 + 23).toNat ≠ -1#8 := by
      rw [ne_eq, ← BitVec.toNat_inj, BitVec.toNat_ofNat]
      change ¬ _ = 255
      omega
    by_cases hnormal : m.log2 + 1 = Format.binary32.mantissaBits
    · exact hcomponents hexponent ((if_neg hlarge).trans (if_pos hnormal))
    · exact hcomponents (by decide) ((if_neg hlarge).trans (if_neg hnormal))

theorem amount_pack_roundWithAccuracy (m : ℕ) (e : ℤ) (accuracy : Accuracy) :
    Amount (.ofModel (.pack (roundWithAccuracy .binary32 .positive m e accuracy))) := by
  rcases roundWithAccuracy_positive m e accuracy with h | ⟨n, f, hn, h⟩ <;> rw [h]
  · exact denotes_zero.amount le_rfl
  · exact amount_pack_finite n f hn

theorem amount_ofScientific (m : ℕ) (e : ℤ) : Amount (.ofModel (.ofScientific m e)) := by
  change Amount (.ofModel (.pack (UnpackedFloat.ofScientific .binary32 m e)))
  rw [UnpackedFloat.ofScientific]
  split_ifs
  · exact denotes_zero.amount le_rfl
  · exact .inr ofModel_pack_infinity
  · exact denotes_zero.amount le_rfl
  · exact amount_pack_roundWithAccuracy _ _ _
  · exact amount_pack_roundWithAccuracy _ _ _

theorem amount_of_numeral {text : List Char} (h : numeral? text = some x) : Amount x := by
  rw [numeral?] at h
  dsimp only at h
  split_ifs at h
  obtain ⟨e, -, rfl⟩ := Option.map_eq_some_iff.mp h
  exact amount_ofScientific _ _

end ColorWords.Single
