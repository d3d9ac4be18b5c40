import ColorWords.Proofs.Single.Packing
import ColorWords.Proofs.Single.Rounding

/-! # Arithmetic rounds to the nearest single

A mantissa with a round and a sticky bit describes a rational closely enough to round
it. Shifting keeps the description true, so each operation on unpacked floats gives the
`rounded` value of the exact result in canonical form.
-/
namespace ColorWords.Single
open Float.Model (Format UnpackedFloat totalExponent)
open Float.Model.UnpackedFloat

def signFactor : Sign → ℚ
  | .negative => -1
  | .positive => 1

def number : UnpackedFloat → ℚ
  | .finite s m e _ => signFactor s * (m * 2 ^ e)
  | _ => 0

/-- Finite floats in canonical form, also those too large for a word. -/
def IsRounded : UnpackedFloat → Prop
  | .zero _ => True
  | .finite _ m e _ => Canonical m e
  | _ => False

/-- The mantissa is the whole part of `x`, and the two bits tell what is left. -/
structure Residue (em : ExtendedMantissa) (x : ℚ) : Prop where
  floor : ⌊x⌋ = em.mantissa
  round : em.roundBit = true ↔ 1 / 2 ≤ Int.fract x
  sticky : em.stickyBit = true ↔ Int.fract x ≠ 0 ∧ Int.fract x ≠ 1 / 2

theorem residue_exact (m : ℕ) : Residue (.ofMantissaAndAccuracy m .exact) m := by
  refine ⟨by simp [ExtendedMantissa.ofMantissaAndAccuracy], ?_, ?_⟩ <;>
    simp [ExtendedMantissa.ofMantissaAndAccuracy]

theorem Residue.roundedMantissa {em : ExtendedMantissa} {x : ℚ} (h : Residue em x) :
    (em.roundedMantissa : ℤ) = halfEven x := by
  obtain ⟨hf, hr, hs⟩ := h
  rcases em with ⟨m, r, s⟩
  dsimp only at hf hr hs
  have h0 := Int.fract_nonneg x
  cases r <;> cases s <;> simp only [true_iff, false_iff, Bool.false_eq_true, not_le, not_and,
    not_not] at hr hs
  · have hz : Int.fract x = 0 := by
      by_contra hne
      linarith [hs hne]
    rw [halfEven_of_lt hr, hf]
    rfl
  · rw [halfEven_of_lt hr, hf]
    rfl
  · have heq : Int.fract x = 1 / 2 := hs (by linarith)
    rw [halfEven_of_eq heq, hf]
    rfl
  · rw [halfEven_of_gt (lt_of_le_of_ne hr (Ne.symm hs.2)), hf]
    rfl

theorem floor_half (x : ℚ) : ⌊x / 2⌋ = ⌊x⌋ / 2 := by
  exact_mod_cast Int.floor_div_natCast x 2

theorem fract_half (x : ℚ) : Int.fract (x / 2) = ((⌊x⌋ % 2 : ℤ) + Int.fract x) / 2 := by
  have hx := Int.fract_add_floor x
  have hm : ((⌊x⌋ % 2 : ℤ) : ℚ) = ⌊x⌋ - 2 * (⌊x⌋ / 2 : ℤ) := by
    exact_mod_cast (by omega : ⌊x⌋ % 2 = ⌊x⌋ - 2 * (⌊x⌋ / 2))
  rw [Int.fract, floor_half, hm]
  linarith

theorem Residue.shiftRightOne {em : ExtendedMantissa} {x : ℚ} (h : Residue em x) :
    Residue em.shiftRightOne (x / 2) := by
  obtain ⟨hf, hr, hs⟩ := h
  have h0 := Int.fract_nonneg x
  have h1 := Int.fract_lt_one x
  have hrest : em.roundBit || em.stickyBit ↔ Int.fract x ≠ 0 := by
    rw [Bool.or_eq_true, hr, hs]
    constructor
    · rintro (h | h)
      · intro hz
        linarith
      · exact h.1
    · intro hz
      by_cases hh : Int.fract x = 1 / 2
      · exact Or.inl hh.ge
      · exact Or.inr ⟨hz, hh⟩
  have hmod : ⌊x⌋ % 2 = (em.mantissa % 2 : ℕ) := by omega
  refine ⟨?_, ?_, ?_⟩
  · rw [floor_half, hf]
    rfl
  · change (em.mantissa % 2 != 0) = true ↔ _
    rw [fract_half, hmod, bne_iff_ne]
    rcases Nat.mod_two_eq_zero_or_one em.mantissa with hm | hm <;> rw [hm]
    · simp only [ne_eq, not_true, false_iff, not_le]
      push_cast
      linarith
    · simp only [ne_eq, one_ne_zero, not_false_eq_true, true_iff]
      push_cast
      linarith
  · change (em.roundBit || em.stickyBit) = true ↔ _
    rw [fract_half, hmod, hrest]
    rcases Nat.mod_two_eq_zero_or_one em.mantissa with hm | hm <;> rw [hm] <;> push_cast
    · constructor
      · intro hz
        refine ⟨fun h => hz (by linarith), fun h => ?_⟩
        linarith
      · rintro ⟨hz, -⟩ h
        exact hz (by rw [h]; norm_num)
    · constructor
      · intro hz
        refine ⟨fun h => ?_, fun h => hz (by linarith)⟩
        linarith
      · rintro ⟨-, hz⟩ h
        exact hz (by rw [h]; norm_num)

theorem Residue.shiftRight {em : ExtendedMantissa} {x : ℚ} (h : Residue em x) (n : ℕ) :
    Residue (em >>> n) (x / 2 ^ n) := by
  change Residue (n.repeat ExtendedMantissa.shiftRightOne em) _
  induction n with
  | zero => simpa [Nat.repeat] using h
  | succ n ih =>
    rw [pow_succ, ← div_div]
    exact ih.shiftRightOne

theorem log_mul_two_zpow {x : ℚ} (hx : 0 < x) (e : ℤ) :
    Int.log 2 (x * 2 ^ e) = Int.log 2 x + e := by
  apply eq_of_forall_le_iff
  intro n
  have hiff := Int.zpow_le_iff_le_log (b := 2) (by norm_num) (x := n) (mul_pos hx (two_zpow_pos e))
  have hiff' := Int.zpow_le_iff_le_log (b := 2) (by norm_num) (x := n - e) hx
  rw [← hiff, ← sub_le_iff_le_add, ← hiff', ← div_le_iff₀ (two_zpow_pos e), Nat.cast_ofNat,
    ← zpow_sub₀ (by norm_num)]

/-- The exponent that rounding goes for is the one of the grid. -/
theorem targetExponent_eq {m : ℕ} {e : ℤ} {x : ℚ} (hm : ⌊x⌋ = m) (hx : 0 < x)
    (he : 0 < m ∨ e ≤ gridExponent (x * 2 ^ e)) :
    Format.binary32.targetExponent (totalExponent m e) = gridExponent (x * 2 ^ e) := by
  have ht : Format.binary32.targetExponent (totalExponent m e) = max (m.log2 + 1 + e - 24) (-149) := rfl
  have hg : gridExponent (x * 2 ^ e) = max (Int.log 2 x + e - 23) (-149) := by
    rw [gridExponent, abs_of_pos (mul_pos hx (two_zpow_pos e)), log_mul_two_zpow hx]
  rw [ht, hg]
  rw [hg] at he
  rcases m.eq_zero_or_pos with rfl | hpos
  · have hlt : x < 2 ^ (0 : ℤ) := by
      rw [zpow_zero]
      linarith [Int.lt_floor_add_one x, (by rw [hm]; simp : (⌊x⌋ : ℚ) = 0)]
    have hlog := (Int.lt_zpow_iff_log_lt (b := 2) (by norm_num) hx).mp hlt
    have hz : Nat.log2 0 = 0 := by decide
    have he' := he.resolve_left (lt_irrefl 0)
    omega
  · have hlog : Int.log 2 x = m.log2 := by
      have hone : 1 ≤ x := by
        have hcast : (1 : ℚ) ≤ ⌊x⌋ := by exact_mod_cast (by omega : 1 ≤ ⌊x⌋)
        linarith [Int.floor_le x]
      have hfloor : ⌊x⌋₊ = m := by
        rw [← Int.floor_toNat, hm, Int.toNat_natCast]
      rw [Int.log_of_one_le_right 2 hone, hfloor, Nat.log2_eq_log_two]
    omega

/-- At most one further shift follows the rounding of a mantissa, and it is exact. -/
theorem shift_rounded {m : ℕ} {e : ℤ} (hm : m ≤ 2 ^ 24) (he : -149 ≤ e) :
    shiftToTargetExponent .binary32 m e .exact =
      if m < 2 ^ 24 then (.ofMantissaAndAccuracy m .exact, e)
      else (.ofMantissaAndAccuracy (2 ^ 23) .exact, e + 1) := by
  have ht : shiftToTargetExponent .binary32 m e .exact =
      shiftToExponent m e .exact (max (m.log2 + 1 + e - 24) (-149)) := rfl
  split_ifs with h
  · have hlog : m.log2 < 24 := by
      rcases m.eq_zero_or_pos with rfl | hpos
      · decide
      · exact (Nat.log2_lt hpos.ne').mpr h
    have hs : (max ((m.log2 : ℤ) + 1 + e - 24) (-149) - e).toNat = 0 := by omega
    rw [ht, shiftToExponent, hs]
    simp only [Nat.cast_zero, add_zero]
    rfl
  · have heq : m = 2 ^ 24 := by omega
    have hlog : m.log2 = 24 := by rw [heq, Nat.log2_two_pow]
    have hs : (max ((m.log2 : ℤ) + 1 + e - 24) (-149) - e).toNat = 1 := by omega
    rw [ht, shiftToExponent, hs, heq]
    rfl

theorem roundWithAccuracy_spec (s : Sign) {m : ℕ} {e : ℤ} {a : Accuracy} {x : ℚ}
    (h : Residue (.ofMantissaAndAccuracy m a) x) (hm : ⌊x⌋ = m) (hx : 0 < x)
    (he : e ≤ gridExponent (x * 2 ^ e)) :
    IsRounded (roundWithAccuracy .binary32 s m e a) ∧
      number (roundWithAccuracy .binary32 s m e a) = signFactor s * rounded (x * 2 ^ e) := by
  have ht := targetExponent_eq hm hx (Or.inr he)
  have hlow : -149 ≤ gridExponent (x * 2 ^ e) := le_max_right _ _
  have hdigits := abs_halfEven_grid_le (x * 2 ^ e)
  have hnormal := two_zpow_le_halfEven_grid (mul_pos hx (two_zpow_pos e))
  have hvalue : rounded (x * 2 ^ e) =
    halfEven (x * 2 ^ e / 2 ^ gridExponent (x * 2 ^ e)) * 2 ^ gridExponent (x * 2 ^ e) := rfl
  generalize gridExponent (x * 2 ^ e) = t at *
  have hn : e + ((t - e).toNat : ℤ) = t := by omega
  have hscale : x / 2 ^ (t - e).toNat = x * 2 ^ e / 2 ^ t := by
    rw [← hn, two_zpow_add, hn]
    field_simp
  have hfirst := (h.shiftRight (t - e).toNat).roundedMantissa
  rw [hscale] at hfirst
  have hshift : shiftToTargetExponent .binary32 m e a =
      (ExtendedMantissa.ofMantissaAndAccuracy m a >>> (t - e).toNat, t) := by
    rw [shiftToTargetExponent, ht, shiftToExponent, hn]
  generalize ExtendedMantissa.ofMantissaAndAccuracy m a >>> (t - e).toNat = em at hfirst hshift
  rw [← hfirst] at hdigits hnormal hvalue
  generalize hM : em.roundedMantissa = M at *
  have hM24 : M ≤ 2 ^ 24 := by
    have := (abs_le.mp hdigits).2
    omega
  have hround : roundWithAccuracy .binary32 s m e a =
      if h : (shiftToTargetExponent .binary32 M t .exact).1.mantissa = 0 then .zero s
      else .finite s (shiftToTargetExponent .binary32 M t .exact).1.mantissa
        (shiftToTargetExponent .binary32 M t .exact).2 (Nat.pos_of_ne_zero h) := by
    rw [roundWithAccuracy, hshift]
    simp only [hM]
  have hexact (n : ℕ) : (ExtendedMantissa.ofMantissaAndAccuracy n .exact).mantissa = n := rfl
  rw [hround, hvalue, Int.cast_natCast]
  by_cases hlt : M < 2 ^ 24
  · simp only [shift_rounded hM24 hlow, if_pos hlt, hexact]
    split_ifs with hz
    · exact ⟨trivial, by simp [number, hz]⟩
    · refine ⟨⟨hlt, hlow, ?_⟩, rfl⟩
      by_cases hmin : t = -149
      · exact Or.inr hmin
      · have := hnormal (by omega)
        exact Or.inl (by omega)
  · have heq : M = 2 ^ 24 := by omega
    simp only [shift_rounded hM24 hlow, if_neg hlt, hexact]
    rw [dif_neg (by norm_num)]
    refine ⟨⟨by norm_num, by omega, Or.inl le_rfl⟩, ?_⟩
    simp only [number, heq]
    rw [zpow_add₀ (by norm_num)]
    push_cast
    ring

theorem le_gridExponent {x : ℚ} {e : ℤ} (h : 2 ^ 23 ≤ x ∨ e ≤ -149) : e ≤ gridExponent (x * 2 ^ e) := by
  rcases h with h | h
  · have hx : 0 < x := lt_of_lt_of_le (by norm_num) h
    have hlog : (23 : ℤ) ≤ Int.log 2 x :=
      (Int.zpow_le_iff_le_log (b := 2) (by norm_num) hx).mp (by exact_mod_cast h)
    rw [gridExponent, abs_of_pos (mul_pos hx (two_zpow_pos e)), log_mul_two_zpow hx]
    omega
  · rw [gridExponent]
    omega

theorem round_spec (s : Sign) {m : ℕ} (hm : 0 < m) (e : ℤ) :
    IsRounded (UnpackedFloat.round .binary32 s m e) ∧
      number (UnpackedFloat.round .binary32 s m e) = signFactor s * rounded (m * 2 ^ e) := by
  have hpos : (0 : ℚ) < m := by exact_mod_cast hm
  have ht := targetExponent_eq (e := e) (Int.floor_natCast m) hpos (Or.inl hm)
  have hround : UnpackedFloat.round .binary32 s m e =
      roundWithAccuracy .binary32 s (m <<< (e - gridExponent (m * 2 ^ e)).toNat)
        (e - (e - gridExponent (m * 2 ^ e)).toNat) .exact := by
    rw [UnpackedFloat.round, ht, decreaseExponent]
  generalize hk : (e - gridExponent (m * 2 ^ e)).toNat = k at hround
  have hvalue : ((m <<< k : ℕ) : ℚ) * 2 ^ (e - k) = m * 2 ^ e := by
    rw [Nat.shiftLeft_eq, zpow_sub₀ (by norm_num), zpow_natCast]
    push_cast
    field_simp
  have hpos' : (0 : ℚ) < (m <<< k : ℕ) := by
    rw [Nat.shiftLeft_eq]
    push_cast
    positivity
  rw [hround, ← hvalue]
  refine roundWithAccuracy_spec s (residue_exact _) (Int.floor_natCast _) hpos' ?_
  rw [hvalue]
  omega

theorem normalize_spec (n e : ℤ) (z : Sign) :
    IsRounded (UnpackedFloat.normalize .binary32 n e z) ∧
      number (UnpackedFloat.normalize .binary32 n e z) = rounded (n * 2 ^ e) := by
  rcases lt_trichotomy n 0 with hn | rfl | hn
  · have hspec := round_spec .negative (m := (-n).toNat) (by omega) e
    have hcast : (((-n).toNat : ℤ) : ℚ) = ((-n : ℤ) : ℚ) := by rw [Int.toNat_of_nonneg (by omega)]
    rw [UnpackedFloat.normalize, compare_lt_iff_lt.mpr hn]
    refine ⟨hspec.1, hspec.2.trans ?_⟩
    rw [← Int.cast_natCast, hcast, Int.cast_neg, neg_mul, rounded_neg]
    simp [signFactor]
  · refine ⟨trivial, ?_⟩
    simp [UnpackedFloat.normalize, number]
  · have hspec := round_spec .positive (m := n.toNat) (by omega) e
    have hcast : ((n.toNat : ℤ) : ℚ) = (n : ℚ) := by rw [Int.toNat_of_nonneg hn.le]
    rw [UnpackedFloat.normalize, compare_gt_iff_gt.mpr hn]
    refine ⟨hspec.1, hspec.2.trans ?_⟩
    rw [← Int.cast_natCast, hcast]
    simp [signFactor]

theorem representable_number {f : UnpackedFloat} (h : IsRounded f) : Representable (number f) := by
  cases f with
  | zero s => exact ⟨0, 0, by norm_num, by norm_num, by simp [number]⟩
  | finite s m e hm =>
    obtain ⟨hu, hl, -⟩ := h
    have hm24 : |(m : ℤ)| < 2 ^ 24 := by
      rw [abs_of_nonneg (by omega)]
      exact_mod_cast hu
    have hpos : Representable (m * 2 ^ e) := ⟨m, e, hm24, hl, by norm_cast⟩
    cases s with
    | negative => simpa [number, signFactor] using hpos.neg
    | positive => simpa [number, signFactor] using hpos
  | infinity s => exact h.elim
  | notANumber => exact h.elim

theorem apply_mul_decrease (s : Sign) (m : ℕ) {e t : ℤ} (h : t ≤ e) :
    ((s.apply (decreaseExponent m e t).1 : ℤ) : ℚ) * 2 ^ t = signFactor s * (m * 2 ^ e) := by
  have hpow : (2 : ℚ) ^ e = 2 ^ (e - t).toNat * 2 ^ t := by
    rw [← two_zpow_add]
    congr 1
    omega
  rw [decreaseExponent, Nat.shiftLeft_eq, hpow]
  cases s <;> simp [Sign.apply, signFactor] <;> ring

theorem add_spec {a b : UnpackedFloat} (ha : IsRounded a) (hb : IsRounded b) :
    IsRounded (add .binary32 a b) ∧ number (add .binary32 a b) = rounded (number a + number b) := by
  cases a with
  | infinity s => exact ha.elim
  | notANumber => exact ha.elim
  | zero s =>
    have hz : number (.zero s) = 0 := rfl
    cases b with
    | infinity t => exact hb.elim
    | notANumber => exact hb.elim
    | zero t =>
      have hz' : number (.zero t) = 0 := rfl
      rw [hz, hz', add_zero, rounded_zero, UnpackedFloat.add]
      split <;> exact ⟨trivial, rfl⟩
    | finite t n f hn =>
      rw [hz, zero_add, rounded_of_representable (representable_number hb)]
      exact ⟨hb, rfl⟩
  | finite s m e hm =>
    cases b with
    | infinity t => exact hb.elim
    | notANumber => exact hb.elim
    | zero t =>
      have hz : number (.zero t) = 0 := rfl
      rw [hz, add_zero, rounded_of_representable (representable_number ha)]
      exact ⟨ha, rfl⟩
    | finite t n f hn =>
      have hspec := normalize_spec (s.apply (decreaseExponent m e (min e f)).1 +
        t.apply (decreaseExponent n f (min e f)).1) (min e f) .positive
      refine ⟨hspec.1, hspec.2.trans ?_⟩
      rw [Int.cast_add, add_mul, apply_mul_decrease s m (min_le_left e f),
        apply_mul_decrease t n (min_le_right e f)]
      rfl

theorem signFactor_neg (s : Sign) : signFactor (-s) = -signFactor s := by
  cases s
  · exact (neg_neg (1 : ℚ)).symm
  · rfl

theorem apply_neg (s : Sign) (n : ℤ) : (-s).apply n = -s.apply n := by
  cases s
  · exact (neg_neg n).symm
  · rfl

theorem number_neg (f : UnpackedFloat) : number f.neg = -number f := by
  cases f with
  | finite s m e hm =>
    change signFactor (-s) * _ = -(signFactor s * _)
    rw [signFactor_neg, neg_mul]
  | infinity s => exact neg_zero.symm
  | notANumber => exact neg_zero.symm
  | zero s => exact neg_zero.symm

theorem isRounded_neg {f : UnpackedFloat} (h : IsRounded f) : IsRounded f.neg := by
  cases f <;> exact h

theorem sub_eq_add (a b : UnpackedFloat) : sub .binary32 a b = add .binary32 a b.neg := by
  cases a <;> cases b <;> try rfl
  next s m e hm t n f hn =>
    simp only [UnpackedFloat.sub, UnpackedFloat.add, UnpackedFloat.neg, apply_neg, Int.sub_eq_add_neg]

theorem sub_spec {a b : UnpackedFloat} (ha : IsRounded a) (hb : IsRounded b) :
    IsRounded (sub .binary32 a b) ∧ number (sub .binary32 a b) = rounded (number a - number b) := by
  rw [sub_eq_add, sub_eq_add_neg, ← number_neg]
  exact add_spec ha (isRounded_neg hb)

theorem signFactor_mul : ∀ s t : Sign, signFactor (s * t) = signFactor s * signFactor t
  | .negative, .negative => show (1 : ℚ) = -1 * -1 by norm_num
  | .negative, .positive => show (-1 : ℚ) = -1 * 1 by norm_num
  | .positive, .negative => show (-1 : ℚ) = 1 * -1 by norm_num
  | .positive, .positive => show (1 : ℚ) = 1 * 1 by norm_num

theorem signFactor_div : ∀ s t : Sign, signFactor (s / t) = signFactor s / signFactor t
  | .negative, .negative => show (1 : ℚ) = -1 / -1 by norm_num
  | .negative, .positive => show (-1 : ℚ) = -1 / 1 by norm_num
  | .positive, .negative => show (-1 : ℚ) = 1 / -1 by norm_num
  | .positive, .positive => show (1 : ℚ) = 1 / 1 by norm_num

/-- Rounding treats both signs alike. -/
theorem rounded_signFactor_mul (s : Sign) (q : ℚ) : rounded (signFactor s * q) = signFactor s * rounded q := by
  cases s
  · rw [signFactor, neg_one_mul, neg_one_mul, rounded_neg]
  · rw [signFactor, one_mul, one_mul]

theorem le_or_eq_of_mul {m n : ℕ} {e f : ℤ} (hm : Canonical m e) (hn : Canonical n f) (hpm : 0 < m)
    (hpn : 0 < n) : (2 : ℚ) ^ 23 ≤ (m * n : ℕ) ∨ e + f ≤ -149 := by
  obtain ⟨-, -, hm⟩ := hm
  obtain ⟨-, -, hn⟩ := hn
  rcases hm with hm | hm
  · have := Nat.le_mul_of_pos_right m hpn
    exact Or.inl (by exact_mod_cast hm.trans this)
  · rcases hn with hn | hn
    · have := Nat.le_mul_of_pos_left n hpm
      exact Or.inl (by exact_mod_cast hn.trans this)
    · exact Or.inr (by omega)

theorem mul_spec {a b : UnpackedFloat} (ha : IsRounded a) (hb : IsRounded b) :
    IsRounded (mul .binary32 a b) ∧ number (mul .binary32 a b) = rounded (number a * number b) := by
  cases a with
  | infinity s => exact ha.elim
  | notANumber => exact ha.elim
  | zero s =>
    have hz : number (.zero s) = 0 := rfl
    rw [hz, zero_mul, rounded_zero]
    cases b with
    | infinity t => exact hb.elim
    | notANumber => exact hb.elim
    | zero t => exact ⟨trivial, rfl⟩
    | finite t n f hn => exact ⟨trivial, rfl⟩
  | finite s m e hm =>
    cases b with
    | infinity t => exact hb.elim
    | notANumber => exact hb.elim
    | zero t =>
      have hz : number (.zero t) = 0 := rfl
      rw [hz, mul_zero, rounded_zero]
      exact ⟨trivial, rfl⟩
    | finite t n f hn =>
      have hpos : (0 : ℚ) < (m * n : ℕ) := by exact_mod_cast Nat.mul_pos hm hn
      have hspec := roundWithAccuracy_spec (s * t) (e := e + f) (residue_exact (m * n))
        (Int.floor_natCast _) hpos (le_gridExponent (le_or_eq_of_mul ha hb hm hn))
      refine ⟨hspec.1, hspec.2.trans ?_⟩
      rw [← rounded_signFactor_mul, signFactor_mul, zpow_add₀ (by norm_num), number, number]
      congr 1
      push_cast
      ring

theorem residue_fraction (k : ℕ) {n : ℕ} (hn : 0 < n) :
    Residue (.ofMantissaAndAccuracy (k / n) (accuracyOfFraction (k % n) n)) (k / n) := by
  have hn' : (0 : ℚ) < n := by exact_mod_cast hn
  have hfloor : ⌊(k : ℚ) / n⌋ = (k / n : ℕ) := by
    exact_mod_cast Rat.floor_natCast_div_natCast k n
  have hfract : Int.fract ((k : ℚ) / n) = (k % n : ℕ) / n := Int.fract_div_natCast_eq_div_natCast_mod
  have hhalf : 1 / 2 ≤ Int.fract ((k : ℚ) / n) ↔ n ≤ 2 * (k % n) := by
    rw [hfract, le_div_iff₀ hn', ← Nat.cast_le (α := ℚ)]
    push_cast
    constructor <;> intro h <;> linarith
  have htie : Int.fract ((k : ℚ) / n) = 1 / 2 ↔ 2 * (k % n) = n := by
    rw [hfract, div_eq_iff hn'.ne', ← Nat.cast_inj (R := ℚ)]
    push_cast
    constructor <;> intro h <;> linarith
  have hzero : Int.fract ((k : ℚ) / n) = 0 ↔ k % n = 0 := by
    rw [hfract, div_eq_zero_iff, Nat.cast_eq_zero, or_iff_left hn'.ne']
  rw [accuracyOfFraction]
  split_ifs with hz
  · rw [ExtendedMantissa.ofMantissaAndAccuracy]
    refine ⟨hfloor, ?_, ?_⟩
    · rw [hhalf, hz]
      simpa using hn.ne'
    · rw [ne_eq, hzero]
      simp [hz]
  · rcases lt_trichotomy (2 * (k % n)) n with h | h | h
    · rw [compare_lt_iff_lt.mpr h, ExtendedMantissa.ofMantissaAndAccuracy]
      refine ⟨hfloor, ?_, ?_⟩
      · rw [hhalf]
        simpa using h
      · rw [ne_eq, ne_eq, hzero, htie]
        simpa [hz] using h.ne
    · rw [compare_eq_iff_eq.mpr h, ExtendedMantissa.ofMantissaAndAccuracy]
      refine ⟨hfloor, ?_, ?_⟩
      · rw [hhalf]
        simpa using h.ge
      · rw [ne_eq, ne_eq, hzero, htie]
        simp [h]
    · rw [compare_gt_iff_gt.mpr h, ExtendedMantissa.ofMantissaAndAccuracy]
      refine ⟨hfloor, ?_, ?_⟩
      · rw [hhalf]
        simpa using h.le
      · rw [ne_eq, ne_eq, hzero, htie]
        simpa [hz] using h.ne'

theorem le_log_quotient {m n : ℕ} (hm : 0 < m) (hn : 0 < n) (e f : ℤ) :
    (m.log2 + e) - (n.log2 + f) - 1 ≤ Int.log 2 ((m * 2 ^ e) / (n * 2 ^ f) : ℚ) := by
  have hm' : (0 : ℚ) < m := by exact_mod_cast hm
  have hn' : (0 : ℚ) < n := by exact_mod_cast hn
  have hq : (0 : ℚ) < (m * 2 ^ e) / (n * 2 ^ f) := by
    have := two_zpow_pos e
    have := two_zpow_pos f
    positivity
  have hml : (2 : ℚ) ^ m.log2 ≤ m := by exact_mod_cast Nat.log2_self_le hm.ne'
  have hnl : (n : ℚ) ≤ 2 ^ (n.log2 + 1) := by exact_mod_cast Nat.lt_log2_self.le
  rw [← Int.zpow_le_iff_le_log (b := 2) (by norm_num) hq, Nat.cast_ofNat,
    le_div_iff₀ (mul_pos hn' (two_zpow_pos f))]
  calc (2 : ℚ) ^ ((m.log2 + e : ℤ) - (n.log2 + f) - 1) * (n * 2 ^ f)
      ≤ 2 ^ ((m.log2 + e : ℤ) - (n.log2 + f) - 1) * (2 ^ (n.log2 + 1) * 2 ^ f) := by
        gcongr
    _ = 2 ^ m.log2 * 2 ^ e := by
        rw [← zpow_natCast, ← zpow_natCast, ← zpow_add₀ (by norm_num), ← zpow_add₀ (by norm_num),
          ← zpow_add₀ (by norm_num)]
        congr 1
        push_cast
        ring
    _ ≤ m * 2 ^ e := by gcongr

theorem div_spec {a b : UnpackedFloat} (ha : IsRounded a) (hb : IsRounded b) (hz : number b ≠ 0) :
    IsRounded (div .binary32 a b) ∧ number (div .binary32 a b) = rounded (number a / number b) := by
  cases b with
  | infinity t => exact hb.elim
  | notANumber => exact hb.elim
  | zero t => exact absurd rfl hz
  | finite t n f hn =>
    cases a with
    | infinity s => exact ha.elim
    | notANumber => exact ha.elim
    | zero s =>
      have hz : number (.zero s) = 0 := rfl
      rw [hz, zero_div, rounded_zero]
      exact ⟨trivial, rfl⟩
    | finite s m e hm =>
      have hm' : (0 : ℚ) < m := by exact_mod_cast hm
      have hn' : (0 : ℚ) < n := by exact_mod_cast hn
      generalize hT : min (e - f) (Format.binary32.targetExponent (totalExponent m e - totalExponent n f)) = T
      generalize hk : (e - f - T).toNat = k
      have hdiv : div .binary32 (.finite s m e hm) (.finite t n f hn) =
          roundWithAccuracy .binary32 (s / t) (m <<< k / n) T (accuracyOfFraction (m <<< k % n) n) := by
        rw [← hk, ← hT]
        rfl
      have hvalue : ((m <<< k : ℕ) : ℚ) / n * 2 ^ T = (m * 2 ^ e) / (n * 2 ^ f) := by
        have hpow : (2 : ℚ) ^ e = 2 ^ k * 2 ^ T * 2 ^ f := by
          rw [← two_zpow_add, ← zpow_add₀ (by norm_num)]
          congr 1
          omega
        rw [Nat.shiftLeft_eq, hpow]
        push_cast
        field_simp
      have hpos : (0 : ℚ) < (m <<< k : ℕ) / n := by
        rw [Nat.shiftLeft_eq]
        push_cast
        positivity
      have hspec := roundWithAccuracy_spec (s / t) (e := T) (residue_fraction (m <<< k) hn)
        (by exact_mod_cast Rat.floor_natCast_div_natCast (m <<< k) n) hpos (by
          rw [hvalue, gridExponent, abs_of_pos (hvalue ▸ mul_pos hpos (two_zpow_pos T))]
          have hlog := le_log_quotient hm hn e f
          have ht : Format.binary32.targetExponent (totalExponent m e - totalExponent n f) =
            max (m.log2 + 1 + e - (n.log2 + 1 + f) - 24) (-149) := rfl
          omega)
      rw [hdiv]
      refine ⟨hspec.1, hspec.2.trans ?_⟩
      rw [hvalue, ← rounded_signFactor_mul, signFactor_div, number, number]
      congr 1
      cases t <;> simp only [signFactor] <;> field_simp

end ColorWords.Single
