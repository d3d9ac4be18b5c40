import ColorWords.Proofs.Single.Nearest

/-! # The rationals that singles stand for

`Denotes x q` says that the single `x` is finite and stands for `q`. Operations denote
the rounded exact result as long as it is below the range, comparisons of singles are
those of the rationals, and a rational other than zero has one single at most.
-/
namespace ColorWords.Single
open Float.Model (Format UnpackedFloat totalExponent)
open Float.Model.UnpackedFloat

def value (x : Float32) : ℚ := number x.toModel.unpack

structure Denotes (x : Float32) (q : ℚ) : Prop where
  finite : x.isFinite = true
  eq : value x = q

variable {a b x y : Float32} {p q : ℚ}

theorem packable_toModel (x : Float32) : Packable x.toModel.unpack :=
  packable_unpack x.toModel.toBits.toBitVec

theorem isRounded_toModel (h : x.isFinite = true) : IsRounded x.toModel.unpack := by
  have hp := packable_toModel x
  change x.toModel.unpack.isFinite = true at h
  cases hx : x.toModel.unpack with
  | zero s => trivial
  | finite s m e hm =>
    rw [hx] at hp
    exact hp.1
  | infinity s => simp [hx, isFinite] at h
  | notANumber => simp [hx, isFinite] at h

theorem unpack_toModel_ofModel {f : UnpackedFloat} (h : Packable f) :
    (Float32.ofModel (.pack f)).toModel.unpack = f := unpack_pack h

theorem abs_number_finite (s : Sign) (m : ℕ) (e : ℤ) (hm : 0 < m) :
    |number (.finite s m e hm)| = m * 2 ^ e := by
  have hnonneg : (0 : ℚ) ≤ m * 2 ^ e := by positivity
  cases s <;> simp [number, signFactor]

theorem packable_of_lt {f : UnpackedFloat} (hf : IsRounded f) (h : |number f| < 2 ^ 128) : Packable f := by
  cases f with
  | zero s => trivial
  | infinity s => trivial
  | notANumber => trivial
  | finite s m e hm =>
    refine ⟨hf, ?_⟩
    by_contra hlarge
    have hm23 : (2 : ℚ) ^ 23 ≤ m := by
      exact_mod_cast hf.2.2.resolve_right (by omega)
    have hpow : (2 : ℚ) ^ (105 : ℤ) ≤ 2 ^ e := zpow_le_zpow_right₀ (by norm_num) (by omega)
    have hprod := mul_le_mul hm23 hpow (by norm_num) (by positivity)
    rw [abs_number_finite] at h
    norm_num at hprod h
    linarith

theorem denotes_pack {f : UnpackedFloat} (hf : IsRounded f) (h : |number f| < 2 ^ 128) :
    Denotes (.ofModel (.pack f)) (number f) := by
  have hu := unpack_toModel_ofModel (packable_of_lt hf h)
  constructor
  · change (Float32.ofModel (.pack f)).toModel.unpack.isFinite = true
    rw [hu]
    cases f with
    | zero s => rfl
    | finite s m e hm => rfl
    | infinity s => exact hf.elim
    | notANumber => exact hf.elim
  · rw [value, hu]

theorem Denotes.isRounded (h : Denotes x q) : IsRounded x.toModel.unpack := isRounded_toModel h.finite

theorem Denotes.representable (h : Denotes x q) : Representable q := by
  rw [← h.eq]
  exact representable_number h.isRounded

/-- What a single that denotes a rational unpacks to. -/
theorem Denotes.unpack_cases (h : Denotes x q) :
    (∃ s, x.toModel.unpack = .zero s ∧ q = 0) ∨
      ∃ s m e hm, x.toModel.unpack = .finite s m e hm ∧ Canonical m e ∧ e ≤ 104 ∧
        q = number (.finite s m e hm) := by
  have hf := h.isRounded
  have hp := packable_toModel x
  have hq := h.eq.symm
  rw [value] at hq
  cases hx : x.toModel.unpack with
  | infinity s =>
    rw [hx] at hf
    exact hf.elim
  | notANumber =>
    rw [hx] at hf
    exact hf.elim
  | zero s =>
    rw [hx] at hq
    exact .inl ⟨s, rfl, hq⟩
  | finite s m e hm =>
    rw [hx] at hp hq
    exact .inr ⟨s, m, e, hm, rfl, hp.1, hp.2, hq⟩

/-- No single is above the largest one. -/
theorem Denotes.abs_le (h : Denotes x q) : |q| ≤ (2 ^ 24 - 1) * 2 ^ (104 : ℤ) := by
  obtain ⟨s, -, rfl⟩ | ⟨s, m, e, hm, -, hc, he, rfl⟩ := h.unpack_cases
  · rw [abs_zero]
    positivity
  · have hm24 : (m : ℚ) ≤ 2 ^ 24 - 1 := by
      have hnat : m + 1 ≤ 2 ^ 24 := hc.1
      have hcast : (m : ℚ) + 1 ≤ 2 ^ 24 := by exact_mod_cast hnat
      linarith
    rw [abs_number_finite]
    exact mul_le_mul hm24 (zpow_le_zpow_right₀ (by norm_num) he) (two_zpow_pos e).le (by norm_num)

theorem Denotes.abs_lt (h : Denotes x q) : |q| < 2 ^ 128 := h.abs_le.trans_lt (by norm_num)

theorem denotes_value (h : x.isFinite = true) : Denotes x (value x) := ⟨h, rfl⟩

structure Near (d : ℚ) (x y : Float32) : Prop where
  finite : x.isFinite = true ∧ y.isFinite = true
  abs_sub_le : |value x - value y| ≤ d

theorem Denotes.near {d : ℚ} (hx : Denotes x p) (hy : Denotes y q) (h : |p - q| ≤ d) :
    Near d x y := by
  refine ⟨⟨hx.finite, hy.finite⟩, ?_⟩
  rwa [hx.eq, hy.eq]

theorem denotes_of_unpack {s : Sign} {m : ℕ} {e : ℤ} {hm : 0 < m}
    (h : x.toModel.unpack = .finite s m e hm) : Denotes x (signFactor s * (m * 2 ^ e)) := by
  constructor
  · change x.toModel.unpack.isFinite = true
    rw [h]
    rfl
  · rw [value, h]
    rfl

/-- The specification of an operation on unpacked floats carries over to singles. -/
theorem denotes_of_spec {f : UnpackedFloat} {r : ℚ} (hspec : IsRounded f ∧ number f = rounded r)
    (h : |rounded r| < 2 ^ 128) : Denotes (.ofModel (.pack f)) (rounded r) := by
  rw [← hspec.2] at h ⊢
  exact denotes_pack hspec.1 h

theorem Denotes.add (ha : Denotes a p) (hb : Denotes b q) (h : |rounded (p + q)| < 2 ^ 128) :
    Denotes (a + b) (rounded (p + q)) := by
  have hspec := add_spec ha.isRounded hb.isRounded
  change IsRounded _ ∧ _ = rounded (value a + value b) at hspec
  rw [ha.eq, hb.eq] at hspec
  exact denotes_of_spec hspec h

theorem Denotes.sub (ha : Denotes a p) (hb : Denotes b q) (h : |rounded (p - q)| < 2 ^ 128) :
    Denotes (a - b) (rounded (p - q)) := by
  have hspec := sub_spec ha.isRounded hb.isRounded
  change IsRounded _ ∧ _ = rounded (value a - value b) at hspec
  rw [ha.eq, hb.eq] at hspec
  exact denotes_of_spec hspec h

theorem Denotes.mul (ha : Denotes a p) (hb : Denotes b q) (h : |rounded (p * q)| < 2 ^ 128) :
    Denotes (a * b) (rounded (p * q)) := by
  have hspec := mul_spec ha.isRounded hb.isRounded
  change IsRounded _ ∧ _ = rounded (value a * value b) at hspec
  rw [ha.eq, hb.eq] at hspec
  exact denotes_of_spec hspec h

theorem Denotes.div (ha : Denotes a p) (hb : Denotes b q) (hq : q ≠ 0) (h : |rounded (p / q)| < 2 ^ 128) :
    Denotes (a / b) (rounded (p / q)) := by
  have hspec := div_spec ha.isRounded hb.isRounded (hb.eq.trans_ne hq)
  change IsRounded _ ∧ _ = rounded (value a / value b) at hspec
  rw [ha.eq, hb.eq] at hspec
  exact denotes_of_spec hspec h

theorem Denotes.neg (ha : Denotes a p) : Denotes (-a) (-p) := by
  have hnumber : number a.toModel.unpack.neg = -p := by rw [number_neg, ← ha.eq, value]
  have hpack := denotes_pack (isRounded_neg ha.isRounded)
  rw [hnumber, abs_neg] at hpack
  exact hpack ha.abs_lt

theorem Denotes.add_exact (ha : Denotes a p) (hb : Denotes b q) (hr : Representable (p + q))
    (h : |p + q| < 2 ^ 128) : Denotes (a + b) (p + q) := by
  have hadd := ha.add hb
  rw [rounded_of_representable hr] at hadd
  exact hadd h

theorem Denotes.sub_exact (ha : Denotes a p) (hb : Denotes b q) (hr : Representable (p - q))
    (h : |p - q| < 2 ^ 128) : Denotes (a - b) (p - q) := by
  have hsub := ha.sub hb
  rw [rounded_of_representable hr] at hsub
  exact hsub h

theorem Denotes.mul_exact (ha : Denotes a p) (hb : Denotes b q) (hr : Representable (p * q))
    (h : |p * q| < 2 ^ 128) : Denotes (a * b) (p * q) := by
  have hmul := ha.mul hb
  rw [rounded_of_representable hr] at hmul
  exact hmul h

theorem canonical_lt {m n : ℕ} {e f : ℤ} (hm : Canonical m e) (hn : Canonical n f)
    (h : e < f) : (m * 2 ^ e : ℚ) < n * 2 ^ f := by
  have hn23 : 2 ^ 23 ≤ n := hn.2.2.resolve_right (by have := hm.2.1; omega)
  have hm24 : (m : ℚ) < 2 ^ 24 := by exact_mod_cast hm.1
  calc (m * 2 ^ e : ℚ) < 2 ^ 24 * 2 ^ e := mul_lt_mul_of_pos_right hm24 (two_zpow_pos e)
    _ = 2 ^ 23 * 2 ^ (e + 1) := by
        rw [zpow_add₀ (by norm_num)]
        ring
    _ ≤ n * 2 ^ f := by
        have hpow : (2 : ℚ) ^ (e + 1) ≤ 2 ^ f := zpow_le_zpow_right₀ (by norm_num) (by omega)
        have hn' : (2 : ℚ) ^ 23 ≤ n := by exact_mod_cast hn23
        exact mul_le_mul hn' hpow (two_zpow_pos _).le (by positivity)

theorem canonical_inj {m n : ℕ} {e f : ℤ} (hm : Canonical m e) (hn : Canonical n f)
    (h : (m * 2 ^ e : ℚ) = n * 2 ^ f) : m = n ∧ e = f := by
  rcases lt_trichotomy e f with hlt | rfl | hlt
  · exact absurd h (canonical_lt hm hn hlt).ne
  · have hmn := mul_right_cancel₀ (two_zpow_pos e).ne' h
    exact ⟨by exact_mod_cast hmn, rfl⟩
  · exact absurd h (canonical_lt hn hm hlt).ne'

theorem isRounded_inj {f g : UnpackedFloat} (hf : IsRounded f) (hg : IsRounded g)
    (h : number f = number g) (hne : number f ≠ 0) : f = g := by
  cases f with
  | infinity s => exact hf.elim
  | notANumber => exact hf.elim
  | zero s => exact absurd rfl hne
  | finite s m e hm =>
    cases g with
    | infinity t => exact hg.elim
    | notANumber => exact hg.elim
    | zero t => exact absurd h hne
    | finite t n f hn =>
      have hpm : (0 : ℚ) < m * 2 ^ e := mul_pos (by exact_mod_cast hm) (two_zpow_pos e)
      have hpn : (0 : ℚ) < n * 2 ^ f := mul_pos (by exact_mod_cast hn) (two_zpow_pos f)
      cases s <;> cases t <;> simp only [number, signFactor, one_mul, neg_one_mul, neg_inj] at h
      · obtain ⟨rfl, rfl⟩ := canonical_inj hf hg h
        rfl
      · linarith
      · linarith
      · obtain ⟨rfl, rfl⟩ := canonical_inj hf hg h
        rfl

theorem eq_of_unpack_eq (h : x.toModel.unpack = y.toModel.unpack) : x = y :=
  Float32.toBits_inj.mp (UInt32.toBitVec_inj.mp
    ((unpack_inj_of_valid x.toModel.valid y.toModel.valid).mp h))

/-- A rational other than zero has one single at most. -/
theorem Denotes.unique (hx : Denotes x q) (hy : Denotes y q) (hq : q ≠ 0) : x = y :=
  eq_of_unpack_eq (isRounded_inj hx.isRounded hy.isRounded (hx.eq.trans hy.eq.symm) (hx.eq.trans_ne hq))

end ColorWords.Single
