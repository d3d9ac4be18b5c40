import ColorWords.Proofs.Single.Denotation
import ColorWords.Single.CubeRoot

/-! # Cube roots are rounded to the nearest single

The cube root of a rational need not be rational, so it is told from above and from below by the
rationals whose cubes are not below and not above that rational. The whole root of a mantissa with
the accuracy of what is left describes the root closely enough to round it.
-/
namespace ColorWords.Single
open Float.Model (Format UnpackedFloat)
open Float.Model.UnpackedFloat

variable {x : Float32} {em : ExtendedMantissa} {n r : ℕ} {p q : ℚ}

theorem cube_le_cube {s t : ℚ} : s ^ 3 ≤ t ^ 3 ↔ s ≤ t :=
  (Odd.strictMono_pow (by decide)).le_iff_le

theorem cube_lt_cube {s t : ℚ} : s ^ 3 < t ^ 3 ↔ s < t :=
  (Odd.strictMono_pow (by decide)).lt_iff_lt

/-- `p` is the cube root of `q` rounded. -/
structure RoundedRoot (p q : ℚ) : Prop where
  rounded_le : ∀ t : ℚ, t ^ 3 ≤ q → rounded t ≤ p
  le_rounded : ∀ t : ℚ, q ≤ t ^ 3 → p ≤ rounded t

theorem roundedRoot_zero : RoundedRoot 0 0 := by
  constructor <;> intro t ht <;> rw [← rounded_zero] <;> apply rounded_mono <;>
    rwa [← cube_le_cube, zero_pow (by norm_num)]

theorem RoundedRoot.neg (h : RoundedRoot p q) : RoundedRoot (-p) (-q) := by
  constructor <;> intro t ht
  · have hle := h.le_rounded (-t) (by linarith [Odd.neg_pow (by decide : Odd 3) t])
    rw [rounded_neg] at hle
    linarith
  · have hle := h.rounded_le (-t) (by linarith [Odd.neg_pow (by decide : Odd 3) t])
    rw [rounded_neg] at hle
    linarith

theorem RoundedRoot.signFactor_mul (h : RoundedRoot p q) (s : Sign) :
    RoundedRoot (signFactor s * p) (signFactor s * q) := by
  cases s with
  | negative => simpa [signFactor] using h.neg
  | positive => simpa [signFactor] using h

theorem RoundedRoot.below_range (h : RoundedRoot p q) (hq : |q| < 2 ^ 128) : |p| < 2 ^ 128 := by
  have hbound : Representable (2 ^ 43) := ⟨1, 43, by norm_num, by norm_num, by norm_num⟩
  obtain ⟨hl, hu⟩ := abs_lt.mp hq
  have hlow := h.rounded_le (-2 ^ 43) (by norm_num at hl ⊢; linarith)
  have hhigh := h.le_rounded (2 ^ 43) (by norm_num at hu ⊢; linarith)
  rw [rounded_of_representable hbound.neg] at hlow
  rw [rounded_of_representable hbound] at hhigh
  rw [abs_lt]
  constructor <;> norm_num at hlow hhigh ⊢ <;> linarith

/-- The cube root of `n` has the residue `em`, told by rationals beyond which it is not. -/
structure RootResidue (em : ExtendedMantissa) (n : ℕ) : Prop where
  above : ∀ t : ℚ, t ^ 3 ≤ n → ∃ z, t ≤ z ∧ Residue em z
  below : ∀ t : ℚ, n ≤ t ^ 3 → ∃ z, z ≤ t ∧ Residue em z

theorem rootResidue_of_eq {z : ℚ} (hz : z ^ 3 = n) (h : Residue em z) : RootResidue em n := by
  constructor <;> intro t ht <;> rw [← hz, cube_le_cube] at ht <;> exact ⟨z, ht, h⟩

theorem rootResidue_of_between {l u : ℚ} (hl : l ^ 3 < n) (hu : n < u ^ 3)
    (h : ∀ z, l < z → z < u → Residue em z) : RootResidue em n := by
  have hlu : l < u := cube_lt_cube.mp (hl.trans hu)
  constructor <;> intro t ht
  · have htu : t < u := cube_lt_cube.mp (ht.trans_lt hu)
    exact ⟨max t ((l + u) / 2), le_max_left _ _, h _ (lt_max_of_lt_right (by linarith))
      (max_lt htu (by linarith))⟩
  · have hlt : l < t := cube_lt_cube.mp (hl.trans_le ht)
    exact ⟨min t ((l + u) / 2), min_le_left _ _, h _ (lt_min hlt (by linarith))
      (min_lt_of_right_lt (by linarith))⟩

theorem fract_of_cell {z : ℚ} (hl : r ≤ z) (hu : z < r + 1) : ⌊z⌋ = r ∧ Int.fract z = z - r := by
  have hfloor : ⌊z⌋ = r := Int.floor_eq_iff.mpr ⟨by exact_mod_cast hl, by exact_mod_cast hu⟩
  exact ⟨hfloor, by rw [Int.fract, hfloor, Int.cast_natCast]⟩

theorem residue_lower {z : ℚ} (hl : r < z) (hu : z < r + 1 / 2) :
    Residue (.ofMantissaAndAccuracy r (.inexact .lt)) z := by
  obtain ⟨hfloor, hfract⟩ := fract_of_cell hl.le (by linarith)
  have hhalf : z - r < 1 / 2 := by linarith
  rw [ExtendedMantissa.ofMantissaAndAccuracy]
  refine ⟨hfloor, ?_, ?_⟩ <;> rw [hfract]
  · exact iff_of_false Bool.false_ne_true (not_le.mpr hhalf)
  · exact iff_of_true rfl ⟨sub_ne_zero.mpr hl.ne', hhalf.ne⟩

theorem residue_middle : Residue (.ofMantissaAndAccuracy r (.inexact .eq)) (r + 1 / 2) := by
  obtain ⟨hfloor, hfract⟩ := fract_of_cell (z := r + 1 / 2) (r := r) (by linarith) (by linarith)
  rw [ExtendedMantissa.ofMantissaAndAccuracy]
  refine ⟨hfloor, ?_, ?_⟩ <;> rw [hfract] <;> simp

theorem residue_upper {z : ℚ} (hl : r + 1 / 2 < z) (hu : z < r + 1) :
    Residue (.ofMantissaAndAccuracy r (.inexact .gt)) z := by
  obtain ⟨hfloor, hfract⟩ := fract_of_cell (by linarith) hu
  have hhalf : 1 / 2 < z - r := by linarith
  rw [ExtendedMantissa.ofMantissaAndAccuracy]
  refine ⟨hfloor, ?_, ?_⟩ <;> rw [hfract]
  · exact iff_of_true rfl hhalf.le
  · exact iff_of_true rfl ⟨by linarith, hhalf.ne'⟩

theorem cast_wholeCube (k : ℕ) : (wholeCube k : ℚ) = k ^ 3 := by
  rw [wholeCube]
  push_cast
  ring

theorem rootResidue_whole (hl : wholeCube r ≤ n) (hu : n < wholeCube (r + 1)) :
    RootResidue (.ofMantissaAndAccuracy r (if wholeCube r = n then .exact
      else .inexact (compare (8 * n) (wholeCube (2 * r + 1))))) n := by
  have hhalf : ((r : ℚ) + 1 / 2) ^ 3 = wholeCube (2 * r + 1) / 8 := by
    rw [cast_wholeCube]
    push_cast
    ring
  have hhigh : (n : ℚ) < (r + 1) ^ 3 := by
    have hcast : (n : ℚ) < wholeCube (r + 1) := by exact_mod_cast hu
    rwa [cast_wholeCube, Nat.cast_add, Nat.cast_one] at hcast
  split_ifs with h
  · exact rootResidue_of_eq (by rw [← cast_wholeCube, h]) (residue_exact r)
  have hlow : (r : ℚ) ^ 3 < n := by
    rw [← cast_wholeCube]
    exact_mod_cast lt_of_le_of_ne hl h
  rcases lt_trichotomy (8 * n) (wholeCube (2 * r + 1)) with h8 | h8 | h8
  · have hcast : (8 * n : ℚ) < wholeCube (2 * r + 1) := by exact_mod_cast h8
    rw [compare_lt_iff_lt.mpr h8]
    exact rootResidue_of_between hlow (by linarith) fun z => residue_lower
  · have hcast : (8 * n : ℚ) = wholeCube (2 * r + 1) := by exact_mod_cast h8
    rw [compare_eq_iff_eq.mpr h8]
    exact rootResidue_of_eq (by linarith) residue_middle
  · have hcast : (wholeCube (2 * r + 1) : ℚ) < 8 * n := by exact_mod_cast h8
    rw [compare_gt_iff_gt.mpr h8]
    exact rootResidue_of_between (by linarith) hhigh fun z => residue_upper

theorem le_wholeCubeRoot {k : ℕ} (h : 2 ^ (3 * k) ≤ n) : 2 ^ k ≤ wholeCubeRoot n := by
  have hspec := (wholeCubeRoot_spec n).2
  by_contra hlt
  have hcube : (wholeCubeRoot n + 1) ^ 3 ≤ (2 ^ k) ^ 3 := Nat.pow_le_pow_left (by omega) 3
  rw [← pow_mul, mul_comm k 3] at hcube
  have heq : wholeCube (wholeCubeRoot n + 1) = (wholeCubeRoot n + 1) ^ 3 := by
    rw [wholeCube]
    ring
  omega

/-- The shift makes the exponent a multiple of three and leaves more digits than a single has. -/
theorem cubeRootParts_spec {m : ℕ} {e : ℤ} (hm : 0 < m) (hm24 : m < 2 ^ 24) :
    ∃ n : ℕ, 2 ^ 23 ≤ (cubeRootParts m e).1 ∧ (m * 2 ^ e : ℚ) = n * (2 ^ (cubeRootParts m e).2.1) ^ 3 ∧
      RootResidue (.ofMantissaAndAccuracy (cubeRootParts m e).1 (cubeRootParts m e).2.2) n := by
  have hlog : m.log2 < 24 := (Nat.log2_lt hm.ne').mpr hm24
  simp only [cubeRootParts]
  generalize hE : (e + m.log2 - 78) / 3 = E
  generalize hk : (e - 3 * E).toNat = k
  have hlarge : 2 ^ (3 * 26) ≤ m <<< k := by
    rw [Nat.shiftLeft_eq]
    calc 2 ^ (3 * 26) ≤ 2 ^ (m.log2 + k) := Nat.pow_le_pow_right (by norm_num) (by omega)
      _ = 2 ^ m.log2 * 2 ^ k := pow_add _ _ _
      _ ≤ m * 2 ^ k := Nat.mul_le_mul_right _ (Nat.log2_self_le hm.ne')
  refine ⟨m <<< k, ?_, ?_, ?_⟩
  · exact le_trans (by norm_num) (le_wholeCubeRoot hlarge)
  · have hexp : e = k + 3 * E := by omega
    rw [hexp, Nat.shiftLeft_eq, zpow_add₀ (by norm_num), zpow_natCast, mul_comm 3 E, zpow_mul, zpow_ofNat]
    push_cast
    ring
  · exact rootResidue_whole (wholeCubeRoot_spec _).1 (wholeCubeRoot_spec _).2

theorem mantissa_ofMantissaAndAccuracy (m : ℕ) (a : Accuracy) :
    (ExtendedMantissa.ofMantissaAndAccuracy m a).mantissa = m := by
  cases a with
  | exact => rfl
  | inexact o => cases o <;> rfl

theorem Residue.roundWithAccuracy {a : Accuracy} {z : ℚ} (h : Residue (.ofMantissaAndAccuracy r a) z)
    (hr : 2 ^ 23 ≤ r) (s : Sign) (e : ℤ) :
    IsRounded (roundWithAccuracy .binary32 s r e a) ∧
      number (roundWithAccuracy .binary32 s r e a) = signFactor s * rounded (z * 2 ^ e) := by
  have hfloor : ⌊z⌋ = r := by rw [h.floor, mantissa_ofMantissaAndAccuracy]
  have hr23 : (2 : ℚ) ^ 23 ≤ r := by exact_mod_cast hr
  have hrz : (r : ℚ) ≤ z := by exact_mod_cast Int.le_floor.mp hfloor.ge
  exact roundWithAccuracy_spec s h hfloor (by linarith) (le_gridExponent (.inl (by linarith)))

theorem roundWithAccuracy_root (s : Sign) {a : Accuracy} (h : RootResidue (.ofMantissaAndAccuracy r a) n)
    (hr : 2 ^ 23 ≤ r) (e : ℤ) :
    IsRounded (roundWithAccuracy .binary32 s r e a) ∧
      RoundedRoot (number (roundWithAccuracy .binary32 s r e a)) (signFactor s * (n * (2 ^ e) ^ 3)) := by
  have hpow := two_zpow_pos e
  obtain ⟨y, -, hy⟩ := h.above 0 (by positivity)
  obtain ⟨hf, hnumber⟩ := hy.roundWithAccuracy hr s e
  have hsame (z : ℚ) (hz : Residue (.ofMantissaAndAccuracy r a) z) :
      rounded (y * 2 ^ e) = rounded (z * 2 ^ e) := by
    have heq := hnumber.symm.trans (hz.roundWithAccuracy hr s e).2
    cases s <;> simpa [signFactor] using heq
  refine ⟨hf, ?_⟩
  rw [hnumber]
  refine RoundedRoot.signFactor_mul ⟨fun t ht => ?_, fun t ht => ?_⟩ s
  · obtain ⟨z, htz, hz⟩ := h.above (t / 2 ^ e) (by rwa [div_pow, div_le_iff₀ (by positivity)])
    rw [hsame z hz]
    exact rounded_mono ((div_le_iff₀ hpow).mp htz)
  · obtain ⟨z, hzt, hz⟩ := h.below (t / 2 ^ e) (by rwa [div_pow, le_div_iff₀ (by positivity)])
    rw [hsame z hz]
    exact rounded_mono ((le_div_iff₀ hpow).mp hzt)

/-- The cube root of a finite single is the single nearest to the real cube root. -/
theorem denotes_cubeRoot (h : Denotes x q) : ∃ p, Denotes (cubeRoot x) p ∧ RoundedRoot p q := by
  obtain ⟨s, hx, rfl⟩ | ⟨s, m, e, hm, hx, hc, -, rfl⟩ := h.unpack_cases
  · have hself : cubeRoot x = x := by rw [cubeRoot, hx]
    exact ⟨0, by rwa [hself], roundedRoot_zero⟩
  · obtain ⟨n, hr, hq, hres⟩ := cubeRootParts_spec (e := e) hm hc.1
    obtain ⟨hf, hroot⟩ := roundWithAccuracy_root s hres hr (cubeRootParts m e).2.1
    rw [← hq] at hroot
    have hself : cubeRoot x = .ofModel (.pack (roundWithAccuracy .binary32 s (cubeRootParts m e).1
        (cubeRootParts m e).2.1 (cubeRootParts m e).2.2)) := by
      rw [cubeRoot, hx]
    rw [hself]
    exact ⟨_, denotes_pack hf (hroot.below_range h.abs_lt), hroot⟩

end ColorWords.Single
