import ColorWords.Proofs.Gamut

/-! # Lightness of limited colors

Limiting a color keeps some of 32 parts of its distance from the gray, and the stored lightness
rises with the signed distance that is kept. That rises with the lightness byte before, and with
the parts above the gray, and falls with them below. So of two colors the lighter one can end
darker only on one side of the gray and when it keeps fewer parts above, or more below.
-/
namespace ColorWords
open Layout Single

/-! ## Parts that are kept -/

theorem Gamut.firstAccepted_comp {α : Type} (build : ℕ → α) (accept : α → Bool) (n : ℕ) :
    firstAccepted build accept n = build (firstAccepted id (accept ∘ build) n) := by
  induction n with
  | zero => rfl
  | succ n ih =>
    simp only [firstAccepted, Function.comp_apply, id_eq, ih]
    split <;> rfl

namespace Color
variable {s : Space}

/-- How many of the 32 parts of its distance from the gray a color keeps when it is limited. -/
def keptParts (gray : Float32) (c : Color s) : ℕ :=
  if c.inGamut then Gamut.steps
  else Gamut.firstAccepted id (inGamut ∘ c.candidate gray) (Gamut.steps - 1)

theorem keptParts_le (gray : Float32) (c : Color s) : c.keptParts gray ≤ 32 := by
  rw [keptParts]
  split
  case isTrue => exact le_rfl
  case isFalse =>
    obtain ⟨k, hk, hfirst, -⟩ := Gamut.firstAccepted_spec id (inGamut ∘ c.candidate gray) (Gamut.steps - 1)
    rw [hfirst]
    exact hk.trans (Nat.sub_le _ _)

end Color

/-! ## Shades -/

def Layout.shade (gray : Float32) (byte : UInt32) (k : ℕ) : UInt32 :=
  unitByte (gray + (unit byte - gray) * (ofInt k / ofInt Gamut.steps))

theorem Color.byte_candidate {s : Space} (gray : Float32) (c : Color s) (k : ℕ) :
    (c.candidate gray k).byte .first = shade gray (c.byte .first) k := by
  have hmask : byteAt alphaMask firstShift = 0 := by decide
  rw [byte, candidate, Channel.shift, byteAt_withOpponents c _ hmask, byteAt_opponentWord_first]
  rfl

namespace Layout
variable {gray : Float32} {g u v : ℚ} {b c : UInt32} {j k : ℕ}

/-- The signed distance from `g` that keeps `k` of 32 parts. -/
def keptDistance (g u : ℚ) (k : ℕ) : ℚ := rounded (u - g) * (k / 32)

def shadeValue (g u : ℚ) (k : ℕ) : ℚ := rounded (g + rounded (keptDistance g u k))

theorem shadeValue_le (h : keptDistance g u j ≤ keptDistance g v k) : shadeValue g u j ≤ shadeValue g v k :=
  rounded_mono (add_le_add_right (rounded_mono h) g)

theorem keptDistance_mono (h : u ≤ v) : keptDistance g u k ≤ keptDistance g v k := by
  have hdistance : rounded (u - g) ≤ rounded (v - g) := rounded_mono (by linarith)
  exact mul_le_mul_of_nonneg_right hdistance (by positivity)

theorem keptDistance_le_of_gray_le (h : g ≤ u) (hjk : j ≤ k) : keptDistance g u j ≤ keptDistance g u k := by
  have hdistance : 0 ≤ rounded (u - g) := rounded_nonneg (by linarith)
  have hparts : (j : ℚ) / 32 ≤ k / 32 := by gcongr
  exact mul_le_mul_of_nonneg_left hparts hdistance

theorem keptDistance_le_of_le_gray (h : u ≤ g) (hjk : j ≤ k) : keptDistance g u k ≤ keptDistance g u j := by
  have hdistance : rounded (u - g) ≤ 0 := by
    have := rounded_mono (sub_nonpos.mpr h)
    rwa [rounded_zero] at this
  have hparts : (j : ℚ) / 32 ≤ k / 32 := by gcongr
  exact mul_le_mul_of_nonpos_left hparts hdistance

/-- The kept distance shrinks toward a lighter value only if both are above the gray and fewer parts are
kept, or both are below and more are. -/
theorem keptDistance_climbs (h : u ≤ v) (j k : ℕ) :
    keptDistance g u j ≤ keptDistance g v k ∨ g < u ∧ k < j ∨ v < g ∧ j < k := by
  rcases lt_or_ge g u with hu | hu
  · rcases lt_or_ge k j with hkj | hjk
    · exact .inr (.inl ⟨hu, hkj⟩)
    · exact .inl ((keptDistance_mono h).trans (keptDistance_le_of_gray_le (hu.le.trans h) hjk))
  · rcases lt_or_ge v g with hv | hv
    · rcases lt_or_ge j k with hjk | hkj
      · exact .inr (.inr ⟨hv, hjk⟩)
      · exact .inl ((keptDistance_le_of_le_gray hu hkj).trans (keptDistance_mono h))
    · have hgray : keptDistance g u 0 = keptDistance g v 0 := by simp [keptDistance]
      exact .inl ((keptDistance_le_of_le_gray hu (Nat.zero_le j)).trans
        (hgray.le.trans (keptDistance_le_of_gray_le hv (Nat.zero_le k))))

theorem denotes_part (hk : k ≤ 32) : Denotes (ofInt k / ofInt Gamut.steps) (k / 32) := by
  have hk32 : (k : ℚ) ≤ 32 := by exact_mod_cast hk
  have hrepresentable : Representable ((k : ℚ) / 32) :=
    ⟨k, -5, by rw [abs_of_nonneg] <;> omega, by norm_num, by norm_num [div_eq_mul_inv]⟩
  have hcount : Denotes (ofInt k) k := by
    exact_mod_cast denotes_ofInt (n := k) (by rw [abs_of_nonneg] <;> omega)
  have hsteps : Denotes (ofInt Gamut.steps) 32 := by exact_mod_cast denotes_ofInt (n := 32) (by norm_num)
  have hdiv := hcount.div hsteps (by norm_num)
  rw [rounded_of_representable hrepresentable, abs_of_nonneg (by positivity)] at hdiv
  exact hdiv (by linarith)

theorem denotes_shade (hg : Denotes gray g) (h0 : 0 ≤ g) (h1 : g ≤ 1) (hb : b.toNat < 256) (hk : k ≤ 32) :
    Denotes (gray + (unit b - gray) * (ofInt k / ofInt Gamut.steps)) (shadeValue g (rounded (b.toNat / 255)) k) ∧
      |shadeValue g (rounded (b.toNat / 255)) k| ≤ 2 := by
  have hone : Representable 1 := denotes_one.representable
  have htwo : Representable 2 := by exact_mod_cast representable_intCast (n := 2) (by norm_num)
  have hbyte := cast_byte_le hb
  have hunit := denotes_unit b hb
  have hunit0 : 0 ≤ rounded (b.toNat / 255 : ℚ) := rounded_nonneg (by positivity)
  have hunit1 : rounded (b.toNat / 255 : ℚ) ≤ 1 := rounded_le hone (by linarith)
  generalize rounded (b.toNat / 255 : ℚ) = u at *
  have hdistance : |rounded (u - g)| ≤ 1 := abs_rounded_le hone (abs_le.mpr ⟨by linarith, by linarith⟩)
  have hkept : |rounded (keptDistance g u k)| ≤ 1 := by
    have hpart : |(k : ℚ) / 32| ≤ 1 := by
      have hk32 : (k : ℚ) ≤ 32 := by exact_mod_cast hk
      rw [abs_of_nonneg (by positivity)]
      linarith
    refine abs_rounded_le hone ?_
    rw [keptDistance, abs_mul]
    exact mul_le_one₀ hdistance (abs_nonneg _) hpart
  have hshade : |shadeValue g u k| ≤ 2 := by
    refine abs_rounded_le htwo ((abs_add_le _ _).trans ?_)
    rw [abs_of_nonneg h0]
    linarith
  have hmul := (hunit.sub hg (hdistance.trans_lt (by norm_num))).mul (denotes_part hk) (hkept.trans_lt (by norm_num))
  exact ⟨hg.add hmul (hshade.trans_lt (by norm_num)), hshade⟩

theorem shade_le (hg : Denotes gray g) (h0 : 0 ≤ g) (h1 : g ≤ 1) (hb : b.toNat < 256) (hc : c.toNat < 256)
    (hj : j ≤ 32) (hk : k ≤ 32)
    (h : shadeValue g (rounded (b.toNat / 255)) j ≤ shadeValue g (rounded (c.toNat / 255)) k) :
    shade gray b j ≤ shade gray c k := by
  obtain ⟨hfirst, hfirst2⟩ := denotes_shade hg h0 h1 hb hj
  obtain ⟨hsecond, hsecond2⟩ := denotes_shade hg h0 h1 hc hk
  exact unitByte_mono hfirst hsecond hfirst2 hsecond2 h

/-- What keeps all parts keeps its byte, although the way to the gray and back is rounded. -/
theorem shade_steps (hg : Denotes gray g) (h0 : 0 ≤ g) (h1 : g ≤ 1) (hb : b.toNat < 256) :
    shade gray b Gamut.steps = b := by
  obtain ⟨hshade, -⟩ := denotes_shade hg h0 h1 hb (le_refl 32)
  refine unitByte_of_near hb hshade ?_
  have hbyte := cast_byte_le hb
  have hbyte0 : (0 : ℚ) ≤ b.toNat := Nat.cast_nonneg _
  have hunit := abs_le.mp (abs_fraction_sub_le hb)
  have hunit' := denotes_unit b hb
  rw [shadeValue, keptDistance]
  generalize rounded (b.toNat / 255 : ℚ) = u at *
  norm_num at hunit
  have hdistance := abs_le.mp (abs_rounded_sub_le_of_lt_two (q := u - g) (abs_lt.mpr ⟨by linarith, by linarith⟩))
  norm_num at hdistance
  have hrepresentable := (hunit'.sub hg (abs_lt.mpr ⟨by linarith, by linarith⟩)).representable
  have hkept : rounded (rounded (u - g) * ((32 : ℕ) / 32)) = rounded (u - g) := by
    rw [Nat.cast_ofNat, div_self (by norm_num), mul_one, rounded_of_representable hrepresentable]
  rw [hkept]
  generalize rounded (u - g) = d at *
  have hback := abs_le.mp (abs_rounded_sub_le_of_lt_two (q := g + d) (abs_lt.mpr ⟨by linarith, by linarith⟩))
  rw [abs_le]
  norm_num at hback ⊢
  constructor <;> linarith

end Layout

/-! ## Oklab -/

namespace Oklab
open Model.Oklab

/-- The lightness of a limited color depends on its byte before and on the parts that are kept. -/
theorem byte_intoGamut (c : Oklab) :
    c.intoGamut.byte .first = shade grayLightness (c.byte .first) (c.keptParts grayLightness) := by
  obtain ⟨hg, h0, h1⟩ := displayableGray_oklab.denotes
  cases hin : c.inGamut with
  | true =>
    rw [Color.intoGamut_of_inGamut hin, Color.keptParts, hin, if_pos rfl]
    exact (shade_steps hg h0.le h1 (byteAt_lt _ _)).symm
  | false =>
    have hcontract : c.intoGamut = c.contractTo grayLightness := by rw [Color.intoGamut, hin, if_neg (by simp)]
    have hcandidate : c.contractTo grayLightness = c.candidate grayLightness (c.keptParts grayLightness) := by
      rw [Color.keptParts, hin, if_neg (by simp)]
      exact Gamut.firstAccepted_comp (c.candidate grayLightness) Color.inGamut (Gamut.steps - 1)
    rw [hcontract, hcandidate, Color.byte_candidate]

/-- What limiting keeps of the signed distance of the lightness from the gray. -/
def keptDistance (c : Oklab) : ℚ :=
  Layout.keptDistance (value grayLightness) (rounded ((c.byte .first).toNat / 255)) (c.keptParts grayLightness)

/-- The more of the distance is kept the lighter a color ends. -/
theorem byte_intoGamut_le {c d : Oklab} (h : c.keptDistance ≤ d.keptDistance) :
    c.intoGamut.byte .first ≤ d.intoGamut.byte .first := by
  obtain ⟨hg, h0, h1⟩ := displayableGray_oklab.denotes
  rw [byte_intoGamut, byte_intoGamut]
  exact shade_le hg h0.le h1 (byteAt_lt _ _) (byteAt_lt _ _) (c.keptParts_le _) (d.keptParts_le _) (shadeValue_le h)

/-- Toward a lighter color the kept distance shrinks only if both are lighter than the gray and fewer
parts are kept, or neither is and more are. -/
theorem keptDistance_climbs {c d : Oklab} (h : c.byte .first ≤ d.byte .first) :
    c.keptDistance ≤ d.keptDistance ∨
      161 ≤ c.byte .first ∧ d.keptParts grayLightness < c.keptParts grayLightness ∨
      d.byte .first ≤ 160 ∧ c.keptParts grayLightness < d.keptParts grayLightness := by
  obtain ⟨hg, -, -⟩ := displayableGray_oklab.denotes
  have hdark : rounded ((160 : UInt32).toNat / 255 : ℚ) ≤ value grayLightness :=
    ((denotes_unit 160 (by decide)).le_iff hg).mp (by decide)
  have hlight : value grayLightness ≤ rounded ((161 : UInt32).toNat / 255 : ℚ) :=
    (hg.le_iff (denotes_unit 161 (by decide))).mp (by decide)
  have hunit {a b : UInt32} (hab : a ≤ b) : rounded (a.toNat / 255 : ℚ) ≤ rounded (b.toNat / 255) := by
    have hle : (a.toNat : ℚ) ≤ b.toNat := by exact_mod_cast UInt32.le_iff_toNat_le.mp hab
    exact rounded_mono (by linarith)
  have hbyte {a b : UInt32} (hab : rounded (a.toNat / 255 : ℚ) < rounded (b.toNat / 255)) : a.toNat < b.toNat :=
    UInt32.lt_iff_toNat_lt.mp (UInt32.not_le.mp fun hba => absurd hab (not_lt.mpr (hunit hba)))
  rcases Layout.keptDistance_climbs (g := value grayLightness) (hunit h) (c.keptParts grayLightness)
    (d.keptParts grayLightness) with hkept | ⟨habove, hkept⟩ | ⟨hbelow, hkept⟩
  · exact .inl hkept
  · have hlight160 : 160 < (c.byte .first).toNat := hbyte (hdark.trans_lt habove)
    exact .inr (.inl ⟨UInt32.le_iff_toNat_le.mpr hlight160, hkept⟩)
  · have hdark161 : (d.byte .first).toNat < 161 := hbyte (hbelow.trans_le hlight)
    exact .inr (.inr ⟨UInt32.le_iff_toNat_le.mpr (Nat.le_of_lt_succ hdark161), hkept⟩)

end Oklab
end ColorWords
