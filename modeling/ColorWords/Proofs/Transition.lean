import ColorWords.Proofs.Lightness
import ColorWords.Proofs.Single.Infinite

/-! # Transitions

The larger the part of a transition, the further each byte is on its way. A word goes over to
another one and alpha to opaque or to nothing, from exactly where they are to exactly there.
Rounding keeps the order of parts, and neither truncation nor the lowest bit of alpha changes it.
-/
namespace ColorWords.Layout
open Single

variable {start stop bits shift : UInt32} {x y : Float32} {c p q : ℚ}

/-! ## From word to word -/

structure Advances (s e b d : ℕ) : Prop where
  up : s ≤ e → s ≤ b ∧ b ≤ d ∧ d ≤ e
  down : e ≤ s → e ≤ d ∧ d ≤ b ∧ b ≤ s

theorem lerpByte_mono (hx : Denotes x p) (hy : Denotes y q) (h0 : 0 ≤ p) (hpq : p ≤ q) (h1 : q ≤ 1)
    (h : (byteAt start shift).toNat ≤ (byteAt stop shift).toNat) :
    (lerpByte start stop x shift).toNat ≤ (lerpByte start stop y shift).toNat := by
  rw [lerpByte_toNat hx h0 (hpq.trans h1), lerpByte_toNat hy (h0.trans hpq) h1]
  exact Int.toNat_le_toNat (Int.floor_mono (between_mono h hpq))

theorem lerpByte_antitone (hx : Denotes x p) (hy : Denotes y q) (h0 : 0 ≤ p) (hpq : p ≤ q) (h1 : q ≤ 1)
    (h : (byteAt stop shift).toNat ≤ (byteAt start shift).toNat) :
    (lerpByte start stop y shift).toNat ≤ (lerpByte start stop x shift).toNat := by
  rw [lerpByte_toNat hx h0 (hpq.trans h1), lerpByte_toNat hy (h0.trans hpq) h1]
  exact Int.toNat_le_toNat (Int.floor_mono (between_antitone h hpq))

theorem byteAt_lerp_toNat (hshift : shift ∈ byteShifts) (start stop : UInt32) (change : Float32) :
    (byteAt (lerp start stop change) shift).toNat = storedByte (lerp start stop change) shift := by
  rw [storedByte_lerp hshift, byteAt_lerp hshift]

theorem advances_lerp (hshift : shift ∈ byteShifts) (start stop : UInt32) (hx : Denotes x p) (hy : Denotes y q)
    (h0 : 0 ≤ p) (hpq : p ≤ q) (h1 : q ≤ 1) :
    Advances (storedByte start shift) (storedByte stop shift) (byteAt (lerp start stop x) shift).toNat
      (byteAt (lerp start stop y) shift).toNat := by
  have hfirst := storedByte_lerp_between hshift start stop hx h0 (hpq.trans h1)
  have hsecond := storedByte_lerp_between hshift start stop hy (h0.trans hpq) h1
  have hstep : storedByte start shift ≤ storedByte stop shift ∧
        storedByte (lerp start stop x) shift ≤ storedByte (lerp start stop y) shift ∨
      storedByte stop shift ≤ storedByte start shift ∧
        storedByte (lerp start stop y) shift ≤ storedByte (lerp start stop x) shift := by
    simp only [storedByte_lerp hshift, storedByte_eq]
    rcases le_total (byteAt start shift).toNat (byteAt stop shift).toNat with h | h
    · exact .inl ⟨and_storedMask_mono hshift (byteAt_lt stop shift) h,
        and_storedMask_mono hshift (lerpByte_lt start stop y shift) (lerpByte_mono hx hy h0 hpq h1 h)⟩
    · exact .inr ⟨and_storedMask_mono hshift (byteAt_lt start shift) h,
        and_storedMask_mono hshift (lerpByte_lt start stop x shift) (lerpByte_antitone hx hy h0 hpq h1 h)⟩
  rw [byteAt_lerp_toNat hshift, byteAt_lerp_toNat hshift]
  constructor <;> intro hside <;> omega

/-! ## Alpha -/

def raisedAlpha (bits : UInt32) (change : Float32) : UInt32 :=
  wholeWord ((alphaByte bits).toFloat32 + (opaqueByte - alphaByte bits).toFloat32 * change)

def loweredAlpha (bits : UInt32) (change : Float32) : UInt32 :=
  wholeWord ((alphaByte bits).toFloat32 * (1 - change))

theorem opacify_eq (bits : UInt32) (change : Float32) : opacify bits change = setAlpha bits (raisedAlpha bits change) := rfl

theorem fade_eq (bits : UInt32) (change : Float32) : fade bits change = setAlpha bits (loweredAlpha bits change) := rfl

theorem alphaByte_le (bits : UInt32) : alphaByte bits ≤ opaqueByte := UInt32.le_iff_toNat_le.mpr (and_opaqueByte_le _)

theorem alphaByte_lt (bits : UInt32) : (alphaByte bits).toNat < 256 := and_opaqueByte_lt _

theorem raisedAlpha_toNat (h : Denotes x p) (h0 : 0 ≤ p) (h1 : p ≤ 1) :
    (raisedAlpha bits x).toNat = ⌊between (alphaByte bits).toNat opaqueByte.toNat p⌋.toNat :=
  wholeWord_raised (alphaByte_le bits) (by decide) h h0 h1

theorem loweredAlpha_toNat (h : Denotes x p) (h0 : 0 ≤ p) (h1 : p ≤ 1) :
    (loweredAlpha bits x).toNat = ⌊lowered (alphaByte bits).toNat p⌋.toNat :=
  wholeWord_lowered (alphaByte_lt bits) h h0 h1

theorem raisedAlpha_zero (h : Denotes x 0) : raisedAlpha bits x = alphaByte bits := by
  apply UInt32.toNat_inj.mp
  rw [raisedAlpha_toNat h le_rfl zero_le_one, between_zero (alphaByte_lt bits), Int.floor_natCast, Int.toNat_natCast]

theorem raisedAlpha_one (h : Denotes x 1) : raisedAlpha bits x = opaqueByte := by
  apply UInt32.toNat_inj.mp
  rw [raisedAlpha_toNat h zero_le_one le_rfl, between_one (alphaByte_lt bits) (by decide), Int.floor_natCast,
    Int.toNat_natCast]

theorem loweredAlpha_zero (h : Denotes x 0) : loweredAlpha bits x = alphaByte bits := by
  apply UInt32.toNat_inj.mp
  rw [loweredAlpha_toNat h le_rfl zero_le_one, lowered_zero (alphaByte_lt bits), Int.floor_natCast, Int.toNat_natCast]

theorem loweredAlpha_one (h : Denotes x 1) : loweredAlpha bits x = 0 := by
  apply UInt32.toNat_inj.mp
  rw [loweredAlpha_toNat h zero_le_one le_rfl, lowered_one, Int.floor_zero]
  rfl

theorem raisedAlpha_mono (hx : Denotes x p) (hy : Denotes y q) (h0 : 0 ≤ p) (hpq : p ≤ q) (h1 : q ≤ 1)
    (bits : UInt32) : raisedAlpha bits x ≤ raisedAlpha bits y := by
  rw [UInt32.le_iff_toNat_le, raisedAlpha_toNat hx h0 (hpq.trans h1), raisedAlpha_toNat hy (h0.trans hpq) h1]
  exact Int.toNat_le_toNat (Int.floor_mono (between_mono (alphaByte_le bits) hpq))

theorem loweredAlpha_antitone (hx : Denotes x p) (hy : Denotes y q) (h0 : 0 ≤ p) (hpq : p ≤ q) (h1 : q ≤ 1)
    (bits : UInt32) : loweredAlpha bits y ≤ loweredAlpha bits x := by
  rw [UInt32.le_iff_toNat_le, loweredAlpha_toNat hx h0 (hpq.trans h1), loweredAlpha_toNat hy (h0.trans hpq) h1]
  exact Int.toNat_le_toNat (Int.floor_mono (lowered_antitone hpq))

/-- Alpha as it was read is written back. -/
theorem setAlpha_alphaByte (bits : UInt32) : setAlpha bits (alphaByte bits) = bits &&& storedMask := by
  refine eq_of_byteAt fun shift hshift => ?_
  by_cases hne : shift = alphaShift
  · rw [hne, byteAt_setAlpha, byteAt_and_storedMask_alpha, alphaByte, UInt32.and_assoc, UInt32.and_self]
  · rw [byteAt_setAlpha_of_ne hshift hne, byteAt_and_storedMask (channel_of_ne_alpha hshift hne)]

theorem byteAt_setAlpha_mono {v w : UInt32} (hw : w.toNat < 256) (h : v ≤ w) (bits : UInt32) :
    byteAt (setAlpha bits v) alphaShift ≤ byteAt (setAlpha bits w) alphaShift := by
  rw [byteAt_setAlpha, byteAt_setAlpha]
  exact and_opaqueByte_mono hw h

theorem byteAt_opacify_mono (hx : Denotes x p) (hy : Denotes y q) (h0 : 0 ≤ p) (hpq : p ≤ q) (h1 : q ≤ 1)
    (bits : UInt32) : byteAt (opacify bits x) alphaShift ≤ byteAt (opacify bits y) alphaShift := by
  have htop := raisedAlpha_mono hy denotes_one (h0.trans hpq) h1 le_rfl bits
  rw [raisedAlpha_one denotes_one] at htop
  have hlt : (raisedAlpha bits y).toNat < 256 := (UInt32.le_iff_toNat_le.mp htop).trans_lt (by decide)
  exact byteAt_setAlpha_mono hlt (raisedAlpha_mono hx hy h0 hpq h1 bits) bits

theorem byteAt_fade_antitone (hx : Denotes x p) (hy : Denotes y q) (h0 : 0 ≤ p) (hpq : p ≤ q) (h1 : q ≤ 1)
    (bits : UInt32) : byteAt (fade bits y) alphaShift ≤ byteAt (fade bits x) alphaShift := by
  have htop := loweredAlpha_antitone denotes_zero hx le_rfl h0 (hpq.trans h1) bits
  rw [loweredAlpha_zero denotes_zero] at htop
  have hlt : (loweredAlpha bits x).toNat < 256 := (UInt32.le_iff_toNat_le.mp htop).trans_lt (alphaByte_lt bits)
  exact byteAt_setAlpha_mono hlt (loweredAlpha_antitone hx hy h0 hpq h1 bits) bits

/-! ## The order of parts -/

/-- The part of a transition decides how far every byte is: none leaves the stored bits, the whole
leads to those of the other word, to opaque or to nothing, and a larger part leads no less far.
Only alpha is raised and faded, by whatever part. -/
theorem transitions_monotone (bits stop : UInt32) :
    (lerp bits stop 0 = bits &&& storedMask ∧ lerp bits stop 1 = stop &&& storedMask ∧
      ∀ x y : Float32, 0 ≤ x → x ≤ y → y ≤ 1 → ∀ shift ∈ byteShifts,
        Advances (storedByte bits shift) (storedByte stop shift) (byteAt (lerp bits stop x) shift).toNat
          (byteAt (lerp bits stop y) shift).toNat) ∧
      (opacify bits 0 = bits &&& storedMask ∧ byteAt (opacify bits 1) alphaShift = 0xFE ∧
        ∀ x y : Float32, 0 ≤ x → x ≤ y → y ≤ 1 →
          byteAt (opacify bits x) alphaShift ≤ byteAt (opacify bits y) alphaShift) ∧
      (fade bits 0 = bits &&& storedMask ∧ byteAt (fade bits 1) alphaShift = 0 ∧
        ∀ x y : Float32, 0 ≤ x → x ≤ y → y ≤ 1 →
          byteAt (fade bits y) alphaShift ≤ byteAt (fade bits x) alphaShift) ∧
      ∀ change : Float32, ∀ shift ∈ [firstShift, secondShift, thirdShift],
        byteAt (opacify bits change) shift = byteAt bits shift ∧ byteAt (fade bits change) shift = byteAt bits shift := by
  refine ⟨⟨lerp_zero denotes_zero bits stop, lerp_one denotes_one bits stop, ?_⟩, ⟨?_, ?_, ?_⟩, ⟨?_, ?_, ?_⟩, ?_⟩
  · intro x y h0 hxy h1 shift hshift
    obtain ⟨p, q, hx, hy, hp, hpq, hq⟩ := denotes_of_ordered h0 hxy h1
    exact advances_lerp hshift bits stop hx hy hp hpq hq
  · rw [opacify_eq, raisedAlpha_zero denotes_zero, setAlpha_alphaByte]
  · rw [opacify_eq, raisedAlpha_one denotes_one, byteAt_setAlpha]
    rfl
  · intro x y h0 hxy h1
    obtain ⟨p, q, hx, hy, hp, hpq, hq⟩ := denotes_of_ordered h0 hxy h1
    exact byteAt_opacify_mono hx hy hp hpq hq bits
  · rw [fade_eq, loweredAlpha_zero denotes_zero, setAlpha_alphaByte]
  · rw [fade_eq, loweredAlpha_one denotes_one, byteAt_setAlpha]
    rfl
  · intro x y h0 hxy h1
    obtain ⟨p, q, hx, hy, hp, hpq, hq⟩ := denotes_of_ordered h0 hxy h1
    exact byteAt_fade_antitone hx hy hp hpq hq bits
  · intro change shift hshift
    have hbyte : shift ∈ byteShifts := List.mem_append_left [alphaShift] hshift
    have hne : shift ≠ alphaShift := by
      rintro rfl
      exact absurd hshift (by decide)
    exact ⟨byteAt_setAlpha_of_ne hbyte hne bits _, byteAt_setAlpha_of_ne hbyte hne bits _⟩

/-- Alpha that is odd before it is stored, with bytes that rise and bytes that fall. -/
theorem transitions_monotone_odd :
    let glass : UInt32 := 0x41FF8010
    let wine : UInt32 := 0xFF002040
    (0 : Float32) ≤ 0.1 ∧ (0.1 : Float32) ≤ 0.7 ∧ (0.7 : Float32) ≤ 1 ∧
      (∀ shift ∈ byteShifts, Advances (storedByte glass shift) (storedByte wine shift)
        (byteAt (lerp glass wine 0.1) shift).toNat (byteAt (lerp glass wine 0.7) shift).toNat) ∧
      byteAt (opacify glass 0.1) alphaShift ≤ byteAt (opacify glass 0.7) alphaShift ∧
      byteAt (fade glass 0.7) alphaShift ≤ byteAt (fade glass 0.1) alphaShift ∧
      byteAt (fade glass infinity) secondShift = byteAt glass secondShift := by
  intro glass wine
  have h0 : (0 : Float32) ≤ 0.1 := by decide
  have hxy : (0.1 : Float32) ≤ 0.7 := by decide
  have h1 : (0.7 : Float32) ≤ 1 := by decide
  obtain ⟨⟨-, -, hlerp⟩, ⟨-, -, hopacify⟩, ⟨-, -, hfade⟩, hchannels⟩ := transitions_monotone glass wine
  exact ⟨h0, hxy, h1, hlerp _ _ h0 hxy h1, hopacify _ _ h0 hxy h1, hfade _ _ h0 hxy h1,
    (hchannels infinity secondShift (by decide)).2⟩

end ColorWords.Layout
