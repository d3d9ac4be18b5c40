import ColorWords.Adjustment
import ColorWords.Proofs.Gamut

/-! # Adjusting a color keeps its alpha

Lightness is written to the channels, opponent values are stored next to the alpha of the
color they replace, and an RGB color whose chroma has been scaled gets the alpha byte back
that it was read from.
-/
namespace ColorWords.Color
open Layout Single

variable {s : Space} (c : Color s) (change : Float32)

theorem Channel.shift_mem (channel : Channel) : channel.shift ∈ [firstShift, secondShift, thirdShift] := by
  cases channel <;> decide

theorem byte_lt (c : Color s) (channel : Channel) : (c.byte channel).toNat < 256 := byteAt_lt _ _

theorem alphaByte_raise (channel : Channel) : (c.raise channel change).alphaByte = c.alphaByte :=
  alphaByte_setByte (Channel.shift_mem channel) _ _

theorem alphaByte_lower (channel : Channel) : (c.lower channel change).alphaByte = c.alphaByte :=
  alphaByte_setByte (Channel.shift_mem channel) _ _

theorem alphaByte_lighten : (c.lighten change).alphaByte = c.alphaByte := by
  cases s with
  | rgb => simp only [lighten, alphaByte_raise]
  | ipt => exact c.alphaByte_raise change .first
  | oklab => exact c.alphaByte_raise change .first

theorem alphaByte_darken : (c.darken change).alphaByte = c.alphaByte := by
  cases s with
  | rgb => simp only [darken, alphaByte_lower]
  | ipt => exact c.alphaByte_lower change .first
  | oklab => exact c.alphaByte_lower change .first

theorem alphaByte_and (c : Color s) : c.alphaByte &&& opaqueByte = c.alphaByte := by
  rw [alphaByte, Layout.alphaByte, UInt32.and_assoc, UInt32.and_self]

/-- An alpha byte survives being read as a fraction and written again. -/
theorem nearest_alpha (c : Color s) : UInt32.ofNat (nearest 0xFFFFFFFF (c.alpha * 254)) = c.alphaByte :=
  forall_even_byte (p := fun a => UInt32.ofNat (nearest 0xFFFFFFFF (a.toFloat32 / 254 * 254)) = a)
    (by set_option maxRecDepth 2000 in decide) (c.bits >>> alphaShift)

theorem alphaByte_scaleChroma (finish : Channels → Channels) (factor : Float32) (c : Rgb) :
    (Rgb.scaleChroma finish factor c).alphaByte = c.alphaByte := by
  simp only [Rgb.scaleChroma, nearest_alpha]
  exact (alphaByte_setAlpha _ _).trans c.alphaByte_and

theorem alphaByte_intoGamut : c.intoGamut.alphaByte = c.alphaByte := by
  cases s with
  | rgb => rw [intoGamut_of_inGamut rfl]
  | ipt => exact (limited_ipt c).alphaByte
  | oklab => exact (limited_oklab c).alphaByte

theorem alphaByte_enrich : (c.enrich change).alphaByte = c.alphaByte := by
  cases s with
  | rgb => exact alphaByte_scaleChroma _ _ c
  | ipt => exact (alphaByte_intoGamut _).trans (c.alphaByte_withOpponents _)
  | oklab => exact (alphaByte_intoGamut _).trans (c.alphaByte_withOpponents _)

theorem alphaByte_dullen : (c.dullen change).alphaByte = c.alphaByte := by
  cases s with
  | rgb => exact alphaByte_scaleChroma _ _ c
  | ipt => exact c.alphaByte_withOpponents _
  | oklab => exact c.alphaByte_withOpponents _

theorem alphaByte_move {up down : Color s → Float32 → Color s} (hup : ∀ c x, (up c x).alphaByte = c.alphaByte)
    (hdown : ∀ c x, (down c x).alphaByte = c.alphaByte) :
    (Adjustment.move up down change c).alphaByte = c.alphaByte := by
  rw [Adjustment.move]
  split
  case isTrue => exact hup c _
  case isFalse =>
    split
    case isTrue => exact hdown c _
    case isFalse => rfl

/-- No adjustment of any size reaches alpha. -/
theorem alphaByte_apply (a : Adjustment) : (a.apply c).alphaByte = c.alphaByte := by
  rw [Adjustment.apply, alphaByte_move _ _ alphaByte_enrich alphaByte_dullen,
    alphaByte_move _ _ alphaByte_lighten alphaByte_darken]

end ColorWords.Color
