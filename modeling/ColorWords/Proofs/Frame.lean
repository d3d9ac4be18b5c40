import ColorWords.Color.Edit
import ColorWords.Proofs.Alpha
import ColorWords.Proofs.Mixing

/-! # What an edit leaves alone

An edit writes the bytes it names, or stores channels anew next to the alpha it has read.
Every other byte of a stored color comes back as it was, whatever single says how far to go.
-/
namespace ColorWords
open Layout Single

def channelShifts : List UInt32 := [firstShift, secondShift, thirdShift]

def Space.lightnessShifts : Space → List UInt32
  | .rgb => channelShifts
  | .ipt | .oklab => [firstShift]

def Space.chromaShifts : Space → List UInt32
  | .rgb => channelShifts
  | .ipt | .oklab => [secondShift, thirdShift]

namespace Color
variable {s : Space} {c d : Color s} {shifts : List UInt32}

/-! ## Stored results -/

theorem stored_setByte (bits shift value : UInt32) : (⟨setByte bits shift value⟩ : Color s).Stored := by
  rw [Stored, setByte, UInt32.and_assoc, UInt32.and_self]

theorem stored_setAlpha (bits value : UInt32) : (⟨setAlpha bits value⟩ : Color s).Stored := by
  rw [stored_iff, byteAt_setAlpha]
  exact (alphaByte_setAlpha bits value).symm

theorem stored_withOpponents (c : Color s) (v : Channels) : (c.withOpponents v).Stored := by
  have hmask : byteAt alphaMask alphaShift = opaqueByte := by decide
  rw [stored_iff, alphaByte_withOpponents, withOpponents, alphaBits, byteAt_or, byteAt_opponentWord_alpha,
    UInt32.zero_or, byteAt_and, hmask, ← alphaByte_eq]
  rfl

theorem stored_scaleChroma (finish : Channels → Channels) (factor : Float32) (c : Rgb) :
    (Rgb.scaleChroma finish factor c).Stored :=
  stored_setAlpha _ _

theorem Limited.stored {gray : Float32} (hlimited : c.Limited gray) (h : c.Stored) : c.intoGamut.Stored := by
  cases hin : c.inGamut with
  | true => rwa [hlimited.unchanged hin]
  | false =>
    obtain ⟨k, -, hk, -⟩ := hlimited.contracted hin
    rw [hk]
    exact stored_withOpponents c _

theorem Stored.intoGamut (h : c.Stored) : c.intoGamut.Stored := by
  cases s with
  | rgb => rwa [intoGamut_of_inGamut rfl]
  | ipt => exact (limited_ipt c).stored h
  | oklab => exact (limited_oklab c).stored h

theorem stored_enrich (c : Color s) (change : Float32) : (c.enrich change).Stored := by
  cases s with
  | rgb => exact stored_scaleChroma _ _ c
  | ipt => exact (stored_withOpponents c _).intoGamut
  | oklab => exact (stored_withOpponents c _).intoGamut

theorem stored_dullen (c : Color s) (change : Float32) : (c.dullen change).Stored := by
  cases s with
  | rgb => exact stored_scaleChroma _ _ c
  | ipt => exact stored_withOpponents c _
  | oklab => exact stored_withOpponents c _

/-! ## Bytes that are not named -/

def SameExcept (shifts : List UInt32) (c d : Color s) : Prop :=
  ∀ shift ∈ byteShifts, shift ∉ shifts → byteAt d.bits shift = byteAt c.bits shift

theorem sameExcept_of_storedByte (hc : c.Stored) (hd : d.Stored)
    (h : ∀ shift ∈ byteShifts, shift ∉ shifts → storedByte d.bits shift = storedByte c.bits shift) :
    c.SameExcept shifts d := by
  intro shift hshift hnot
  apply UInt32.toNat_inj.mp
  rw [← hd.storedByte_eq, ← hc.storedByte_eq, h shift hshift hnot]

theorem sameExcept_setByte (h : c.Stored) {shift : UInt32} (hshift : shift ∈ byteShifts) (value : UInt32) :
    c.SameExcept [shift] ⟨setByte c.bits shift value⟩ := by
  refine sameExcept_of_storedByte h (stored_setByte _ _ _) fun other hother hnot => ?_
  exact storedByte_setByte_of_ne hshift hother (by simpa using hnot) _ _

theorem sameExcept_setAlpha (bits value : UInt32) :
    SameExcept [alphaShift] (⟨bits⟩ : Color s) ⟨setAlpha bits value⟩ :=
  fun _ hshift hnot => byteAt_setAlpha_of_ne hshift (by simpa using hnot) _ _

theorem sameExcept_channels (hc : c.Stored) (hd : d.Stored) (h : d.alphaByte = c.alphaByte) :
    c.SameExcept channelShifts d := by
  intro shift hshift hnot
  have halpha : shift = alphaShift := by
    by_contra hne
    exact hnot (channel_of_ne_alpha hshift hne)
  rw [halpha, stored_iff.mp hd, stored_iff.mp hc, h]

/-! ## Frames of edits -/

variable (change : Float32)

theorem sameExcept_raise (h : c.Stored) (channel : Channel) :
    c.SameExcept [channel.shift] (c.raise channel change) :=
  sameExcept_setByte h (List.mem_append_left [alphaShift] (Channel.shift_mem channel)) _

theorem sameExcept_lower (h : c.Stored) (channel : Channel) :
    c.SameExcept [channel.shift] (c.lower channel change) :=
  sameExcept_setByte h (List.mem_append_left [alphaShift] (Channel.shift_mem channel)) _

theorem sameExcept_lighten (h : c.Stored) : c.SameExcept s.lightnessShifts (c.lighten change) := by
  cases s with
  | rgb => exact sameExcept_channels h (stored_setByte _ _ _) (alphaByte_lighten c change)
  | ipt => exact sameExcept_raise change h .first
  | oklab => exact sameExcept_raise change h .first

theorem sameExcept_darken (h : c.Stored) : c.SameExcept s.lightnessShifts (c.darken change) := by
  cases s with
  | rgb => exact sameExcept_channels h (stored_setByte _ _ _) (alphaByte_darken c change)
  | ipt => exact sameExcept_lower change h .first
  | oklab => exact sameExcept_lower change h .first

/-- Scaled opponent values are stored with the lightness byte that they were read with. -/
theorem sameExcept_scaleOpponents (h : c.Stored) (factor : Float32) :
    c.SameExcept [secondShift, thirdShift] (c.scaleOpponents factor) := by
  intro shift hshift hnot
  simp only [byteShifts, List.mem_cons, List.not_mem_nil, or_false, not_or] at hshift hnot
  rcases hshift with rfl | rfl | rfl | rfl
  · rw [scaleOpponents, byteAt_withOpponents c _ (by decide), byteAt_opponentWord_first]
    exact unitByte_unit _ (byteAt_lt _ _)
  · exact absurd rfl hnot.1
  · exact absurd rfl hnot.2
  · rw [scaleOpponents, stored_iff.mp (stored_withOpponents c _), alphaByte_withOpponents, stored_iff.mp h]

theorem sameExcept_dullen (h : c.Stored) : c.SameExcept s.chromaShifts (c.dullen change) := by
  cases s with
  | rgb => exact sameExcept_channels h (stored_dullen c change) (alphaByte_dullen c change)
  | ipt => exact sameExcept_scaleOpponents h _
  | oklab => exact sameExcept_scaleOpponents h _

theorem ofBits_setAlpha (bits value : UInt32) :
    (ofBits (setAlpha bits value) : Color s) = ⟨setAlpha bits value⟩ :=
  congrArg Color.mk (stored_setAlpha (s := s) bits value)

/-- What the edits of a color by one amount leave alone. -/
structure Framed (c : Color s) (change : Float32) : Prop where
  raise : ∀ channel : Channel, c.SameExcept [channel.shift] (c.raise channel change)
  lower : ∀ channel : Channel, c.SameExcept [channel.shift] (c.lower channel change)
  lighten : c.SameExcept s.lightnessShifts (c.lighten change)
  darken : c.SameExcept s.lightnessShifts (c.darken change)
  enrich : c.SameExcept channelShifts (c.enrich change)
  dullen : c.SameExcept s.chromaShifts (c.dullen change)
  opacify : c.SameExcept [alphaShift] (c.opacify change)
  fade : c.SameExcept [alphaShift] (c.fade change)
  intoGamut : c.SameExcept channelShifts c.intoGamut

theorem Stored.framed (h : c.Stored) : c.Framed change where
  raise := sameExcept_raise change h
  lower := sameExcept_lower change h
  lighten := sameExcept_lighten change h
  darken := sameExcept_darken change h
  enrich := sameExcept_channels h (stored_enrich c change) (alphaByte_enrich c change)
  dullen := sameExcept_dullen change h
  opacify := by
    rw [Color.opacify, Layout.opacify, ofBits_setAlpha]
    exact sameExcept_setAlpha _ _
  fade := by
    rw [Color.fade, Layout.fade, ofBits_setAlpha]
    exact sameExcept_setAlpha _ _
  intoGamut := sameExcept_channels h h.intoGamut (alphaByte_intoGamut c)

end Color

/-! ## Contrast and additive edits -/

theorem Ipt.sameExcept_contrasting {c : Ipt} (h : c.Stored) (background : Ipt) :
    c.SameExcept [firstShift] (c.contrasting background) := by
  rw [Ipt.contrasting]
  split
  case isTrue => exact fun _ _ _ => rfl
  case isFalse => exact Color.sameExcept_setByte h (by decide) _

/-- An opacity of nothing, of either sign, leaves the fraction of an alpha byte exact. -/
theorem clampUnit_add_fraction {opacity : Float32} (h : opacity = 0 ∨ opacity = -0) (w : UInt32) :
    clampUnit (opacity + (w &&& opaqueByte).toFloat32 / 254) = (w &&& opaqueByte).toFloat32 / 254 := by
  refine forall_even_byte (p := fun a => clampUnit (opacity + a.toFloat32 / 254) = a.toFloat32 / 254) ?_ w
  rcases h with rfl | rfl <;> set_option maxRecDepth 2000 in decide

theorem Ipt.byteAt_edited_alpha (c : Ipt) (hue saturation intensity : Float32) {opacity : Float32}
    (h : opacity = 0 ∨ opacity = -0) :
    byteAt (c.edited hue saturation intensity opacity).bits alphaShift = c.alphaByte := by
  have halpha : packAlpha (clampUnit (opacity + c.alpha)) = c.alphaByte <<< alphaShift := by
    rw [Color.alpha, Layout.alpha, alphaByte, clampUnit_add_fraction h, packAlpha_fraction]
    rfl
  have hbyte : byteAt (c.alphaByte <<< alphaShift) alphaShift = c.alphaByte :=
    byteAt_shiftLeft_self (and_opaqueByte_lt _) (by decide)
  have hneutral : byteAt 0x00808000 alphaShift = 0 := by decide
  simp only [Ipt.edited]
  split
  case isTrue => rw [halpha, byteAt_or, hbyte, hneutral, UInt32.or_zero]
  case isFalse => rw [Ipt.byteAt_ofSrgb_alpha, halpha, hbyte]

theorem Ipt.sameExcept_edited {c : Ipt} (h : c.Stored) (hue saturation intensity : Float32) {opacity : Float32}
    (hopacity : opacity = 0 ∨ opacity = -0) :
    c.SameExcept channelShifts (c.edited hue saturation intensity opacity) := by
  have halpha := c.byteAt_edited_alpha hue saturation intensity hopacity
  have hbyte : (c.edited hue saturation intensity opacity).alphaByte = c.alphaByte := by
    rw [Color.alphaByte, alphaByte_eq, halpha, c.alphaByte_and]
  refine Color.sameExcept_channels h ?_ ?_
  · rw [Color.stored_iff, hbyte, halpha]
  · exact hbyte

/-! ## Descriptors of the chroma -/

namespace Oklab
variable {c d : Oklab}

theorem opponents_eq (h : c.SameExcept [firstShift] d) :
    d.channels.second = c.channels.second ∧ d.channels.third = c.channels.third :=
  ⟨congrArg opponent (h secondShift (by decide) (by decide)),
    congrArg opponent (h thirdShift (by decide) (by decide))⟩

theorem chroma_eq (h : c.SameExcept [firstShift] d) : d.chroma = c.chroma := by
  simp only [chroma, opponents_eq h]

theorem hue_eq (h : c.SameExcept [firstShift] d) : d.hue = c.hue := by
  have hsecond : d.byte .second = c.byte .second := h secondShift (by decide) (by decide)
  have hthird : d.byte .third = c.byte .third := h thirdShift (by decide) (by decide)
  have hneutral : d.isNeutral = c.isNeutral := by simp only [isNeutral, hsecond, hthird]
  simp only [hue, hneutral, opponents_eq h]

end Oklab

/-- Edits change no byte of a stored color but those they name. -/
theorem edits_framed :
    (∀ (s : Space) (c : Color s) (change : Float32), c.Stored → c.Framed change) ∧
      (∀ c background : Ipt, c.Stored → c.SameExcept [firstShift] (c.contrasting background)) ∧
      (∀ (c : Ipt) (hue saturation intensity opacity : Float32), c.Stored → (opacity = 0 ∨ opacity = -0) →
        c.SameExcept channelShifts (c.edited hue saturation intensity opacity)) ∧
      ∀ (c : Oklab) (change : Float32), c.Stored →
        (Oklab.hue (c.lighten change) = Oklab.hue c ∧ Oklab.chroma (c.lighten change) = Oklab.chroma c) ∧
          Oklab.hue (c.darken change) = Oklab.hue c ∧ Oklab.chroma (c.darken change) = Oklab.chroma c := by
  refine ⟨fun s c change h => h.framed change, fun c background h => Ipt.sameExcept_contrasting h background,
    fun c hue saturation intensity opacity h => Ipt.sameExcept_edited h hue saturation intensity, ?_⟩
  intro c change h
  have hlighten := Color.sameExcept_lighten change h
  have hdarken := Color.sameExcept_darken change h
  exact ⟨⟨Oklab.hue_eq hlighten, Oklab.chroma_eq hlighten⟩, Oklab.hue_eq hdarken, Oklab.chroma_eq hdarken⟩

theorem edits_framed_notNumber :
    let red : Rgb := ⟨0xFE2010F0⟩
    let glass : Ipt := ⟨0x40C08020⟩
    let rust : Oklab := ⟨0x90A86C70⟩
    let notNumber : Float32 := .ofBits 0x7FC00000
    red.Stored ∧ glass.Stored ∧ rust.Stored ∧
      red.Framed notNumber ∧ glass.Framed infinity ∧ rust.Framed (-3) ∧
      glass.SameExcept [firstShift] (glass.contrasting Ipt.gray) ∧
      glass.SameExcept channelShifts (glass.edited notNumber infinity 2 (-0)) ∧
      Oklab.hue (rust.lighten notNumber) = Oklab.hue rust ∧
      Oklab.chroma (rust.darken infinity) = Oklab.chroma rust := by
  intro red glass rust notNumber
  have hred : red.Stored := by decide
  have hglass : glass.Stored := by decide
  have hrust : rust.Stored := by decide
  obtain ⟨hframed, hcontrasting, hedited, hdescriptors⟩ := edits_framed
  exact ⟨hred, hglass, hrust,
    hframed _ red notNumber hred, hframed _ glass infinity hglass, hframed _ rust (-3) hrust,
    hcontrasting glass Ipt.gray hglass, hedited glass notNumber infinity 2 (-0) hglass (.inr rfl),
    (hdescriptors rust notNumber hrust).1.1, (hdescriptors rust infinity hrust).2.2⟩

end ColorWords
