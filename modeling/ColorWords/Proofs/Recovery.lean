import ColorWords.Proofs.Circle
import ColorWords.Proofs.Exchange
import ColorWords.Proofs.Hues
import ColorWords.Proofs.Single.Floor

/-! # Colors from hue, saturation and lightness

The channels that hue, saturation and lightness lead back to are off by some roundings, far
less than half a step of a byte. So the nearest bytes are the ones that the color was read from.
-/
namespace ColorWords.Model.Hsl
open Single

/-! ## The channels at the ends -/

section Ends
variable (h : Hsl)

def high : Float32 :=
  if h.lightness < 0.5 then h.lightness * (1 + h.saturation)
  else h.lightness + h.saturation - h.lightness * h.saturation

def low : Float32 := 2 * h.lightness - h.high

end Ends

theorem toSrgb_eq (h : Hsl) :
    toSrgb h = if h.saturation == 0 then ⟨h.lightness, h.lightness, h.lightness⟩
      else ⟨channelAt h.low h.high (h.hue - floor h.hue + 1 / 3), channelAt h.low h.high (h.hue - floor h.hue),
        channelAt h.low h.high (h.hue - floor h.hue - 1 / 3)⟩ :=
  rfl

structure Numbers.Describe (n : Numbers) (h : Hsl) : Prop where
  hue : Denotes h.hue n.hue
  saturation : Denotes h.saturation n.saturation
  lightness : Denotes h.lightness n.lightness

/-- The channels are at most some roundings from the numbers. -/
structure Numbers.Near (n : Numbers) (c : Channels) : Prop where
  first : Around (256 * slip) c.first n.r
  second : Around (256 * slip) c.second n.g
  third : Around (256 * slip) c.third n.b

variable {n : Numbers} {h : Hsl} {c q : ℚ} {x : Float32}

theorem Numbers.abs_lightness_le_one (n : Numbers) : |n.lightness| ≤ 1 := by
  obtain ⟨h0, h1⟩ := n.lightness_unit
  exact abs_le.mpr ⟨by linarith, h1⟩

theorem Numbers.room_of_half_le (hlight : 1 / 2 ≤ n.lightness) : n.room = 1 - n.lightness := by
  rw [room]
  split_ifs
  · rfl
  · linarith

namespace Numbers.Describe
variable (hd : n.Describe h) (hne : n.top ≠ n.bottom)
include hd hne

theorem around_dark : Around (3 * slip) (h.lightness * (1 + h.saturation)) (n.lightness * (1 + n.saturation)) := by
  obtain ⟨hs0, hs1⟩ := saturation_unit hne
  have htwo : |1 + n.saturation| ≤ 2 := abs_le.mpr ⟨by linarith, by linarith⟩
  have hsum := denotes_one.around.add hd.saturation.around (by linarith)
  exact (hd.lightness.around.mul hsum n.abs_lightness_le_one htwo (by norm_num [slip])).mono (by norm_num [slip])

theorem around_light : Around (3 * slip) (h.lightness + h.saturation - h.lightness * h.saturation)
    (n.lightness + n.saturation - n.lightness * n.saturation) := by
  obtain ⟨hs0, hs1⟩ := saturation_unit hne
  have hs : |n.saturation| ≤ 1 := abs_le.mpr ⟨by linarith, hs1⟩
  have hl := n.abs_lightness_le_one
  have htwo := abs_add_le n.lightness n.saturation
  have hone := abs_mul_le_mul hl hs
  have hthree := abs_sub (n.lightness + n.saturation) (n.lightness * n.saturation)
  have hsum := hd.lightness.around.add hd.saturation.around (by linarith)
  have hproduct := hd.lightness.around.mul hd.saturation.around hl hs (by norm_num)
  have hdiff := hsum.sub hproduct (by norm_num [slip]; linarith)
  exact hdiff.mono (by norm_num [slip])

/-- Both formulas add to the lightness what the saturation takes of the room. -/
theorem around_high : Around (10 * slip) h.high n.top := by
  suffices haround : Around (3 * slip) h.high (n.lightness + n.room * n.saturation) from
    (haround.shift (abs_high_sub_le hne)).mono (by norm_num [slip])
  rw [high]
  split_ifs with hdark
  · rw [hd.lightness.lt_iff denotes_half] at hdark
    have hroom : n.lightness + n.room * n.saturation = n.lightness * (1 + n.saturation) := by
      rw [room, if_neg hdark.le.not_gt]
      ring
    rw [hroom]
    exact hd.around_dark hne
  · rw [hd.lightness.lt_iff denotes_half, not_lt] at hdark
    have hroom : n.lightness + n.room * n.saturation = n.lightness + n.saturation - n.lightness * n.saturation := by
      rw [room_of_half_le hdark]
      ring
    rw [hroom]
    exact hd.around_light hne

theorem around_low : Around (16 * slip) h.low n.bottom := by
  obtain ⟨-, hbottom0, hbottom1⟩ := n.bottom_unit
  have hdouble : |2 * n.lightness - (n.top + n.bottom)| ≤ 4 * slip := by
    have hlightness := abs_le.mp n.abs_lightness_sub_le
    exact abs_le.mpr ⟨by linarith, by linarith⟩
  have hproduct := denotes_two.around.mul hd.lightness.around (abs_of_pos two_pos).le n.abs_lightness_le_one
    (by norm_num)
  have hdiff := (hproduct.shift hdouble).sub (hd.around_high hne) (by
    rw [add_sub_cancel_left, abs_of_nonneg hbottom0]
    norm_num [slip]
    linarith)
  rw [add_sub_cancel_left] at hdiff
  exact hdiff.mono (by norm_num [slip])

/-! ## The channels between -/

/-- The channel that stands `c` sixths of a turn from the hue. -/
theorem around_channelAt (hc : -2 ≤ c) (hc' : c ≤ 2) (hx : Around (2 * slip) x (n.hue + c / 6))
    (hq : |n.bottom + n.span * wave (n.sextant + c) - q| ≤ 5 * slip) :
    Around (256 * slip) (channelAt h.low h.high x) q := by
  obtain ⟨lo, hlow, hlo⟩ := hd.around_low hne
  obtain ⟨hi, hhigh, hhi⟩ := hd.around_high hne
  obtain ⟨τ, hτ, hturn⟩ := hx
  obtain ⟨hhue0, hhue1⟩ := hue_bounds hne
  obtain ⟨hspan0, hspan1⟩ := n.span_bounds
  obtain ⟨-, hbottom0, hbottom1⟩ := n.bottom_unit
  have hslip : slip ≤ 1 / 1000 := by norm_num [slip]
  have hspread : |hi - lo - n.span| ≤ 26 * slip := by
    rw [abs_le] at hlo hhi ⊢
    rw [span]
    exact ⟨by linarith, by linarith⟩
  have hspan : |n.span| ≤ 1 := abs_le.mpr ⟨by linarith, hspan1⟩
  have hheight : |lo + (hi - lo) * wave (6 * τ) - q| ≤ 128 * slip := by
    have hcrest : |wave (6 * τ)| ≤ 2 := abs_le.mpr ⟨by linarith [(wave_bounds (6 * τ)).1], (wave_bounds _).2⟩
    have hfirst := abs_mul_le_mul hspread hcrest
    have hsecond := abs_mul_le_mul hspan (abs_wave_turn_sub_le hne hc hc' hturn)
    rw [abs_le] at hlo hfirst hsecond hq ⊢
    exact ⟨by linarith, by linarith⟩
  have hchannel := Hsl.around_channelAt hlow hhigh hτ
    (by rw [abs_le] at hlo ⊢; exact ⟨by linarith, by linarith⟩)
    (by rw [abs_le] at hspread ⊢; exact ⟨by linarith, by linarith⟩)
    (by rw [abs_le] at hturn; linarith) (by rw [abs_le] at hturn; linarith)
  exact (hchannel.shift hheight).mono (by norm_num [slip])

theorem hue_sub_floor : Denotes (h.hue - floor h.hue) n.hue := by
  obtain ⟨hhue0, hhue1⟩ := hue_bounds hne
  have hfloor := hd.hue.floor_of_lt_one hhue0 hhue1
  have hsub := hd.hue.sub_exact hfloor
  rw [sub_zero] at hsub
  exact hsub hd.hue.representable hd.hue.abs_lt

theorem near_of_saturation_ne (hs : ¬ (h.saturation == 0) = true) : n.Near (toSrgb h) := by
  obtain ⟨hred, hgreen, hblue⟩ := inWave hne
  obtain ⟨hhue0, hhue1⟩ := hue_bounds hne
  have hhue := (hd.hue_sub_floor hne).around
  have hthird := around_div denotes_one denotes_three (by norm_num) (by norm_num)
  have hnext := hhue.add hthird (by
    rw [abs_of_nonneg (by linarith)]
    norm_num [slip]
    linarith)
  have hprevious := hhue.sub hthird (by
    have hle : |n.hue - 1 / 3| ≤ 1 := abs_le.mpr ⟨by linarith, by linarith⟩
    norm_num [slip] at hle ⊢
    linarith)
  rw [toSrgb_eq, if_neg hs]
  refine ⟨hd.around_channelAt hne (by norm_num) le_rfl ?_ hred,
    hd.around_channelAt hne (by norm_num) (by norm_num) ?_ hgreen,
    hd.around_channelAt hne le_rfl (by norm_num) ?_ hblue⟩
  · have hturn : n.hue + 2 / 6 = n.hue + 1 / 3 := by norm_num
    rw [hturn]
    exact hnext.mono (by norm_num [slip])
  · rw [zero_div, add_zero]
    exact hhue.mono (by norm_num [slip])
  · have hturn : n.hue + -2 / 6 = n.hue - 1 / 3 := by ring
    rw [hturn]
    exact hprevious.mono (by norm_num [slip])

end Numbers.Describe

/-! ## Colors that are taken for gray -/

/-- Where the channels hardly spread, the lightness is near all of them. -/
theorem near_of_saturation_eq (hlightness : Denotes h.lightness n.lightness) (hspan : n.span ≤ 10 * slip)
    (hs : (h.saturation == 0) = true) : n.Near (toSrgb h) := by
  have hmiddle := abs_le.mp n.abs_lightness_sub_le
  have hchannel {q : ℚ} (hq : q ∈ [n.r, n.g, n.b]) : Around (256 * slip) h.lightness q := by
    have htop := Numbers.le_top hq
    have hbottom := Numbers.bottom_le hq
    have hpos := slip_pos
    rw [Numbers.span] at hspan
    refine (hlightness.around.shift (e := 7 * slip) (abs_le.mpr ⟨?_, ?_⟩)).mono (by norm_num [slip]) <;> linarith
  rw [toSrgb_eq, if_pos hs]
  exact ⟨hchannel Numbers.red_mem, hchannel Numbers.green_mem, hchannel Numbers.blue_mem⟩

theorem Numbers.span_le_of_saturation_eq_zero (hne : n.top ≠ n.bottom) (hs : n.saturation = 0) :
    n.span ≤ 10 * slip := by
  have hhalf := abs_le.mp (abs_room_mul_sub_le hne)
  rw [hs, mul_zero] at hhalf
  linarith

theorem Numbers.Describe.near (hd : n.Describe h) (hne : n.top ≠ n.bottom) : n.Near (toSrgb h) := by
  by_cases hs : (h.saturation == 0) = true
  · have hzero := (hd.saturation.beq_iff denotes_zero).mp hs
    exact near_of_saturation_eq hd.lightness (span_le_of_saturation_eq_zero hne hzero) hs
  · exact hd.near_of_saturation_ne hne hs

/-- Channels of the unit interval are found again. -/
theorem Numbers.Of.near_toSrgb {v : Channels} (hv : n.Of v) :
    n.Near (toSrgb ⟨(ofSrgb v).hue, clampUnit (ofSrgb v).saturation, clampUnit (ofSrgb v).lightness⟩) := by
  have hunit {x : Float32} {q : ℚ} (hx : Denotes x q) (hq : 0 ≤ q ∧ q ≤ 1) : Denotes (clampUnit x) q := by
    have hclamp := hx.clampUnit
    rwa [clampUnit_of_mem hq] at hclamp
  by_cases heq : n.top = n.bottom
  · have hspan : n.span ≤ 10 * slip := by
      rw [span, heq, sub_self]
      exact mul_nonneg (by norm_num) slip_pos.le
    rw [ofSrgb_of_gray hv heq]
    have hgray := ((hunit denotes_zero ⟨le_rfl, zero_le_one⟩).beq_iff denotes_zero).mpr rfl
    exact near_of_saturation_eq (hunit hv.lightness n.lightness_unit) hspan hgray
  · obtain ⟨hhue, hsaturation, hlightness⟩ := ofSrgb_of_chromatic hv heq
    exact Describe.near ⟨hhue, hunit hsaturation (saturation_unit heq), hunit hlightness n.lightness_unit⟩ heq

end ColorWords.Model.Hsl

namespace ColorWords.Rgb
open Layout Single Model

/-! ## Bytes -/

/-- A value near the fraction of a byte leads to the byte. -/
theorem nearestByte_of_around {x : Float32} {b : ℕ} (hb : b < 256) (h : Around (1 / 2 ^ 10) x (b / 255)) :
    (nearestByte x).toNat = b := by
  have hbyte := cast_byte_le hb
  obtain ⟨q, hunit, hq⟩ := h.clampUnit ⟨by positivity, by linarith⟩
  have hbyte0 : (0 : ℚ) ≤ b := Nat.cast_nonneg b
  obtain ⟨hlow, hhigh⟩ := abs_le.mp hq
  have hrange : |q * 255| < 256 := abs_lt.mpr ⟨by linarith, by linarith⟩
  have hgrid : (256 : ℚ) = 2 ^ 24 * 2 ^ (-16 : ℤ) := by norm_num
  obtain ⟨hdown, hup⟩ := abs_le.mp (abs_rounded_sub_le (hrange.trans_eq hgrid) (by norm_num))
  norm_num at hdown hup
  have hnear : |rounded (q * 255) - b| < 1 / 2 := abs_lt.mpr ⟨by linarith, by linarith⟩
  have hscaled : Denotes (clampUnit x * 255) (rounded (q * 255)) :=
    hunit.mul denotes_255 (abs_lt.mpr ⟨by linarith, by linarith⟩)
  rw [nearestByte, hscaled.nearest hnear (by omega)]
  exact UInt8.toNat_ofNat_of_lt' hb

/-- Alpha is divided by 254 and scaled to 255, and the bit that may differ is not stored. -/
theorem nearestByte_alpha (c : Rgb) : (nearestByte c.alpha).toUInt32 &&& opaqueByte = c.alphaByte :=
  forall_even_byte (p := fun b => (nearestByte (b.toFloat32 / 254)).toUInt32 &&& opaqueByte = b)
    (by set_option maxRecDepth 2000 in decide) (c.bits >>> alphaShift)

/-- Channels near the ones that are stored are packed to the same word. -/
theorem ofNearest_of_around {c : Rgb} {v : Channels} (h : c.Stored)
    (hfirst : Around (1 / 2 ^ 10) v.first ((c.byte .first).toNat / 255))
    (hsecond : Around (1 / 2 ^ 10) v.second ((c.byte .second).toNat / 255))
    (hthird : Around (1 / 2 ^ 10) v.third ((c.byte .third).toNat / 255)) : ofNearest v c.alpha = c := by
  have hbyte {x : Float32} {channel : Channel} (hx : Around (1 / 2 ^ 10) x ((c.byte channel).toNat / 255)) :
      (nearestByte x).toUInt32 = c.byte channel := by
    apply UInt32.toNat_inj.mp
    rw [UInt8.toNat_toUInt32]
    exact nearestByte_of_around (byteAt_lt c.bits channel.shift) hx
  have hred := hbyte hfirst
  have hgreen := hbyte hsecond
  have hblue := hbyte hthird
  obtain ⟨hr, hg, hb, ha⟩ := byteAt_ofBytes (nearestByte v.first) (nearestByte v.second) (nearestByte v.third)
    (nearestByte c.alpha)
  have hbits : (ofNearest v c.alpha).bits = c.bits := by
    rw [ofNearest]
    refine eq_of_byteAt fun shift hshift => ?_
    simp only [byteShifts, List.mem_cons, List.not_mem_nil, or_false] at hshift
    rcases hshift with rfl | rfl | rfl | rfl
    · exact hr.trans hred
    · exact hg.trans hgreen
    · exact hb.trans hblue
    · exact ha.trans ((nearestByte_alpha c).trans (Color.stored_iff.mp h).symm)
  obtain ⟨bits⟩ := c
  exact congrArg Color.mk hbits

/-- Hue, saturation and lightness lead back to the bytes of every color, and its alpha to its alpha. -/
theorem ofHsl_hsl (c : Rgb) (h : c.Stored) : ofHsl c.hsl c.alpha = c := by
  obtain ⟨n, hn⟩ := c.exists_numbers
  have hnear := hn.near_toSrgb
  have hfraction {x : Float32} {q : ℚ} {channel : Channel} (hq : Denotes (unit (c.byte channel)) q)
      (hx : Around (256 * slip) x q) : Around (1 / 2 ^ 10) x ((c.byte channel).toNat / 255) := by
    have hlt : (c.byte channel).toNat < 256 := byteAt_lt c.bits channel.shift
    have hvalue : q = rounded ((c.byte channel).toNat / 255) := hq.eq.symm.trans (denotes_unit _ hlt).eq
    rw [hvalue] at hx
    exact (hx.shift (abs_fraction_sub_le hlt)).mono (by norm_num [slip])
  exact ofNearest_of_around h (hfraction hn.first hnear.first) (hfraction hn.second hnear.second)
    (hfraction hn.third hnear.third)

theorem ofHsl_hsl_snow :
    let snow : Rgb := ⟨0x80FEFDFF⟩
    snow.Stored ∧ snow.hsl.hue ≠ 0 ∧ ofHsl snow.hsl snow.alpha = snow := by
  intro snow
  have hsnow : snow.Stored := by decide
  exact ⟨hsnow, by decide, ofHsl_hsl snow hsnow⟩

end ColorWords.Rgb
