import ColorWords.Color.Descriptor
import ColorWords.Proofs.Layout
import ColorWords.Proofs.Single.Zero

/-! # Stored opponent channels

A lightness and two opponent values fill the three low bytes of a word, next to the
alpha of the color they replace. A byte that is read as a fraction is written back as it
was, and every stored channel is finite.
-/
namespace ColorWords
open Layout Single

theorem Layout.boundedByte_lt (x : Float32) : (boundedByte x).toNat < 256 := by
  obtain ⟨hlow, hhigh⟩ := bounded_mem (n := truncate x) (by norm_num : (0 : ℤ) ≤ 255)
  rw [boundedByte, ofInt_toNat hlow (by omega)]
  omega

theorem Layout.boundedByte_mono {x y : Float32} {p q : ℚ} (hx : Denotes x p) (hy : Denotes y q) (h : p ≤ q) :
    boundedByte x ≤ boundedByte y := by
  have hle := hx.truncate_mono hy h
  obtain ⟨hxlow, hxhigh⟩ := bounded_mem (n := Single.truncate x) (by norm_num : (0 : ℤ) ≤ 255)
  obtain ⟨hylow, hyhigh⟩ := bounded_mem (n := Single.truncate y) (by norm_num : (0 : ℤ) ≤ 255)
  rw [UInt32.le_iff_toNat_le, boundedByte, boundedByte, ofInt_toNat hxlow (by omega), ofInt_toNat hylow (by omega)]
  simp only [bounded]
  omega

/-- Three channel bytes leave the alpha byte empty, and are found again. -/
theorem byteAt_channels {a b c : UInt32} (ha : a.toNat < 256) (hb : b.toNat < 256) (hc : c.toNat < 256) :
    byteAt (a ||| b <<< secondShift ||| c <<< thirdShift) alphaShift = 0 ∧
      byteAt (a ||| b <<< secondShift ||| c <<< thirdShift) firstShift = a ∧
      byteAt (a ||| b <<< secondShift ||| c <<< thirdShift) secondShift = b ∧
      byteAt (a ||| b <<< secondShift ||| c <<< thirdShift) thirdShift = c := by
  have hword : a ||| b <<< secondShift ||| c <<< thirdShift =
      0 <<< alphaShift ||| c <<< thirdShift ||| b <<< secondShift ||| a := by
    rw [UInt32.zero_shiftLeft, UInt32.zero_or, UInt32.or_comm _ (c <<< thirdShift), UInt32.or_comm a,
      UInt32.or_assoc]
  obtain ⟨hfirst, hsecond, hthird, halpha⟩ :=
    byteAt_assembled ha hb hc (by decide : (0 : UInt32).toNat < 256) hword
  exact ⟨halpha, hfirst, hsecond, hthird⟩

theorem byteAt_opponentWord_alpha (v : Channels) : byteAt (opponentWord v) alphaShift = 0 :=
  (byteAt_channels (boundedByte_lt _) (boundedByte_lt _) (boundedByte_lt _)).1

theorem byteAt_opponentWord_first (v : Channels) : byteAt (opponentWord v) firstShift = unitByte v.first :=
  (byteAt_channels (boundedByte_lt _) (boundedByte_lt _) (boundedByte_lt _)).2.1

theorem byteAt_opponentWord_second (v : Channels) : byteAt (opponentWord v) secondShift = opponentByte v.second :=
  (byteAt_channels (boundedByte_lt _) (boundedByte_lt _) (boundedByte_lt _)).2.2.1

theorem byteAt_opponentWord_third (v : Channels) : byteAt (opponentWord v) thirdShift = opponentByte v.third :=
  (byteAt_channels (boundedByte_lt _) (boundedByte_lt _) (boundedByte_lt _)).2.2.2

namespace Color
variable {s : Space}

theorem alphaByte_withOpponents (c : Color s) (v : Channels) : (c.withOpponents v).alphaByte = c.alphaByte := by
  have hmask : byteAt alphaMask alphaShift &&& opaqueByte = opaqueByte := by decide
  simp only [alphaByte, alphaByte_eq, withOpponents, alphaBits]
  rw [byteAt_or, byteAt_opponentWord_alpha, UInt32.zero_or, byteAt_and, UInt32.and_assoc, hmask]

theorem byteAt_withOpponents (c : Color s) (v : Channels) {shift : UInt32} (h : byteAt alphaMask shift = 0) :
    byteAt (c.withOpponents v).bits shift = byteAt (opponentWord v) shift := by
  simp only [withOpponents, alphaBits]
  rw [byteAt_or, byteAt_and, h, UInt32.and_zero, UInt32.or_zero]

/-- What a color shows does not depend on its alpha. -/
theorem opponentChannels_withOpponents (c : Color s) (v : Channels) :
    opponentChannels (c.withOpponents v).bits = opponentChannels (opponentWord v) := by
  simp only [opponentChannels, byteAt_withOpponents c v (by decide : byteAt alphaMask firstShift = 0),
    byteAt_withOpponents c v (by decide : byteAt alphaMask secondShift = 0),
    byteAt_withOpponents c v (by decide : byteAt alphaMask thirdShift = 0)]

end Color

theorem Ipt.byteAt_ofSrgb_alpha (c : Channels) (alpha : Float32) :
    byteAt (Ipt.ofSrgb c alpha).bits alphaShift = byteAt (packAlpha alpha) alphaShift := by
  have hlt (x : Float32) : (chromaByte x).toNat < 256 := boundedByte_lt _
  simp only [Ipt.ofSrgb]
  rw [byteAt_or, (byteAt_channels (boundedByte_lt _) (hlt _) (hlt _)).1, UInt32.zero_or]

theorem Layout.packAlpha_fraction (w : UInt32) :
    packAlpha ((w &&& opaqueByte).toFloat32 / 254) = (w &&& opaqueByte) <<< alphaShift :=
  forall_even_byte (p := fun a => packAlpha (a.toFloat32 / 254) = a <<< alphaShift)
    (by set_option maxRecDepth 2000 in decide) w

/-! ## Stored channels are finite -/

theorem denotes_255 : Denotes 255 255 := by
  exact_mod_cast denotes_ofInt (n := 255) (by norm_num)

theorem denotes_middle : Denotes 127.5 (255 / 2) := by
  have hunpack : (127.5 : Float32).toModel.unpack = .finite .positive 16711680 (-17) (by norm_num) := by rfl
  have hmiddle := denotes_of_unpack hunpack
  norm_num [signFactor] at hmiddle
  exact hmiddle

theorem denotes_unit (byte : UInt32) (h : byte.toNat < 256) :
    Denotes (unit byte) (rounded (byte.toNat / 255)) := by
  have hbyte := cast_byte_le h
  refine (denotes_toFloat32 (by omega)).div denotes_255 (by norm_num) ?_
  have hone : |rounded (byte.toNat / 255)| ≤ 1 := by
    refine abs_rounded_le denotes_one.representable ?_
    rw [abs_of_nonneg (by positivity)]
    linarith
  linarith

def Layout.opponentValue (b : ℕ) : ℚ := rounded ((b - 255 / 2) / (255 / 2))

theorem Layout.abs_opponentValue_le {b : ℕ} (hb : b < 256) : |opponentValue b| ≤ 1 := by
  have hb255 := cast_byte_le hb
  have hb0 : (0 : ℚ) ≤ b := Nat.cast_nonneg b
  refine abs_rounded_le denotes_one.representable (abs_le.mpr ⟨?_, ?_⟩)
  · linarith
  · linarith

theorem denotes_opponent (byte : UInt32) (h : byte.toNat < 256) :
    Denotes (opponent byte) (opponentValue byte.toNat) := by
  have hbyte := cast_byte_le h
  have hnonneg : (0 : ℚ) ≤ byte.toNat := by positivity
  have hbound : |(byte.toNat : ℚ) - 255 / 2| ≤ 255 / 2 := abs_le.mpr ⟨by linarith, by linarith⟩
  have hdiff : Representable ((byte.toNat : ℚ) - 255 / 2) := by
    refine ⟨2 * byte.toNat - 255, -1, abs_lt.mpr (by omega), by norm_num, ?_⟩
    push_cast
    ring
  exact ((denotes_toFloat32 (by omega)).sub_exact denotes_middle hdiff (by linarith)).div
    denotes_middle (by norm_num) ((abs_opponentValue_le h).trans_lt (by norm_num))

theorem opponentChannels_finite (bits : UInt32) : (opponentChannels bits).all Float32.isFinite = true := by
  simp only [Channels.all, opponentChannels, (denotes_unit _ (byteAt_lt bits _)).finite,
    (denotes_opponent _ (byteAt_lt bits _)).finite, Bool.and_self]

/-! ## Bytes that are read and written back -/

namespace Layout
variable {x y : Float32} {p q : ℚ}

def unitScale : ℚ := 16777150 / 2 ^ 16

theorem denotes_scaled (hx : Denotes x p) (hp : |p| ≤ 2) : Denotes (x * 255.999) (rounded (p * unitScale)) := by
  have hscale : Denotes 255.999 unitScale := by
    have hunpack : (255.999 : Float32).toModel.unpack = .finite .positive 16777150 (-16) (by norm_num) := by rfl
    have h := denotes_of_unpack hunpack
    norm_num [signFactor, unitScale] at h ⊢
    exact h
  obtain ⟨hlow, hhigh⟩ := abs_le.mp hp
  have hproduct : |rounded (p * unitScale)| ≤ 512 := by
    refine abs_rounded_le (by exact_mod_cast representable_intCast (n := 512) (by norm_num)) (abs_le.mpr ?_)
    norm_num [unitScale]
    constructor <;> linarith
  exact hx.mul hscale (hproduct.trans_lt (by norm_num))

theorem unitByte_mono (hx : Denotes x p) (hy : Denotes y q) (hp : |p| ≤ 2) (hq : |q| ≤ 2) (h : p ≤ q) :
    unitByte x ≤ unitByte y := by
  have hscale : 0 ≤ unitScale := by norm_num [unitScale]
  exact boundedByte_mono (denotes_scaled hx hp) (denotes_scaled hy hq)
    (rounded_mono (mul_le_mul_of_nonneg_right h hscale))

theorem boundedByte_of_towardZero {b : UInt32} (hb : b.toNat < 256) (hx : Denotes x p)
    (hcut : towardZero p = b.toNat) : boundedByte x = b := by
  have hwhole : bounded (-0x80000000) 0x7FFFFFFF b.toNat = b.toNat := bounded_of_mem (by omega) (by omega)
  have hbyte : bounded 0 255 b.toNat = b.toNat := bounded_of_mem (by omega) (by omega)
  apply UInt32.toNat_inj.mp
  rw [boundedByte, hx.truncate, hcut, hwhole, hbyte, ofInt_toNat (by omega) (by omega), Int.toNat_natCast]

/-- A byte may lose or gain a little as a fraction and is stored as it was. -/
theorem unitByte_of_near {b : UInt32} (hb : b.toNat < 256) (hx : Denotes x p)
    (h : |p - b.toNat / 255| ≤ 1 / 2 ^ 20) : unitByte x = b := by
  have hb255 := cast_byte_le hb
  have hb0 : (0 : ℚ) ≤ b.toNat := Nat.cast_nonneg _
  obtain ⟨hlow, hhigh⟩ := abs_le.mp h
  norm_num at hlow hhigh
  have hscaled := denotes_scaled hx (abs_le.mpr ⟨by linarith, by linarith⟩)
  have hupper : rounded (p * unitScale) ≤ b.toNat + 1 - 1 / 2 ^ 11 := by
    have hnext : Representable (b.toNat + 1 - 1 / 2 ^ 11 : ℚ) := by
      refine ⟨(b.toNat + 1) * 2 ^ 11 - 1, -11, abs_lt.mpr ⟨by omega, by omega⟩, by norm_num, ?_⟩
      norm_num
      ring
    refine rounded_le hnext ?_
    norm_num [unitScale]
    linarith
  have hlower : 0 < b.toNat → (b.toNat : ℚ) ≤ rounded (p * unitScale) := by
    intro hpos
    have hpos' : (1 : ℚ) ≤ b.toNat := by exact_mod_cast hpos
    refine le_rounded (representable_byte hb) ?_
    norm_num [unitScale]
    linarith
  have hzero : -(1 / 2 : ℚ) ≤ rounded (p * unitScale) := by
    refine le_rounded ⟨-1, -1, by norm_num, by norm_num, by norm_num⟩ ?_
    norm_num [unitScale]
    linarith
  generalize rounded (p * unitScale) = r at hscaled hupper hlower hzero
  have hcut : towardZero r = b.toNat := by
    rcases Nat.eq_zero_or_pos b.toNat with h0 | hpos
    · rw [h0] at hupper ⊢
      refine towardZero_of_abs_lt_one (abs_lt.mpr ⟨by linarith, ?_⟩)
      norm_num at hupper
      linarith
    · have hle := hlower hpos
      rw [towardZero, if_pos (hb0.trans hle), Int.floor_eq_iff]
      norm_num at hupper
      exact ⟨by exact_mod_cast hle, by push_cast; linarith⟩
  exact boundedByte_of_towardZero hb hscaled hcut

theorem unitByte_unit (b : UInt32) (hb : b.toNat < 256) : unitByte (unit b) = b :=
  unitByte_of_near hb (denotes_unit b hb) ((abs_fraction_sub_le hb).trans (by norm_num))

/-! ## Opponent bytes that are read and written back -/

def opponentScale : ℚ := 16777085 / 2 ^ 17

def centered (p : ℚ) : ℚ := rounded (rounded (p * opponentScale) + 128)

theorem denotes_centered (hx : Denotes x p) (hp : |p| ≤ 1) : Denotes (x * 127.999 + 128) (centered p) := by
  have hscale : Denotes 127.999 opponentScale := by
    have hunpack : (127.999 : Float32).toModel.unpack = .finite .positive 16777085 (-17) (by norm_num) := by rfl
    have h := denotes_of_unpack hunpack
    norm_num [signFactor, opponentScale] at h ⊢
    exact h
  have h128 : Denotes 128 (128 : ℚ) := by exact_mod_cast denotes_ofInt (n := 128) (by norm_num)
  obtain ⟨hlow, hhigh⟩ := abs_le.mp hp
  have hproduct : |rounded (p * opponentScale)| ≤ 128 := by
    refine abs_rounded_le h128.representable (abs_le.mpr ?_)
    norm_num [opponentScale]
    constructor <;> linarith
  have hsum : |centered p| ≤ 256 := by
    obtain ⟨hlow', hhigh'⟩ := abs_le.mp hproduct
    refine abs_rounded_le (by exact_mod_cast representable_intCast (n := 256) (by norm_num)) (abs_le.mpr ?_)
    constructor <;> linarith
  exact (hx.mul hscale (hproduct.trans_lt (by norm_num))).add h128 (hsum.trans_lt (by norm_num))

theorem opponentByte_mono (hx : Denotes x p) (hy : Denotes y q) (hp : |p| ≤ 1) (hq : |q| ≤ 1) (h : p ≤ q) :
    opponentByte x ≤ opponentByte y := by
  have hscale : 0 ≤ opponentScale := by norm_num [opponentScale]
  have hproduct := rounded_mono (mul_le_mul_of_nonneg_right h hscale)
  exact boundedByte_mono (denotes_centered hx hp) (denotes_centered hy hq)
    (rounded_mono (add_le_add_left hproduct 128))

/-- The byte depends on the number only. -/
theorem opponentByte_congr (hx : Denotes x p) (hy : Denotes y p) (hp : |p| ≤ 1) : opponentByte x = opponentByte y :=
  UInt32.le_antisymm (opponentByte_mono hx hy hp hp le_rfl) (opponentByte_mono hy hx hp hp le_rfl)

theorem abs_centered_sub_le (hp : |p| ≤ 1) : |centered p - (p * opponentScale + 128)| ≤ 1 / 2 ^ 16 := by
  obtain ⟨hlow, hhigh⟩ := abs_le.mp hp
  have hproduct : |rounded (p * opponentScale) - p * opponentScale| ≤ 1 / 2 ^ 18 := by
    refine (abs_rounded_sub_le (e := -17) (abs_lt.mpr ?_) (by norm_num)).trans (by norm_num)
    norm_num [opponentScale]
    constructor <;> linarith
  obtain ⟨hproductlow, hproducthigh⟩ := abs_le.mp hproduct
  have hsum : |centered p - (rounded (p * opponentScale) + 128)| ≤ 1 / 2 ^ 17 := by
    refine (abs_rounded_sub_le (e := -16) (abs_lt.mpr ?_) (by norm_num)).trans (by norm_num)
    norm_num [opponentScale] at hproductlow hproducthigh ⊢
    constructor <;> linarith
  obtain ⟨hsumlow, hsumhigh⟩ := abs_le.mp hsum
  norm_num at hproductlow hproducthigh hsumlow hsumhigh
  refine abs_le.mpr ?_
  norm_num
  constructor <;> linarith

/-- The scale is a little more than half of 255, so what is cut lies between the byte and the next
one, further from both than the roundings reach. -/
theorem opponentByte_opponent (b : UInt32) (hb : b.toNat < 256) : opponentByte (opponent b) = b := by
  have hb255 := cast_byte_le hb
  have hb0 : (0 : ℚ) ≤ b.toNat := Nat.cast_nonneg _
  have hone := abs_opponentValue_le hb
  have hvalue : |opponentValue b.toNat - (b.toNat - 255 / 2) / (255 / 2)| ≤ 1 / 2 ^ 24 :=
    abs_rounded_sub_le_of_lt_two (abs_lt.mpr ⟨by linarith, by linarith⟩)
  obtain ⟨hvaluelow, hvaluehigh⟩ := abs_le.mp hvalue
  obtain ⟨hlow, hhigh⟩ := abs_le.mp (abs_centered_sub_le hone)
  norm_num [opponentScale] at hvaluelow hvaluehigh hlow hhigh
  refine boundedByte_of_towardZero hb (denotes_centered (denotes_opponent b hb) hone) ?_
  rw [towardZero, if_pos (by linarith), Int.floor_eq_iff]
  push_cast
  constructor <;> linarith

end Layout
end ColorWords
