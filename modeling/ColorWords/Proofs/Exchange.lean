import ColorWords.Color.Hex
import ColorWords.Proofs.Blank
import ColorWords.Proofs.Mixing
import ColorWords.Proofs.Opponent

/-! # Exchange words and literals

An exchange word carries the bytes of a color in the opposite order and alpha widened to a
full byte. Widening only repeats the highest bit in the place of the one that is not stored,
so RGB colors come back from their words, and alpha comes back in every space. A literal of
eight digits is read as the word it was written from.
-/
namespace ColorWords
open Layout Single

/-! ## Widened alpha -/

theorem widenAlpha_lt (w : UInt32) : (widenAlpha (w &&& opaqueByte)).toNat < 256 :=
  forall_even_byte (p := fun a => (widenAlpha a).toNat < 256)
    (by set_option maxRecDepth 2000 in decide) w

theorem widenAlpha_and_opaqueByte (w : UInt32) :
    widenAlpha (w &&& opaqueByte) &&& opaqueByte = w &&& opaqueByte :=
  forall_even_byte (p := fun a => widenAlpha a &&& opaqueByte = a)
    (by set_option maxRecDepth 2000 in decide) w

/-- The bytes of an exchange word, whose places are those of a color in the opposite order. -/
theorem byteAt_exchangeWord {r g b : UInt32} (hr : r.toNat < 256) (hg : g.toNat < 256) (hb : b.toNat < 256)
    (w : UInt32) :
    byteAt (exchangeWord r g b (w &&& opaqueByte)) firstShift = widenAlpha (w &&& opaqueByte) ∧
      byteAt (exchangeWord r g b (w &&& opaqueByte)) secondShift = b ∧
      byteAt (exchangeWord r g b (w &&& opaqueByte)) thirdShift = g ∧
      byteAt (exchangeWord r g b (w &&& opaqueByte)) alphaShift = r :=
  byteAt_assembled (widenAlpha_lt w) hb hg hr rfl

/-! ## Bytes of colors -/

theorem toUInt8_shiftRight (w shift : UInt32) : (w >>> shift).toUInt8.toUInt32 = byteAt w shift := by
  apply UInt32.toNat_inj.mp
  rw [byteAt, and_byte_toNat, UInt8.toNat_toUInt32, UInt32.toNat_toUInt8]

theorem toUInt8_eq (w : UInt32) : w.toUInt8.toUInt32 = byteAt w firstShift := by
  rw [← toUInt8_shiftRight, firstShift, UInt32.shiftRight_zero]

theorem Rgb.byteAt_ofBytes (r g b a : UInt8) :
    byteAt (Rgb.ofBytes r g b a).bits firstShift = r.toUInt32 ∧
      byteAt (Rgb.ofBytes r g b a).bits secondShift = g.toUInt32 ∧
      byteAt (Rgb.ofBytes r g b a).bits thirdShift = b.toUInt32 ∧
      byteAt (Rgb.ofBytes r g b a).bits alphaShift = a.toUInt32 &&& opaqueByte := by
  have hlt (x : UInt8) : x.toUInt32.toNat < 256 := by simpa using x.toNat_lt
  obtain ⟨hr, hg, hb, ha⟩ := byteAt_assembled (hlt r) (hlt g) (hlt b) (hlt a) rfl
  refine ⟨(byteAt_and_storedMask (by decide) _).trans hr, (byteAt_and_storedMask (by decide) _).trans hg,
    (byteAt_and_storedMask (by decide) _).trans hb, (byteAt_and_storedMask_alpha _).trans ?_⟩
  exact (alphaByte_eq _).trans (congrArg (· &&& opaqueByte) ha)

theorem Rgb.stored_ofBytes (r g b a : UInt8) : (Rgb.ofBytes r g b a).Stored := Color.stored_ofBits _

theorem Rgb.byteAt_ofRgba (v : UInt32) :
    byteAt (Color.ofRgba v : Rgb).bits firstShift = byteAt v alphaShift ∧
      byteAt (Color.ofRgba v : Rgb).bits secondShift = byteAt v thirdShift ∧
      byteAt (Color.ofRgba v : Rgb).bits thirdShift = byteAt v secondShift ∧
      byteAt (Color.ofRgba v : Rgb).bits alphaShift = byteAt v firstShift &&& opaqueByte := by
  obtain ⟨hr, hg, hb, ha⟩ :=
    Rgb.byteAt_ofBytes (v >>> 24).toUInt8 (v >>> 16).toUInt8 (v >>> 8).toUInt8 v.toUInt8
  rw [toUInt8_eq] at ha
  rw [toUInt8_shiftRight] at hr hg hb
  exact ⟨hr, hg, hb, ha⟩

theorem Rgb.byteAt_toRgba (c : Rgb) :
    byteAt c.toRgba firstShift = widenAlpha c.alphaByte ∧ byteAt c.toRgba secondShift = c.byte .third ∧
      byteAt c.toRgba thirdShift = c.byte .second ∧ byteAt c.toRgba alphaShift = c.byte .first :=
  byteAt_exchangeWord (byteAt_lt _ _) (byteAt_lt _ _) (byteAt_lt _ _) _

/-! ## RGB colors -/

/-- A stored RGB color is the color of its exchange word. -/
theorem Rgb.ofRgba_toRgba {c : Rgb} (h : c.Stored) : Color.ofRgba c.toRgba = c := by
  obtain ⟨halpha, hthird, hsecond, hfirst⟩ := Rgb.byteAt_toRgba c
  obtain ⟨hr, hg, hb, ha⟩ := Rgb.byteAt_ofRgba c.toRgba
  have hbits : (Color.ofRgba c.toRgba : Rgb).bits = c.bits := by
    refine eq_of_byteAt fun shift hshift => ?_
    simp only [byteShifts, List.mem_cons, List.not_mem_nil, or_false] at hshift
    rcases hshift with rfl | rfl | rfl | rfl
    · exact hr.trans hfirst
    · exact hg.trans hsecond
    · exact hb.trans hthird
    · rw [ha, halpha, Color.stored_iff.mp h]
      exact widenAlpha_and_opaqueByte _
  obtain ⟨bits⟩ := c
  exact congrArg Color.mk hbits

/-! ## Alpha in every space -/

variable {s : Space}

theorem byteAt_ofRgba_alpha (v : UInt32) :
    byteAt (Color.ofRgba v : Color s).bits alphaShift = v &&& opaqueByte := by
  have hword : byteAt ((v &&& opaqueByte) <<< alphaShift) alphaShift = v &&& opaqueByte :=
    byteAt_shiftLeft_self (and_opaqueByte_lt v) (by decide)
  cases s with
  | rgb =>
    obtain ⟨-, -, -, halpha⟩ := Rgb.byteAt_ofRgba v
    rw [halpha, byteAt_first, UInt32.and_assoc]
    rfl
  | ipt => exact (Ipt.byteAt_ofSrgb_alpha _ _).trans (by rw [packAlpha_fraction, hword])
  | oklab => exact (byteAt_or _ _ _).trans (by rw [byteAt_opponentWord_alpha, hword, UInt32.zero_or])

theorem alphaByte_ofRgba (v : UInt32) : (Color.ofRgba v : Color s).alphaByte = v &&& opaqueByte := by
  rw [Color.alphaByte, alphaByte_eq, byteAt_ofRgba_alpha, UInt32.and_assoc, UInt32.and_self]

theorem byteAt_toRgba_first (c : Color s) : byteAt c.toRgba firstShift = widenAlpha c.alphaByte := by
  cases s with
  | rgb => exact (Rgb.byteAt_toRgba c).1
  | ipt => exact (byteAt_exchangeWord (boundedByte_lt _) (boundedByte_lt _) (boundedByte_lt _) _).1
  | oklab => exact (byteAt_exchangeWord (boundedByte_lt _) (boundedByte_lt _) (boundedByte_lt _) _).1

theorem toRgba_and_opaqueByte (c : Color s) : c.toRgba &&& opaqueByte = c.alphaByte := by
  have hbyte : c.toRgba &&& opaqueByte = byteAt c.toRgba firstShift &&& opaqueByte := by
    rw [byteAt_first, UInt32.and_assoc]
    rfl
  rw [hbyte, byteAt_toRgba_first]
  exact widenAlpha_and_opaqueByte _

theorem widenAlpha_and (v : UInt32) : widenAlpha (v &&& opaqueByte) = v &&& opaqueByte ||| v >>> 7 &&& 1 := by
  rw [widenAlpha, UInt32.shiftRight_and]
  rfl

/-- The word of the color of a word: only its lowest bit is replaced, by the highest bit of alpha. -/
theorem Rgb.toRgba_ofRgba (v : UInt32) :
    (Color.ofRgba v : Rgb).toRgba = v &&& (0xFFFFFFFE : UInt32) ||| v >>> 7 &&& 1 := by
  obtain ⟨hr, hg, hb, -⟩ := Rgb.byteAt_ofRgba v
  obtain ⟨halpha, hthird, hsecond, hfirst⟩ := Rgb.byteAt_toRgba (Color.ofRgba v)
  have hrest (shift : UInt32) (hkept : byteAt 0xFFFFFFFE shift = 0xFF) (hclear : byteAt 1 shift = 0) :
      byteAt (v &&& (0xFFFFFFFE : UInt32) ||| v >>> 7 &&& 1) shift = byteAt v shift := by
    rw [byteAt_or, byteAt_and, byteAt_and, hkept, hclear, UInt32.and_zero, UInt32.or_zero, byteAt_and_byte]
  refine eq_of_byteAt fun shift hshift => ?_
  simp only [byteShifts, List.mem_cons, List.not_mem_nil, or_false] at hshift
  rcases hshift with rfl | rfl | rfl | rfl
  · rw [halpha, alphaByte_ofRgba, widenAlpha_and, byteAt_first, Layout.and_or_right, UInt32.and_assoc,
      UInt32.and_assoc _ 1]
    rfl
  · rw [hrest _ (by decide) (by decide)]
    exact hthird.trans hb
  · rw [hrest _ (by decide) (by decide)]
    exact hsecond.trans hg
  · rw [hrest _ (by decide) (by decide)]
    exact hfirst.trans hr

/-! ## Hexadecimal literals -/

namespace Hex

theorem digit?_digitChar (w : UInt32) : digit? (digitChar w) = some (w.toNat % 16).toUInt8 := by
  have hall : ∀ k : Fin 16, digit? (Nat.digitChar k) = some k.val.toUInt8 := by decide
  exact hall ⟨w.toNat % 16, Nat.mod_lt _ (by norm_num)⟩

theorem forall_digitChar {p : Char → Prop} (h : ∀ k : Fin 16, p (Nat.digitChar k)) (w : UInt32) : p (digitChar w) :=
  h ⟨w.toNat % 16, Nat.mod_lt _ (by norm_num)⟩

theorem pair_toNat {high low : ℕ} (hhigh : high < 16) (hlow : low < 16) :
    (pair high.toUInt8 low.toUInt8).toNat = 16 * high + low := by
  have hall : ∀ k l : Fin 16, (pair k.val.toUInt8 l.val.toUInt8).toNat = 16 * k + l := by decide
  exact hall ⟨high, hhigh⟩ ⟨low, hlow⟩

/-- Two digits next to each other are a byte. -/
theorem pair_digits (w : UInt32) {high low : UInt32} (hhigh : high.toNat < 32) (h : high.toNat = low.toNat + 4) :
    pair ((w >>> high).toNat % 16).toUInt8 ((w >>> low).toNat % 16).toUInt8 = (w >>> low).toUInt8 := by
  have hpair := pair_toNat (Nat.mod_lt (w >>> high).toNat (by norm_num : 0 < 16))
    (Nat.mod_lt (w >>> low).toNat (by norm_num : 0 < 16))
  have hdiv : (w >>> high).toNat = (w >>> low).toNat / 16 := by
    rw [UInt32.toNat_shiftRight, UInt32.toNat_shiftRight, Nat.mod_eq_of_lt hhigh, Nat.mod_eq_of_lt (by omega), h,
      Nat.shiftRight_add, Nat.shiftRight_eq_div_pow _ 4]
  apply UInt8.toNat_inj.mp
  rw [UInt32.toNat_toUInt8]
  omega

theorem ofDigits?_wordDigits (w : UInt32) :
    ((wordDigits w).mapM digit?).bind ofDigits? = some (Color.ofRgba w) := by
  have hred := pair_digits w (by decide : (28 : UInt32).toNat < 32) (by decide : _ = (24 : UInt32).toNat + 4)
  have hgreen := pair_digits w (by decide : (20 : UInt32).toNat < 32) (by decide : _ = (16 : UInt32).toNat + 4)
  have hblue := pair_digits w (by decide : (12 : UInt32).toNat < 32) (by decide : _ = (8 : UInt32).toNat + 4)
  have halpha := pair_digits w (by decide : (4 : UInt32).toNat < 32) (by decide : _ = (0 : UInt32).toNat + 4)
  rw [UInt32.shiftRight_zero] at halpha
  simp only [wordDigits, List.map_cons, List.map_nil, List.mapM_cons, List.mapM_nil, digit?_digitChar, ofDigits?,
    Option.bind_eq_bind, Option.bind_some, Option.pure_def, hred, hgreen, hblue, halpha, UInt32.shiftRight_zero]
  rfl

/-- The literal of a word is read as the color of the word. -/
theorem ofChars_wordDigits (w : UInt32) : ofChars ('#' :: wordDigits w) = .ok (Color.ofRgba w) := by
  have htrim : Text.trim ('#' :: wordDigits w) = '#' :: wordDigits w := by
    refine Text.trim_eq_self ?_ ?_
    · rintro c ⟨⟩
      decide
    · rintro c ⟨⟩
      exact forall_digitChar (p := fun d => Text.isBlank d = false) (by decide) _
  obtain ⟨digits, hdigits, hcolor⟩ := Option.bind_eq_some_iff.mp (ofDigits?_wordDigits w)
  simp [ofChars, htrim, dropSign, hdigits, hcolor]

theorem stored_of_ofDigits? {digits : List UInt8} {c : Rgb} (h : ofDigits? digits = some c) : c.Stored := by
  rw [ofDigits?.eq_def] at h
  split at h
  case h_5 => cases h
  all_goals
    obtain rfl := Option.some.inj h
    exact Rgb.stored_ofBytes _ _ _ _

theorem stored_of_ofChars {text : List Char} {c : Rgb} (h : ofChars text = .ok c) : c.Stored := by
  simp only [ofChars] at h
  split at h
  case isTrue => cases h
  case isFalse =>
    split at h
    case h_1 => cases h
    case h_2 =>
      split at h
      case h_1 d hd =>
        obtain rfl := Except.ok.inj h
        exact stored_of_ofDigits? hd
      case h_2 => cases h

end Hex

theorem Rgb.ofHex_toHex {c : Rgb} (h : c.Stored) : Rgb.ofHex c.toHex = .ok c := by
  rw [Rgb.ofHex, Rgb.toHex, String.toList_ofList, Hex.ofChars_wordDigits, Rgb.ofRgba_toRgba h]

/-- Literals and exchange words lose nothing of an RGB color, and no space loses alpha to them. -/
theorem exchange_lossless :
    (∀ c : Rgb, c.Stored → Rgb.ofHex c.toHex = .ok c ∧ Color.ofRgba c.toRgba = c) ∧
      (∀ v : UInt32, (Color.ofRgba v : Rgb).toRgba = v &&& (0xFFFFFFFE : UInt32) ||| v >>> 7 &&& 1) ∧
      (∀ (text : String) (c : Rgb), Rgb.ofHex text = .ok c → Rgb.ofHex c.toHex = .ok c) ∧
      (∀ (s : Space) (v : UInt32), byteAt (Color.ofRgba v : Color s).bits alphaShift = v &&& opaqueByte ∧
        byteAt (Color.ofRgba v : Color s).toRgba firstShift = v &&& opaqueByte ||| v >>> 7 &&& 1) ∧
      (∀ v : UInt32, byteAt (Ipt.ofRgb (Color.ofRgba v)).bits alphaShift = v &&& opaqueByte ∧
        byteAt (Ipt.ofRgb (Color.ofRgba v)).toRgba firstShift = v &&& opaqueByte ||| v >>> 7 &&& 1) ∧
      ∀ c : Rgb, byteAt (Ipt.ofRgb c).bits alphaShift = c.alphaByte ∧
        byteAt (Ipt.ofRgb c).toRgba firstShift = byteAt c.toRgba firstShift := by
  have hwidened {s : Space} {c : Color s} {v : UInt32} (h : c.alphaByte = v &&& opaqueByte) :
      byteAt c.toRgba firstShift = v &&& opaqueByte ||| v >>> 7 &&& 1 := by
    rw [byteAt_toRgba_first, h, widenAlpha_and]
  have hipt (c : Rgb) :
      byteAt (Ipt.ofRgb c).bits alphaShift = c.alphaByte ∧ (Ipt.ofRgb c).alphaByte = c.alphaByte := by
    rw [Ipt.ofRgb, byteAt_ofRgba_alpha, alphaByte_ofRgba, toRgba_and_opaqueByte]
    exact ⟨rfl, rfl⟩
  refine ⟨fun c h => ⟨Rgb.ofHex_toHex h, Rgb.ofRgba_toRgba h⟩, Rgb.toRgba_ofRgba, ?_, ?_, ?_, ?_⟩
  · intro text c h
    exact Rgb.ofHex_toHex (Hex.stored_of_ofChars h)
  · intro s v
    exact ⟨byteAt_ofRgba_alpha v, hwidened (alphaByte_ofRgba v)⟩
  · intro v
    obtain ⟨halpha, hbyte⟩ := hipt (Color.ofRgba v)
    rw [alphaByte_ofRgba] at halpha hbyte
    exact ⟨halpha, hwidened hbyte⟩
  · intro c
    exact ⟨(hipt c).1, by rw [byteAt_toRgba_first, byteAt_toRgba_first, (hipt c).2]⟩

theorem exchange_lossless_glass :
    let glass : Rgb := ⟨0x80C08020⟩
    glass.Stored ∧ Rgb.ofHex glass.toHex = .ok glass ∧ Color.ofRgba glass.toRgba = glass ∧
      Rgb.ofHex " 2080C081 " = .ok glass := by
  intro glass
  have hglass : glass.Stored := by decide
  have hread : Rgb.ofHex " 2080C081 " = .ok glass := by decide
  exact ⟨hglass, exchange_lossless.2.2.1 " 2080C081 " glass hread, (exchange_lossless.1 glass hglass).2, hread⟩

end ColorWords
