import ColorWords.Proofs.Adjustment
import ColorWords.Proofs.Alpha

/-! # Moving lightness

A raised byte is on the way to 255 and a lowered one on the way to zero, so the byte that a
change of lightness leads to keeps the order of changes. Chroma is scaled beside it.
-/
namespace ColorWords
open Layout Single

namespace Layout
variable {shift : UInt32} {change : Float32} {c d p q : ℚ} {b : ℕ}

theorem between_mono {s e : ℕ} (hle : s ≤ e) (h : c ≤ d) : between s e c ≤ between s e d := by
  have hway : (0 : ℚ) ≤ (e : ℚ) - s := sub_nonneg.mpr (by exact_mod_cast hle)
  exact rounded_mono (add_le_add_right (rounded_mono (mul_le_mul_of_nonneg_right h hway)) (s : ℚ))

theorem between_antitone {s e : ℕ} (hle : e ≤ s) (h : c ≤ d) : between s e d ≤ between s e c := by
  have hway : (e : ℚ) - s ≤ 0 := sub_nonpos.mpr (by exact_mod_cast hle)
  exact rounded_mono (add_le_add_right (rounded_mono (mul_le_mul_of_nonpos_right h hway)) (s : ℚ))

theorem between_low_high {s e : ℕ} (hle : s ≤ e) (he : e < 256) (h0 : 0 ≤ c) (h1 : c ≤ 1) :
    (s : ℚ) ≤ between s e c ∧ between s e c ≤ e := by
  have hbounds := between_bounds (hle.trans_lt he) he h0 h1
  rwa [min_eq_left hle, max_eq_right hle] at hbounds

def lowered (b : ℕ) (c : ℚ) : ℚ := rounded (b * rounded (1 - c))

theorem lowered_zero (hb : b < 256) : lowered b 0 = b := by
  rw [lowered, sub_zero, rounded_of_representable denotes_one.representable, mul_one,
    rounded_of_representable (representable_byte hb)]

theorem lowered_one : lowered b 1 = 0 := by
  rw [lowered, sub_self, rounded_zero, mul_zero, rounded_zero]

theorem lowered_antitone (h : c ≤ d) : lowered b d ≤ lowered b c :=
  rounded_mono (mul_le_mul_of_nonneg_left (rounded_mono (by linarith)) (Nat.cast_nonneg b))

theorem toNat_and_byte {w : UInt32} (hw : w.toNat = ⌊c⌋.toNat) (h0 : 0 ≤ c) (h1 : c ≤ 255) :
    (w &&& 0xFF).toNat = ⌊c⌋.toNat := by
  have hfloor : ⌊c⌋ < 256 := Int.floor_lt.mpr (by push_cast; linarith)
  have hfloor0 := Int.floor_nonneg.mpr h0
  rw [and_byte_toNat, hw]
  omega

theorem lowered_low_high (hb : b < 256) (h0 : 0 ≤ c) (h1 : c ≤ 1) : 0 ≤ lowered b c ∧ lowered b c ≤ b := by
  have hrest : 0 ≤ rounded (1 - c) := rounded_nonneg (by linarith)
  exact ⟨rounded_nonneg (mul_nonneg (Nat.cast_nonneg b) hrest), (lowered_antitone h0).trans (lowered_zero hb).le⟩

/-- A byte that is raised is on the way to the top. -/
theorem wholeWord_raised {v top : UInt32} (hle : v ≤ top) (htop : top.toNat < 256) (h : Denotes change c)
    (h0 : 0 ≤ c) (h1 : c ≤ 1) :
    (wholeWord (v.toFloat32 + (top - v).toFloat32 * change)).toNat = ⌊between v.toNat top.toNat c⌋.toNat := by
  have hv : v.toNat ≤ top.toNat := hle
  have hrest : (top - v).toNat = top.toNat - v.toNat := UInt32.toNat_sub_of_le _ _ hle
  have hstart : Denotes v.toFloat32 v.toNat := denotes_toFloat32 (by omega)
  have hway : Denotes (top - v).toFloat32 (top.toNat - v.toNat) := by
    have hcast := denotes_toFloat32 (w := top - v) (by omega)
    rwa [hrest, Nat.cast_sub hv] at hcast
  obtain ⟨hlow, hhigh⟩ := between_low_high hv htop h0 h1
  have htop255 := cast_byte_le htop
  have hv0 : (0 : ℚ) ≤ v.toNat := Nat.cast_nonneg _
  have hvTop : (v.toNat : ℚ) ≤ top.toNat := by exact_mod_cast hv
  have hproduct : |rounded ((top.toNat - v.toNat) * c)| ≤ 255 := by
    refine abs_rounded_le denotes_255.representable ?_
    rw [abs_of_nonneg (mul_nonneg (by linarith) h0)]
    nlinarith
  have hsum := hstart.add (hway.mul h (hproduct.trans_lt (by norm_num)))
  rw [mul_comm _ c, ← between] at hsum
  have hsum := hsum (by rw [abs_of_nonneg (hv0.trans hlow)]; linarith)
  exact wholeWord_toNat hsum (hv0.trans hlow) (by linarith)

theorem wholeWord_lowered {v : UInt32} (hv : v.toNat < 256) (h : Denotes change c) (h0 : 0 ≤ c) (h1 : c ≤ 1) :
    (wholeWord (v.toFloat32 * (1 - change))).toNat = ⌊lowered v.toNat c⌋.toNat := by
  have hv255 := cast_byte_le hv
  have hrest0 : 0 ≤ rounded (1 - c) := rounded_nonneg (by linarith)
  have hrest1 : rounded (1 - c) ≤ 1 := rounded_le denotes_one.representable (by linarith)
  obtain ⟨hlow, hhigh⟩ := lowered_low_high hv h0 h1
  have hrest := denotes_one.sub h (by rw [abs_of_nonneg hrest0]; linarith)
  have hstart : Denotes v.toFloat32 v.toNat := denotes_toFloat32 (by omega)
  have hproduct : Denotes _ (lowered v.toNat c) := hstart.mul hrest (by rw [← lowered, abs_of_nonneg hlow]; linarith)
  exact wholeWord_toNat hproduct hlow (by linarith)

theorem byteAt_raise (hshift : shift ∈ [firstShift, secondShift, thirdShift]) (bits : UInt32)
    (h : Denotes change c) (h0 : 0 ≤ c) (h1 : c ≤ 1) :
    (byteAt (raise bits shift change) shift).toNat = ⌊between (byteAt bits shift).toNat 255 c⌋.toNat := by
  have hle : (byteAt bits shift).toNat ≤ 255 := Nat.le_of_lt_succ (byteAt_lt bits shift)
  obtain ⟨hlow, hhigh⟩ := between_low_high hle (by norm_num) h0 h1
  rw [raise, byteAt_setByte hshift]
  exact toNat_and_byte (wholeWord_raised (UInt32.le_iff_toNat_le.mpr hle) (by decide) h h0 h1)
    ((Nat.cast_nonneg _).trans hlow) hhigh

theorem byteAt_lower (hshift : shift ∈ [firstShift, secondShift, thirdShift]) (bits : UInt32)
    (h : Denotes change c) (h0 : 0 ≤ c) (h1 : c ≤ 1) :
    (byteAt (lower bits shift change) shift).toNat = ⌊lowered (byteAt bits shift).toNat c⌋.toNat := by
  have hb := byteAt_lt bits shift
  obtain ⟨hlow, hhigh⟩ := lowered_low_high hb h0 h1
  rw [lower, byteAt_setByte hshift]
  exact toNat_and_byte (wholeWord_lowered hb h h0 h1) hlow (hhigh.trans (cast_byte_le hb))

/-- The byte that a change of size `p` leads to from `b`. -/
def movedByte (b : ℕ) (p : ℚ) : ℕ :=
  if 0 < p then ⌊between b 255 (min p 1)⌋.toNat else ⌊lowered b (min (-p) 1)⌋.toNat

theorem movedByte_zero (hb : b < 256) : movedByte b 0 = b := by
  rw [movedByte, if_neg (lt_irrefl 0), neg_zero, min_eq_left zero_le_one, lowered_zero hb, Int.floor_natCast,
    Int.toNat_natCast]

theorem movedByte_of_one_le (hb : b < 256) (h : 1 ≤ p) : movedByte b p = 255 := by
  rw [movedByte, if_pos (by linarith), min_eq_right h, between_one hb (by norm_num), Int.floor_natCast, Int.toNat_natCast]

theorem movedByte_of_le_neg_one (h : p ≤ -1) : movedByte b p = 0 := by
  rw [movedByte, if_neg (by linarith), min_eq_right (by linarith), lowered_one, Int.floor_zero, Int.toNat_zero]

theorem movedByte_mono (hb : b < 256) (h : p ≤ q) : movedByte b p ≤ movedByte b q := by
  have hfloor {x y : ℚ} (hxy : x ≤ y) : ⌊x⌋.toNat ≤ ⌊y⌋.toNat := Int.toNat_le_toNat (Int.floor_mono hxy)
  simp only [movedByte]
  split_ifs with hp hq hq
  · exact hfloor (between_mono (Nat.le_of_lt_succ hb) (min_le_min_right 1 h))
  · exact absurd (hp.trans_le h) hq
  · have hlow := lowered_low_high hb (le_min (by linarith : 0 ≤ -p) zero_le_one) (min_le_right (-p) 1)
    have hhigh := between_low_high (Nat.le_of_lt_succ hb) (by norm_num) (le_min hq.le zero_le_one) (min_le_right q 1)
    exact hfloor (hlow.2.trans hhigh.1)
  · exact hfloor (lowered_antitone (min_le_min_right 1 (by linarith)))

end Layout

namespace Color
variable {s : Space} {change : Float32} {p : ℚ}

theorem byte_move (c : Color s) (channel : Channel) (h : Denotes change p) :
    ((Adjustment.move (·.raise channel) (·.lower channel) change c).byte channel).toNat =
      movedByte (c.byte channel).toNat p := by
  have hshift := Channel.shift_mem channel
  have hb := c.byte_lt channel
  rcases lt_trichotomy p 0 with hneg | rfl | hpos
  · have hsize := h.neg.smaller denotes_one
    rw [movedByte, if_neg hneg.not_gt, Adjustment.move, if_neg (mt (denotes_zero.lt_iff h).mp hneg.not_gt),
      if_pos ((h.lt_iff denotes_zero).mpr hneg)]
    exact byteAt_lower hshift c.bits hsize (le_min (by linarith) zero_le_one) (min_le_right (-p) 1)
  · rw [Adjustment.move_zero _ _ h, movedByte_zero hb]
  · have hsize := h.smaller denotes_one
    rw [movedByte, if_pos hpos, Adjustment.move, if_pos ((denotes_zero.lt_iff h).mpr hpos)]
    exact byteAt_raise hshift c.bits hsize (le_min hpos.le zero_le_one) (min_le_right p 1)

end Color

namespace Adjustment
variable {s : Space}

def stretch (a : Adjustment) (c : Color s) : Color s :=
  move (fun d change => d.scaleOpponents (1 + change)) .dullen a.saturation (move .lighten .darken a.lightness c)

theorem intoGamut_stretch (a : Adjustment) (c : Oklab) : (a.stretch c).intoGamut = (a.apply c).intoGamut := by
  have hrich (d : Oklab) (change : Float32) : (d.enrich change).intoGamut = (d.scaleOpponents (1 + change)).intoGamut :=
    (Color.limited_oklab _).idempotent
  rw [stretch, apply]
  generalize move Color.lighten Color.darken a.lightness c = d
  rw [move, move]
  split_ifs
  · rw [hrich]
  · rfl
  · rfl

theorem byte_scaleOpponents (c : Oklab) (factor : Float32) : (c.scaleOpponents factor).byte .first = c.byte .first := by
  have hmask : byteAt alphaMask firstShift = 0 := by decide
  rw [Color.scaleOpponents, Color.byte, Channel.shift, Color.byteAt_withOpponents c _ hmask, byteAt_opponentWord_first]
  exact unitByte_unit _ (byteAt_lt c.bits firstShift)

/-- Chroma is scaled beside the lightness byte. -/
theorem byte_stretch (a : Adjustment) (c : Oklab) :
    (a.stretch c).byte .first = (move Color.lighten Color.darken a.lightness c).byte .first := by
  rw [stretch]
  generalize move Color.lighten Color.darken a.lightness c = d
  rw [move]
  split_ifs
  · exact byte_scaleOpponents d _
  · exact byte_scaleOpponents d _
  · rfl

end Adjustment
end ColorWords
