import ColorWords.Color.Descriptor
import ColorWords.Proofs.Layout

/-! # The distance of two colors

Sums of three squared byte differences are whole numbers that singles hold exactly, so
the one rounding of a distance is that of its last division. It is far too small to merge
two different sums, so distances stand in the order of whole numbers.
-/
namespace ColorWords.Oklab
open Layout Single

def byteGap (a b : Oklab) (channel : Channel) : ℤ := (a.byte channel).toNat - (b.byte channel).toNat

def gap (a b : Oklab) : ℤ :=
  byteGap a b .first * byteGap a b .first + byteGap a b .second * byteGap a b .second +
    byteGap a b .third * byteGap a b .third

theorem abs_byteGap_le (a b : Oklab) (channel : Channel) : |byteGap a b channel| ≤ 255 := by
  have ha := byteAt_lt a.bits channel.shift
  have hb := byteAt_lt b.bits channel.shift
  simp only [byteGap, Color.byte]
  exact abs_le.mpr (by omega)

theorem byteGap_sq_bounds (a b : Oklab) (channel : Channel) :
    0 ≤ byteGap a b channel * byteGap a b channel ∧ byteGap a b channel * byteGap a b channel ≤ 65025 := by
  obtain ⟨hl, hu⟩ := abs_le.mp (abs_byteGap_le a b channel)
  exact ⟨mul_self_nonneg _, by nlinarith⟩

theorem gap_bounds (a b : Oklab) : 0 ≤ gap a b ∧ gap a b ≤ 3 * 65025 := by
  have hfirst := byteGap_sq_bounds a b .first
  have hsecond := byteGap_sq_bounds a b .second
  have hthird := byteGap_sq_bounds a b .third
  simp only [gap]
  constructor <;> linarith

theorem denotes_squaredDifference (a b : Oklab) (channel : Channel) :
    Denotes (squaredDifference a b channel) ((byteGap a b channel * byteGap a b channel : ℤ) : ℚ) := by
  have habs := abs_byteGap_le a b channel
  obtain ⟨hl, hu⟩ := byteGap_sq_bounds a b channel
  have hdiff := Denotes.sub_int (m := ((a.byte channel).toNat : ℤ)) (n := ((b.byte channel).toNat : ℤ))
    (denotes_byte a.bits channel.shift) (denotes_byte b.bits channel.shift)
    (habs.trans (by norm_num))
  have hsq : |byteGap a b channel * byteGap a b channel| ≤ 2 ^ 24 := by
    rw [abs_of_nonneg hl]
    linarith
  exact hdiff.mul_int hdiff hsq

/-- A distance is the rounded quotient of the whole gap. -/
theorem denotes_squaredDistance (a b : Oklab) : Denotes (a.squaredDistance b) (rounded (gap a b / 65025)) := by
  obtain ⟨hfirst0, hfirst⟩ := byteGap_sq_bounds a b .first
  obtain ⟨hsecond0, hsecond⟩ := byteGap_sq_bounds a b .second
  obtain ⟨hgap0, hgap⟩ := gap_bounds a b
  have htwo : |byteGap a b .first * byteGap a b .first + byteGap a b .second * byteGap a b .second| ≤ 2 ^ 24 :=
    abs_le.mpr ⟨by linarith, by linarith⟩
  have hthree : |gap a b| ≤ 2 ^ 24 := abs_le.mpr ⟨by linarith, by linarith⟩
  have hsum := ((denotes_squaredDifference a b .first).add_int (denotes_squaredDifference a b .second)
    htwo).add_int (denotes_squaredDifference a b .third) hthree
  have h255 : Denotes 255 (255 : ℤ) := denotes_ofInt (n := 255) (by norm_num)
  have hscale : Denotes (255 * 255) ((255 * 255 : ℤ) : ℚ) := h255.mul_int h255 (by norm_num)
  have hvalue : (gap a b : ℚ) / ((255 * 255 : ℤ) : ℚ) = gap a b / 65025 := by norm_num
  have hle : |(gap a b : ℚ) / 65025| ≤ ((3 : ℤ) : ℚ) := by
    have hcast : (gap a b : ℚ) ≤ 3 * 65025 := by exact_mod_cast hgap
    have hcast0 : (0 : ℚ) ≤ gap a b := by exact_mod_cast hgap0
    rw [abs_of_nonneg (by positivity)]
    push_cast
    linarith
  have hrounded := abs_rounded_le (representable_intCast (by norm_num)) hle
  rw [← hvalue] at hrounded ⊢
  exact hsum.div hscale (by norm_num) (hrounded.trans_lt (by norm_num))

/-! ## The order of distances -/

/-- Shares of 65025 are further apart than two roundings can move them. -/
theorem rounded_gap_strictMonoOn : StrictMonoOn (fun n : ℤ => rounded (n / 65025)) (Set.Icc 0 (3 * 65025)) := by
  have hnear {n : ℤ} (hn : n ∈ Set.Icc (0 : ℤ) (3 * 65025)) :
      |rounded (n / 65025 : ℚ) - n / 65025| ≤ 1 / 2 ^ 23 := by
    have hn0 : (0 : ℚ) ≤ n := by exact_mod_cast hn.1
    have hn3 : (n : ℚ) ≤ 3 * 65025 := by exact_mod_cast hn.2
    have hgrid : |(n / 65025 : ℚ)| < 2 ^ 24 * 2 ^ (-22 : ℤ) := by
      rw [abs_of_nonneg (by positivity)]
      norm_num
      linarith
    exact (abs_rounded_sub_le hgrid (by norm_num)).trans (by norm_num)
  intro m hm n hn hmn
  have hlow := abs_le.mp (hnear hm)
  have hhigh := abs_le.mp (hnear hn)
  have hstep : (m : ℚ) + 1 ≤ n := by exact_mod_cast hmn
  norm_num at hlow hhigh ⊢
  linarith

theorem squaredDistance_lt_iff (a b c d : Oklab) : a.squaredDistance b < c.squaredDistance d ↔ gap a b < gap c d := by
  rw [(denotes_squaredDistance a b).lt_iff (denotes_squaredDistance c d)]
  exact rounded_gap_strictMonoOn.lt_iff_lt (gap_bounds a b) (gap_bounds c d)

theorem squaredDistance_beq_iff (a b c d : Oklab) :
    (a.squaredDistance b == c.squaredDistance d) = true ↔ gap a b = gap c d := by
  rw [(denotes_squaredDistance a b).beq_iff (denotes_squaredDistance c d)]
  exact rounded_gap_strictMonoOn.injOn.eq_iff (gap_bounds a b) (gap_bounds c d)

theorem byteGap_eq_zero_iff (a b : Oklab) (channel : Channel) :
    byteGap a b channel = 0 ↔ a.byte channel = b.byte channel := by
  rw [byteGap, sub_eq_zero, Nat.cast_inj, UInt32.toNat_inj]

theorem gap_eq_zero_iff (a b : Oklab) : gap a b = 0 ↔ ∀ channel, a.byte channel = b.byte channel := by
  have hfirst := mul_self_nonneg (byteGap a b .first)
  have hsecond := mul_self_nonneg (byteGap a b .second)
  have hthird := mul_self_nonneg (byteGap a b .third)
  rw [gap]
  constructor
  · intro h channel
    rw [← byteGap_eq_zero_iff, ← mul_self_eq_zero]
    cases channel <;> linarith
  · intro h
    simp only [fun channel => (byteGap_eq_zero_iff a b channel).mpr (h channel), mul_zero, add_zero]

theorem gap_comm (a b : Oklab) : gap a b = gap b a := by
  simp only [gap, byteGap]
  ring

/-- A distance of nothing is the zero without a sign. -/
theorem squaredDistance_of_gap_eq_zero {a b : Oklab} (h : gap a b = 0) : a.squaredDistance b = 0 := by
  have hdifference (channel : Channel) : squaredDifference a b channel = 0 := by
    have hself : (b.byte channel).toFloat32 - (b.byte channel).toFloat32 = 0 :=
      (denotes_byte b.bits channel.shift).sub_self
    rw [squaredDifference, (gap_eq_zero_iff a b).mp h channel, hself]
    rfl
  simp only [squaredDistance, hdifference]
  decide

theorem squaredDistance_eq_iff (a b c d : Oklab) :
    a.squaredDistance b = c.squaredDistance d ↔ gap a b = gap c d := by
  constructor
  · intro h
    rw [← squaredDistance_beq_iff, h, squaredDistance_beq_iff]
  · intro h
    have hab := denotes_squaredDistance a b
    by_cases hzero : gap a b = 0
    · rw [squaredDistance_of_gap_eq_zero hzero, squaredDistance_of_gap_eq_zero (h.symm.trans hzero)]
    · have hpos : (0 : ℤ) < gap a b := (gap_bounds a b).1.lt_of_ne' hzero
      have hrounded : rounded ((0 : ℤ) / 65025) < rounded (gap a b / 65025) :=
        rounded_gap_strictMonoOn ⟨le_rfl, by norm_num⟩ (gap_bounds a b) hpos
      rw [Int.cast_zero, zero_div, rounded_zero] at hrounded
      refine hab.unique ?_ hrounded.ne'
      rw [h]
      exact denotes_squaredDistance c d

theorem squaredDistance_comm (a b : Oklab) : a.squaredDistance b = b.squaredDistance a :=
  (squaredDistance_eq_iff a b b a).mpr (gap_comm a b)

theorem squaredDistance_eq_zero_iff (a b : Oklab) :
    a.squaredDistance b = 0 ↔ ∀ channel, a.byte channel = b.byte channel := by
  have hself : gap a a = 0 := (gap_eq_zero_iff a a).mpr fun _ => rfl
  rw [← squaredDistance_of_gap_eq_zero hself, squaredDistance_eq_iff, hself, gap_eq_zero_iff]

end ColorWords.Oklab
