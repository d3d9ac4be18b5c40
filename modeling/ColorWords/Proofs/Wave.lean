import ColorWords.Model.Hsl
import ColorWords.Proofs.Single.Around

/-! # The wave of a channel

Along the circle of hues a channel rises for a sixth of a turn, stays for a third, falls for a
sixth and is down for the last third. The three channels follow the same wave, a third of a
turn apart, and what is computed for one stays around it across all cuts.
-/
namespace ColorWords.Model.Hsl
open Single

def ramp (u : ℚ) : ℚ := max 0 (min 1 (min u (4 - u)))

/-- The height of a channel at `u` sixths of a turn, for `u` from -2 to 8. -/
def wave (u : ℚ) : ℚ := ramp u + ramp (u - 6)

variable {u v p : ℚ}

/-! ## The ramp -/

theorem ramp_nonneg (u : ℚ) : 0 ≤ ramp u := le_max_left _ _

theorem ramp_le_one (u : ℚ) : ramp u ≤ 1 := max_le zero_le_one (min_le_left _ _)

theorem ramp_of_nonpos (h : u ≤ 0) : ramp u = 0 :=
  max_eq_left (((min_le_right _ _).trans (min_le_left _ _)).trans h)

theorem ramp_le_fall (u : ℚ) : ramp u ≤ max 0 (4 - u) :=
  max_le_max le_rfl ((min_le_right _ _).trans (min_le_right _ _))

theorem ramp_of_four_le (h : 4 ≤ u) : ramp u = 0 := by
  have hfall := ramp_le_fall u
  rw [max_eq_left (by linarith)] at hfall
  exact le_antisymm hfall (ramp_nonneg u)

theorem ramp_of_le_three (h : u ≤ 3) : ramp u = max 0 (min 1 u) := by
  rcases le_total u 1 with hu | hu
  · rw [ramp, min_eq_left (by linarith : u ≤ 4 - u)]
  · rw [ramp, min_eq_left hu, min_eq_left (le_min hu (by linarith))]

theorem ramp_of_one_le (h : 1 ≤ u) : ramp u = max 0 (min 1 (4 - u)) := by
  rcases le_total u 3 with hu | hu
  · rw [ramp, min_eq_left (by linarith : (1 : ℚ) ≤ 4 - u), min_eq_left (le_min h (by linarith))]
  · rw [ramp, min_eq_right (by linarith : 4 - u ≤ u)]

theorem abs_ramp_sub_le (u v : ℚ) : |ramp u - ramp v| ≤ |u - v| := by
  have hinner : |min u (4 - u) - min v (4 - v)| ≤ |u - v| := by
    refine (abs_min_sub_min_le_max _ _ _ _).trans (max_le le_rfl ?_)
    rw [sub_sub_sub_cancel_left, abs_sub_comm]
  have hcut {x y : ℚ} : |min 1 x - min 1 y| ≤ |x - y| :=
    (abs_min_sub_min_le_max _ _ _ _).trans (max_le (by simp) le_rfl)
  have hfloor {x y : ℚ} : |max 0 x - max 0 y| ≤ |x - y| :=
    (abs_max_sub_max_le_max _ _ _ _).trans (max_le (by simp) le_rfl)
  exact hfloor.trans (hcut.trans hinner)

/-! ## The ramp a little beyond its cuts -/

section Cuts
variable {d : ℚ}

theorem abs_rise_sub_ramp_le (h0 : 0 ≤ u) (h1 : u ≤ 1 + d) (hd : 0 ≤ d) (hd1 : d ≤ 1) : |u - ramp u| ≤ d := by
  rw [ramp_of_le_three (by linarith)]
  rcases le_total u 1 with h | h
  · rwa [min_eq_right h, max_eq_right h0, sub_self, abs_zero]
  · rw [min_eq_left h, max_eq_right zero_le_one, abs_of_nonneg (by linarith)]
    linarith

theorem abs_top_sub_ramp_le (h1 : 1 - d ≤ u) (h3 : u ≤ 3 + d) (hd : 0 ≤ d) : |1 - ramp u| ≤ d := by
  have hlow : 1 - d ≤ ramp u := le_max_of_le_right (le_min (by linarith) (le_min h1 (by linarith)))
  rw [abs_of_nonneg (by linarith [ramp_le_one u])]
  linarith

theorem abs_fall_sub_ramp_le (h3 : 3 - d ≤ u) (h4 : u ≤ 4 + d) (hd : 0 ≤ d) (hd1 : d ≤ 1) :
    |4 - u - ramp u| ≤ d := by
  rw [ramp_of_one_le (by linarith)]
  rcases le_total (4 - u) 0 with hdown | hup
  · rw [max_eq_left ((min_le_right _ _).trans hdown), sub_zero, abs_of_nonpos hdown]
    linarith
  · rw [max_eq_right (le_min zero_le_one hup)]
    rcases le_total (4 - u) 1 with h | h
    · rwa [min_eq_right h, sub_self, abs_zero]
    · rw [min_eq_left h, abs_of_nonneg (by linarith)]
      linarith

theorem abs_bottom_sub_ramp_le (h4 : 4 - d ≤ u) (hd : 0 ≤ d) : |0 - ramp u| ≤ d := by
  rw [zero_sub, abs_neg, abs_of_nonneg (ramp_nonneg _)]
  exact (ramp_le_fall u).trans (max_le hd (by linarith))

end Cuts

/-! ## The wave -/

theorem wave_bounds (u : ℚ) : 0 ≤ wave u ∧ wave u ≤ 2 := by
  have h := ramp_nonneg u
  have h' := ramp_nonneg (u - 6)
  exact ⟨add_nonneg h h', by linarith [ramp_le_one u, ramp_le_one (u - 6), wave.eq_1 u]⟩

theorem abs_wave_sub_le (u v : ℚ) : |wave u - wave v| ≤ 2 * |u - v| := by
  have h := abs_ramp_sub_le u v
  have h' := abs_ramp_sub_le (u - 6) (v - 6)
  rw [sub_sub_sub_cancel_right] at h'
  rw [wave, wave, add_sub_add_comm]
  exact (abs_add_le _ _).trans (by linarith)

theorem wave_of_le_six (h : u ≤ 6) : wave u = ramp u := by
  rw [wave, ramp_of_nonpos (by linarith : u - 6 ≤ 0), add_zero]

theorem wave_of_four_le (h : 4 ≤ u) : wave u = ramp (u - 6) := by rw [wave, ramp_of_four_le h, zero_add]

theorem wave_add_six (hlow : -2 ≤ u) (hhigh : u ≤ 6) : wave (u + 6) = wave u := by
  rw [wave_of_four_le (by linarith), add_sub_cancel_right, wave_of_le_six hhigh]

theorem wave_two_add (h : |p| ≤ 1) : wave (2 + p) = 1 := by
  obtain ⟨hlow, hhigh⟩ := abs_le.mp h
  rw [wave_of_le_six (by linarith), ramp_of_le_three (by linarith), min_eq_left (by linarith), max_eq_right zero_le_one]

theorem wave_of_abs_le_one (h : |p| ≤ 1) : wave p = max 0 p := by
  obtain ⟨hlow, hhigh⟩ := abs_le.mp h
  rw [wave_of_le_six (by linarith), ramp_of_le_three (by linarith), min_eq_right hhigh]

theorem wave_four_add (h : |p| ≤ 1) : wave (4 + p) = max 0 (-p) := by
  obtain ⟨hlow, hhigh⟩ := abs_le.mp h
  rw [wave_of_le_six (by linarith), ramp_of_one_le (by linarith), min_eq_right (by linarith)]
  congr 1
  ring

/-! ## One channel -/

def wrapped (t : Float32) : Float32 :=
  let t := if t < 0 then t + 1 else t
  if 1 < t then t - 1 else t

def channelWithin (low high t : Float32) : Float32 :=
  if t < 1 / 6 then low + (high - low) * 6 * t
  else if t < 1 / 2 then high
  else if t < 2 / 3 then low + (high - low) * (2 / 3 - t) * 6
  else low

theorem channelAt_eq (low high t : Float32) : channelAt low high t = channelWithin low high (wrapped t) := rfl

section Channel
variable {low high t : Float32} {lo hi τ : ℚ}

theorem abs_ramp_six_sub_le {p q : ℚ} (h : |p - q| ≤ slip) : |ramp (6 * p) - ramp (6 * q)| ≤ 6 * slip := by
  refine (abs_ramp_sub_le _ _).trans ?_
  rw [← mul_sub, abs_mul, abs_of_pos (by norm_num : (0 : ℚ) < 6)]
  linarith

/-- Before the first turn the wave is down, and so is the end of the ramp. -/
theorem exists_next (ht : Denotes t τ) (hlow : -(1 / 3) - 2 * slip ≤ τ) (hneg : τ < 0) :
    ∃ τ', Denotes (t + 1) τ' ∧ 0 ≤ τ' ∧ τ' ≤ 1 ∧ |ramp (6 * τ') - wave (6 * τ)| ≤ 18 * slip := by
  have hslip : slip ≤ 1 / 1000 := by norm_num [slip]
  have hpos := slip_pos
  have hnext := abs_rounded_sub_le_slip (q := τ + 1) (abs_lt.mpr ⟨by linarith, by linarith⟩)
  have hnext0 : 0 ≤ rounded (τ + 1) := rounded_nonneg (by linarith)
  have hnext1 : rounded (τ + 1) ≤ 1 := rounded_le denotes_one.representable (by linarith)
  have hwave : wave (6 * τ) = 0 := by rw [wave_of_le_six (by linarith), ramp_of_nonpos (by linarith)]
  have hfallen : ramp (6 * (τ + 1)) ≤ 12 * slip := (ramp_le_fall _).trans (max_le (by linarith) (by linarith))
  refine ⟨_, ht.add denotes_one (lt_range hnext0 (by linarith)), hnext0, hnext1, ?_⟩
  rw [hwave, sub_zero, abs_of_nonneg (ramp_nonneg _)]
  linarith [(abs_le.mp (abs_ramp_six_sub_le hnext)).2]

/-- Beyond the first turn the wave begins again. -/
theorem exists_rest (ht : Denotes t τ) (hhigh : τ ≤ 4 / 3 + 2 * slip) (hbeyond : 1 < τ) :
    ∃ τ', Denotes (t - 1) τ' ∧ 0 ≤ τ' ∧ |ramp (6 * τ') - wave (6 * τ)| ≤ 18 * slip := by
  have hslip : slip ≤ 1 / 1000 := by norm_num [slip]
  have hrest := abs_rounded_sub_le_slip (q := τ - 1) (abs_lt.mpr ⟨by linarith, by linarith⟩)
  have hrest0 : 0 ≤ rounded (τ - 1) := rounded_nonneg (by linarith)
  have hrest1 : rounded (τ - 1) ≤ 1 := rounded_le denotes_one.representable (by linarith)
  refine ⟨_, ht.sub denotes_one (lt_range hrest0 (by linarith)), hrest0, ?_⟩
  have hshift : 6 * τ - 6 = 6 * (τ - 1) := by ring
  rw [wave_of_four_le (by linarith), hshift]
  linarith [abs_ramp_six_sub_le hrest, slip_pos]

/-- A turn is wrapped by whole turns, and the wave is the ramp there. -/
theorem exists_wrapped (ht : Denotes t τ) (hlow : -(1 / 3) - 2 * slip ≤ τ) (hhigh : τ ≤ 4 / 3 + 2 * slip) :
    ∃ τ', Denotes (wrapped t) τ' ∧ 0 ≤ τ' ∧ |ramp (6 * τ') - wave (6 * τ)| ≤ 18 * slip := by
  simp only [wrapped]
  rcases lt_or_ge τ 0 with hneg | hnonneg
  · obtain ⟨τ', hsum, h0, h1, hwave⟩ := exists_next ht hlow hneg
    rw [if_pos ((ht.lt_iff denotes_zero).mpr hneg), if_neg (mt (denotes_one.lt_iff hsum).mp (not_lt.mpr h1))]
    exact ⟨τ', hsum, h0, hwave⟩
  · rw [if_neg (mt (ht.lt_iff denotes_zero).mp (not_lt.mpr hnonneg))]
    rcases le_or_gt τ 1 with hinside | hbeyond
    · rw [if_neg (mt (denotes_one.lt_iff ht).mp (not_lt.mpr hinside))]
      refine ⟨τ, ht, hnonneg, ?_⟩
      rw [wave_of_le_six (by linarith), sub_self, abs_zero]
      linarith [slip_pos]
    · rw [if_pos ((denotes_one.lt_iff ht).mpr hbeyond)]
      exact exists_rest ht hhigh hbeyond

/-- Channels span little more than one, so that a height is off by little more than its share is. -/
theorem abs_height_sub_le {p q d : ℚ} (hspan : |hi - lo| ≤ 9 / 8) (h : |p - q| ≤ d) :
    |lo + (hi - lo) * p - (lo + (hi - lo) * q)| ≤ 9 / 8 * d := by
  rw [add_sub_add_left_eq_sub, ← mul_sub, abs_mul]
  exact mul_le_mul hspan h (abs_nonneg _) (by norm_num)

section Stretches
variable (hlow : Denotes low lo) (hhigh : Denotes high hi) (ht : Denotes t τ) (hlo : |lo| ≤ 2)
  (hspan : |hi - lo| ≤ 9 / 8)
include hlow hhigh ht hlo hspan

theorem around_rise (h0 : 0 ≤ τ) (h1 : τ ≤ 1 / 4) :
    Around (24 * slip) (low + (high - low) * 6 * t) (lo + (hi - lo) * (6 * τ)) := by
  have hspread := hhigh.around.sub hlow.around (by linarith)
  have hproduct : |(hi - lo) * 6| ≤ 9 / 8 * 6 := abs_mul_le_mul hspan (by norm_num)
  have hturn : |τ| ≤ 1 / 4 := (abs_of_nonneg h0).trans_le h1
  have hsix := hspread.mul denotes_six.around hspan (by norm_num) (Q := 6) (by norm_num [slip])
  have hpart := hsix.mul ht.around hproduct hturn (by norm_num [slip])
  have hsum := hlow.around.add hpart (by
    have h := (abs_add_le lo _).trans (add_le_add hlo (abs_mul_le_mul hproduct hturn))
    norm_num [slip] at h ⊢
    linarith)
  rw [← mul_assoc]
  exact hsum.mono (by norm_num [slip])

theorem around_fall {cut : Float32} (hcut : Around slip cut (2 / 3)) (hturn : |2 / 3 - τ| ≤ 1 / 4) :
    Around (24 * slip) (low + (high - low) * (cut - t) * 6) (lo + (hi - lo) * (4 - 6 * τ)) := by
  have hspread := hhigh.around.sub hlow.around (by linarith)
  have hgap := hcut.sub ht.around (by norm_num [slip]; linarith)
  have hproduct : |(hi - lo) * (2 / 3 - τ)| ≤ 9 / 8 * (1 / 4) := abs_mul_le_mul hspan hturn
  have hpart := hspread.mul hgap hspan hturn (by norm_num [slip])
  have hsix := hpart.mul denotes_six.around hproduct (by norm_num) (Q := 6) (by norm_num [slip])
  have hsum := hlow.around.add hsix (by
    have h := (abs_add_le lo _).trans (add_le_add hlo (abs_mul_le_mul hproduct (by norm_num : |(6 : ℚ)| ≤ 6)))
    norm_num [slip] at h ⊢
    linarith)
  have hfour : (hi - lo) * (4 - 6 * τ) = (hi - lo) * (2 / 3 - τ) * 6 := by ring
  rw [hfour]
  exact hsum.mono (by norm_num [slip])

theorem around_channelWithin (h0 : 0 ≤ τ) :
    Around (32 * slip) (channelWithin low high t) (lo + (hi - lo) * ramp (6 * τ)) := by
  have hslip : slip ≤ 1 / 1000 := by norm_num [slip]
  have hpos := slip_pos
  obtain ⟨sixth, hsixth, hsixth'⟩ := around_div denotes_one denotes_six (by norm_num) (by norm_num)
  obtain ⟨half, hhalf, hhalf'⟩ := around_div denotes_one denotes_two (by norm_num) (by norm_num)
  have hcut : Around slip (2 / 3) (2 / 3) := around_div denotes_two denotes_three (by norm_num) (by norm_num)
  obtain ⟨third, hthird, hthird'⟩ := id hcut
  rw [abs_le] at hsixth' hhalf' hthird'
  have hmoved {x : Float32} {w : ℚ} (hx : Around (24 * slip) x (lo + (hi - lo) * w))
      (hw : |w - ramp (6 * τ)| ≤ 6 * slip) : Around (32 * slip) x (lo + (hi - lo) * ramp (6 * τ)) :=
    (hx.shift (abs_height_sub_le hspan hw)).mono (by linarith)
  rw [channelWithin]
  split_ifs with hrise htop hfall
  · rw [ht.lt_iff hsixth] at hrise
    exact hmoved (around_rise hlow hhigh ht hlo hspan h0 (by linarith))
      (abs_rise_sub_ramp_le (by linarith) (by linarith) (by linarith) (by linarith))
  · rw [ht.lt_iff hhalf] at htop
    rw [ht.lt_iff hsixth, not_lt] at hrise
    refine hmoved (w := 1) ?_ (abs_top_sub_ramp_le (by linarith) (by linarith) (by linarith))
    rw [mul_one, add_sub_cancel]
    exact hhigh.around.mono (by linarith)
  · rw [ht.lt_iff hthird] at hfall
    rw [ht.lt_iff hhalf, not_lt] at htop
    exact hmoved (around_fall hlow hhigh ht hlo hspan hcut (abs_le.mpr ⟨by linarith, by linarith⟩))
      (abs_fall_sub_ramp_le (by linarith) (by linarith) (by linarith) (by linarith))
  · rw [ht.lt_iff hthird, not_lt] at hfall
    refine hmoved (w := 0) ?_ (abs_bottom_sub_ramp_le (by linarith) (by linarith))
    rw [mul_zero, add_zero]
    exact hlow.around.mono (by linarith)

/-- A channel is around its height in the wave. -/
theorem around_channelAt (h0 : -(1 / 3) - 2 * slip ≤ τ) (h1 : τ ≤ 4 / 3 + 2 * slip) :
    Around (64 * slip) (channelAt low high t) (lo + (hi - lo) * wave (6 * τ)) := by
  obtain ⟨τ', ht', h0', hwave⟩ := exists_wrapped ht h0 h1
  rw [channelAt_eq]
  exact ((around_channelWithin hlow hhigh ht' hlo hspan h0').shift (abs_height_sub_le hspan hwave)).mono
    (by norm_num [slip])

end Stretches

end Channel

end ColorWords.Model.Hsl
