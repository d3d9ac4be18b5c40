import ColorWords.Proofs.Cylinder
import ColorWords.Proofs.Wave

/-! # Around the circle and back

Hue, saturation and lightness lead back to within a few roundings of the channels. Where a
rounding is divided by a small spread the wave is scaled by the same spread, so errors do not
grow for colors next to gray, black or white.
-/
namespace ColorWords.Model.Hsl
open Single

namespace Numbers
variable {n : Numbers} {c k p q : ℚ}

def span (n : Numbers) : ℚ := n.top - n.bottom

theorem span_bounds (n : Numbers) : 0 ≤ n.span ∧ n.span ≤ 1 := by
  have hle := bottom_le n.top_mem
  obtain ⟨-, -, htop1⟩ := n.top_unit
  obtain ⟨-, hbottom0, -⟩ := n.bottom_unit
  exact ⟨sub_nonneg.mpr hle, by rw [span]; linarith⟩

theorem abs_spread_sub_le (n : Numbers) : |n.spread - n.span| ≤ slip := by
  obtain ⟨h0, h1⟩ := n.span_bounds
  rw [span] at h0 h1
  exact abs_rounded_sub_le_slip (abs_lt.mpr ⟨by linarith, by linarith⟩)

/-! ## Lightness and saturation -/

theorem abs_rounded_sum_sub_le (n : Numbers) :
    |rounded (n.top + n.bottom) - (n.top + n.bottom)| ≤ slip := by
  obtain ⟨-, htop0, htop1⟩ := n.top_unit
  obtain ⟨-, hbottom0, hbottom1⟩ := n.bottom_unit
  exact abs_rounded_sub_le_slip (abs_lt.mpr ⟨by linarith, by linarith⟩)

theorem abs_lightness_sub_half_le (n : Numbers) : |n.lightness - rounded (n.top + n.bottom) / 2| ≤ slip := by
  obtain ⟨-, htop0, htop1⟩ := n.top_unit
  obtain ⟨-, hbottom0, hbottom1⟩ := n.bottom_unit
  have hsum := abs_le.mp n.abs_rounded_sum_sub_le
  have hslip : slip ≤ 1 / 1000 := by norm_num [slip]
  exact abs_rounded_sub_le_slip (abs_lt.mpr ⟨by linarith, by linarith⟩)

theorem abs_lightness_sub_le (n : Numbers) : |n.lightness - (n.top + n.bottom) / 2| ≤ 2 * slip := by
  have hsum := abs_le.mp n.abs_rounded_sum_sub_le
  have hhalf := abs_le.mp n.abs_lightness_sub_half_le
  exact abs_le.mpr ⟨by linarith, by linarith⟩

def room (n : Numbers) : ℚ := if 1 / 2 < n.lightness then 1 - n.lightness else n.lightness

/-- The spread is divided by twice the room. -/
theorem abs_room_sub_le (n : Numbers) : |n.room - n.reach / 2| ≤ 3 * slip := by
  obtain ⟨-, htop0, htop1⟩ := n.top_unit
  obtain ⟨-, hbottom0, hbottom1⟩ := n.bottom_unit
  have hpos := slip_pos
  rw [room, reach]
  split_ifs with hlight
  · obtain ⟨hone, htwo⟩ := n.one_le_rounded_two_sub
    have hrest := abs_le.mp (abs_rounded_sub_le_slip (q := 2 - n.top) (abs_lt.mpr ⟨by linarith, by linarith⟩))
    have hreach := abs_le.mp (abs_rounded_sub_le_slip (q := rounded (2 - n.top) - n.bottom)
      (abs_lt.mpr ⟨by linarith, by linarith⟩))
    have hlightness := abs_le.mp n.abs_lightness_sub_le
    exact abs_le.mpr ⟨by linarith, by linarith⟩
  · have hhalf := n.abs_lightness_sub_half_le
    linarith

/-- Saturation is scaled back to half of the spread. -/
theorem abs_room_mul_sub_le (h : n.top ≠ n.bottom) : |n.room * n.saturation - n.span / 2| ≤ 5 * slip := by
  have hspread := spread_pos h
  obtain ⟨hreach, hreach2⟩ := n.spread_le_reach
  have hpos := hspread.trans_le hreach
  obtain ⟨h0, h1⟩ := saturation_unit h
  have hquotient : n.spread / n.reach ≤ 1 := (div_le_one hpos).mpr hreach
  have hquotient0 : 0 ≤ n.spread / n.reach := (div_pos hspread hpos).le
  have hsaturation : |n.saturation - n.spread / n.reach| ≤ slip :=
    abs_rounded_sub_le_slip (abs_lt.mpr ⟨by linarith, by linarith⟩)
  have hsplit : n.room * n.saturation - n.span / 2 = (n.room - n.reach / 2) * n.saturation +
      n.reach / 2 * (n.saturation - n.spread / n.reach) + (n.spread - n.span) / 2 := by
    field_simp
    ring
  have hfirst := abs_mul_le_mul n.abs_room_sub_le (abs_le.mpr ⟨by linarith, h1⟩)
  have hsecond := abs_mul_le_mul (abs_le.mpr ⟨by linarith, by linarith⟩ : |n.reach / 2| ≤ 1) hsaturation
  have hthird := abs_le.mp n.abs_spread_sub_le
  rw [abs_le] at hfirst hsecond
  rw [hsplit]
  exact abs_le.mpr ⟨by linarith, by linarith⟩

/-- The lightness and what the saturation takes of the room end at the brightest channel. -/
theorem abs_high_sub_le (h : n.top ≠ n.bottom) : |n.lightness + n.room * n.saturation - n.top| ≤ 7 * slip := by
  have hlightness := abs_le.mp n.abs_lightness_sub_le
  have hhalf := abs_le.mp (abs_room_mul_sub_le h)
  rw [span] at hhalf
  exact abs_le.mpr ⟨by linarith, by linarith⟩

/-! ## Hue -/

/-- A difference of channels is found again as a part of their spread. -/
theorem abs_span_mul_part_sub_le (h : n.top ≠ n.bottom) (hp : p ∈ [n.r, n.g, n.b]) (hq : q ∈ [n.r, n.g, n.b]) :
    |n.span * n.part p q - (p - q)| ≤ 3 * slip := by
  have hspread := spread_pos h
  have hpq : |p - q| ≤ 1 := by
    obtain ⟨-, hp0, hp1⟩ := n.unit p hp
    obtain ⟨-, hq0, hq1⟩ := n.unit q hq
    exact abs_le.mpr ⟨by linarith, by linarith⟩
  have hdiff := abs_rounded_sub_le_slip (hpq.trans_lt (by norm_num))
  have hquotient : |rounded (p - q) / n.spread| ≤ 1 := by
    rw [abs_div, abs_of_pos hspread, div_le_one hspread]
    exact abs_rounded_sub_le_spread hp hq
  have hpart : |n.part p q - rounded (p - q) / n.spread| ≤ slip :=
    abs_rounded_sub_le_slip (hquotient.trans_lt (by norm_num))
  have hsplit : n.span * n.part p q - (p - q) = n.span * (n.part p q - rounded (p - q) / n.spread) +
      (n.spread - n.span) * -(rounded (p - q) / n.spread) + (rounded (p - q) - (p - q)) := by
    field_simp
    ring
  obtain ⟨hspan0, hspan1⟩ := n.span_bounds
  have hfirst := abs_le.mp (abs_mul_le_mul (abs_le.mpr ⟨by linarith, hspan1⟩ : |n.span| ≤ 1) hpart)
  have hsecond := abs_le.mp (abs_mul_le_mul n.abs_spread_sub_le ((abs_neg _).trans_le hquotient))
  have hthird := abs_le.mp hdiff
  rw [hsplit]
  exact abs_le.mpr ⟨by linarith, by linarith⟩

theorem abs_turns_sub_le (h : n.top ≠ n.bottom) : |6 * n.turns - n.sextant| ≤ 6 * slip := by
  obtain ⟨h0, h6⟩ := sextant_bounds h
  have hturns := abs_le.mp (abs_rounded_sub_le_slip (q := n.sextant / 6) (abs_lt.mpr ⟨by linarith, by linarith⟩))
  rw [turns]
  exact abs_le.mpr ⟨by linarith, by linarith⟩

/-- The wave does not see that a whole turn is taken for none. -/
theorem abs_wave_hue_sub_le (h : n.top ≠ n.bottom) (hlow : -2 ≤ c) (hhigh : c ≤ 2) :
    |wave (6 * n.hue + c) - wave (n.sextant + c)| ≤ 12 * slip := by
  have hturns := abs_turns_sub_le h
  rw [hue]
  split_ifs with hwhole
  · have hone : n.turns = 1 := le_antisymm (turns_bounds h).2 hwhole
    rw [hone] at hturns ⊢
    rw [sub_self, rounded_zero, mul_zero, zero_add, ← wave_add_six hlow (by linarith)]
    refine (abs_wave_sub_le _ _).trans ?_
    have hmoved : c + 6 - (n.sextant + c) = 6 * 1 - n.sextant := by ring
    rw [hmoved]
    linarith
  · refine (abs_wave_sub_le _ _).trans ?_
    rw [add_sub_add_right_eq_sub]
    linarith

theorem abs_wave_turn_sub_le {τ : ℚ} (h : n.top ≠ n.bottom) (hlow : -2 ≤ c) (hhigh : c ≤ 2)
    (hturn : |τ - (n.hue + c / 6)| ≤ 2 * slip) : |wave (6 * τ) - wave (n.sextant + c)| ≤ 36 * slip := by
  have hscaled : 6 * τ - (6 * n.hue + c) = 6 * (τ - (n.hue + c / 6)) := by ring
  have hmoved := abs_wave_sub_le (6 * τ) (6 * n.hue + c)
  rw [hscaled, abs_mul, abs_of_pos (by norm_num : (0 : ℚ) < 6)] at hmoved
  exact (abs_sub_le _ _ _).trans (by linarith [abs_wave_hue_sub_le h hlow hhigh])

/-! ## Channels -/

theorem bottom_add_span (n : Numbers) : n.bottom + n.span * 1 = n.top := by
  rw [span]
  ring

theorem abs_next_sub_le (h : n.top ≠ n.bottom) (hp : p ∈ [n.r, n.g, n.b]) (hq : q ∈ [n.r, n.g, n.b])
    (hmin : n.bottom = min p q) : |n.bottom + n.span * max 0 (n.part p q) - p| ≤ 3 * slip := by
  rcases le_total p q with hle | hle
  · rw [max_eq_left (part_nonpos h hle), mul_zero, add_zero, hmin, min_eq_left hle, sub_self, abs_zero]
    linarith [slip_pos]
  · have hdiff := abs_span_mul_part_sub_le h hp hq
    rw [max_eq_right (part_nonneg h hle), hmin, min_eq_right hle]
    rwa [add_comm, add_sub_assoc, ← neg_sub p q, ← sub_eq_add_neg]

theorem abs_previous_sub_le (h : n.top ≠ n.bottom) (hp : p ∈ [n.r, n.g, n.b]) (hq : q ∈ [n.r, n.g, n.b])
    (hmin : n.bottom = min p q) : |n.bottom + n.span * max 0 (-n.part p q) - q| ≤ 3 * slip := by
  rcases le_total q p with hle | hle
  · rw [max_eq_left (neg_nonpos.mpr (part_nonneg h hle)), mul_zero, add_zero, hmin, min_eq_right hle, sub_self,
      abs_zero]
    linarith [slip_pos]
  · have hdiff := abs_le.mp (abs_span_mul_part_sub_le h hp hq)
    rw [max_eq_right (neg_nonneg.mpr (part_nonpos h hle)), hmin, min_eq_left hle]
    exact abs_le.mpr ⟨by linarith, by linarith⟩

/-- The three channels in the wave, told from the one at the top: `p` comes next and `q` before. -/
theorem abs_sector_sub_le {c₁ c₂ c₃ : ℚ} (h : n.top ≠ n.bottom) (hp : p ∈ [n.r, n.g, n.b])
    (hq : q ∈ [n.r, n.g, n.b]) (hmin : n.bottom = min p q) (hk0 : 0 ≤ k) (hk6 : k ≤ 6)
    (hsextant : n.sextant = rounded (n.part p q + k)) (htop : wave (n.part p q + k + c₁) = 1)
    (hnext : wave (n.part p q + k + c₂) = max 0 (n.part p q))
    (hprevious : wave (n.part p q + k + c₃) = max 0 (-n.part p q)) :
    |n.bottom + n.span * wave (n.sextant + c₁) - n.top| ≤ 5 * slip ∧
      |n.bottom + n.span * wave (n.sextant + c₂) - p| ≤ 5 * slip ∧
      |n.bottom + n.span * wave (n.sextant + c₃) - q| ≤ 5 * slip := by
  have hpart := abs_le.mp (abs_part_le_one h hp hq)
  have hrounded := abs_rounded_sub_le_slip (q := n.part p q + k) (abs_lt.mpr ⟨by linarith, by linarith⟩)
  rw [← hsextant] at hrounded
  obtain ⟨hspan0, hspan1⟩ := n.span_bounds
  have hmoved {c x w : ℚ} (hw : wave (n.part p q + k + c) = w) (hx : |n.bottom + n.span * w - x| ≤ 3 * slip) :
      |n.bottom + n.span * wave (n.sextant + c) - x| ≤ 5 * slip := by
    have hwave : |wave (n.sextant + c) - w| ≤ 2 * slip := by
      rw [← hw]
      refine (abs_wave_sub_le _ _).trans ?_
      rw [add_sub_add_right_eq_sub]
      linarith
    have hproduct := abs_le.mp (abs_mul_le_mul (abs_le.mpr ⟨by linarith, hspan1⟩ : |n.span| ≤ 1) hwave)
    have hx' := abs_le.mp hx
    exact abs_le.mpr ⟨by linarith, by linarith⟩
  refine ⟨hmoved htop ?_, hmoved hnext (abs_next_sub_le h hp hq hmin),
    hmoved hprevious (abs_previous_sub_le h hp hq hmin)⟩
  rw [bottom_add_span, sub_self, abs_zero]
  linarith [slip_pos]

/-- Every channel is where the wave has it, a third of a turn before or after green. -/
structure InWave (n : Numbers) : Prop where
  red : |n.bottom + n.span * wave (n.sextant + 2) - n.r| ≤ 5 * slip
  green : |n.bottom + n.span * wave (n.sextant + 0) - n.g| ≤ 5 * slip
  blue : |n.bottom + n.span * wave (n.sextant + -2) - n.b| ≤ 5 * slip

section Sectors
variable (h : n.top ≠ n.bottom)
include h

theorem inWave_of_red (hred : n.top = n.r) : n.InWave := by
  have hgr : n.g ≤ n.r := (le_top green_mem).trans_eq hred
  have hmin : n.bottom = min n.g n.b := by rw [bottom, min_eq_right hgr]
  have hpart := abs_part_le_one h green_mem blue_mem
  obtain ⟨hlow, hhigh⟩ := abs_le.mp hpart
  by_cases hless : n.g < n.b
  · have hsextant : n.sextant = rounded (n.part n.g n.b + 6) := by rw [sextant, if_pos hred, if_pos hless]
    have htop : wave (n.part n.g n.b + 6 + 2) = 1 := by
      rw [add_right_comm, wave_add_six (by linarith) (by linarith), add_comm, wave_two_add hpart]
    have hnext : wave (n.part n.g n.b + 6 + 0) = max 0 (n.part n.g n.b) := by
      rw [add_zero, wave_add_six (by linarith) (by linarith), wave_of_abs_le_one hpart]
    have hprevious : wave (n.part n.g n.b + 6 + -2) = max 0 (-n.part n.g n.b) := by
      rw [← wave_four_add hpart]
      congr 1
      ring
    obtain ⟨hr, hg, hb⟩ :=
      abs_sector_sub_le h green_mem blue_mem hmin (by norm_num) le_rfl hsextant htop hnext hprevious
    exact ⟨hred ▸ hr, hg, hb⟩
  · have hnonneg := part_nonneg h (not_lt.mp hless)
    have hsextant : n.sextant = rounded (n.part n.g n.b + 0) := by rw [sextant, if_pos hred, if_neg hless]
    have htop : wave (n.part n.g n.b + 0 + 2) = 1 := by rw [add_zero, add_comm, wave_two_add hpart]
    have hnext : wave (n.part n.g n.b + 0 + 0) = max 0 (n.part n.g n.b) := by
      rw [add_zero, add_zero, wave_of_abs_le_one hpart]
    have hprevious : wave (n.part n.g n.b + 0 + -2) = max 0 (-n.part n.g n.b) := by
      rw [add_zero, ← wave_add_six (by linarith) (by linarith), ← wave_four_add hpart]
      congr 1
      ring
    obtain ⟨hr, hg, hb⟩ :=
      abs_sector_sub_le h green_mem blue_mem hmin le_rfl (by norm_num) hsextant htop hnext hprevious
    exact ⟨hred ▸ hr, hg, hb⟩

theorem inWave_of_green (hred : n.top ≠ n.r) (hgreen : n.top = n.g) : n.InWave := by
  have hrg : n.r ≤ n.g := (le_top red_mem).trans_eq hgreen
  have hmin : n.bottom = min n.b n.r := by rw [bottom, min_eq_left hrg, min_comm]
  have hpart := abs_part_le_one h blue_mem red_mem
  have hsextant : n.sextant = rounded (n.part n.b n.r + 2) := by rw [sextant, if_neg hred, if_pos hgreen]
  have htop : wave (n.part n.b n.r + 2 + 0) = 1 := by rw [add_zero, add_comm, wave_two_add hpart]
  have hnext : wave (n.part n.b n.r + 2 + -2) = max 0 (n.part n.b n.r) := by
    rw [add_neg_cancel_right, wave_of_abs_le_one hpart]
  have hprevious : wave (n.part n.b n.r + 2 + 2) = max 0 (-n.part n.b n.r) := by
    rw [← wave_four_add hpart]
    congr 1
    ring
  obtain ⟨hg, hb, hr⟩ :=
    abs_sector_sub_le h blue_mem red_mem hmin (by norm_num) (by norm_num) hsextant htop hnext hprevious
  exact ⟨hr, hgreen ▸ hg, hb⟩

theorem inWave_of_blue (hred : n.top ≠ n.r) (hgreen : n.top ≠ n.g) : n.InWave := by
  have hblue : n.top = n.b := by
    have hmem := n.top_mem
    simp only [List.mem_cons, List.not_mem_nil, or_false] at hmem
    exact (hmem.resolve_left hred).resolve_left hgreen
  have hrb : n.r ≤ n.b := (le_top red_mem).trans_eq hblue
  have hmin : n.bottom = min n.r n.g := by rw [bottom, min_eq_left ((min_le_left _ _).trans hrb)]
  have hpart := abs_part_le_one h red_mem green_mem
  obtain ⟨hlow, hhigh⟩ := abs_le.mp hpart
  have hsextant : n.sextant = rounded (n.part n.r n.g + 4) := by rw [sextant, if_neg hred, if_neg hgreen]
  have htop : wave (n.part n.r n.g + 4 + -2) = 1 := by
    rw [← wave_two_add hpart]
    congr 1
    ring
  have hnext : wave (n.part n.r n.g + 4 + 2) = max 0 (n.part n.r n.g) := by
    have hsix : n.part n.r n.g + 4 + 2 = n.part n.r n.g + 6 := by ring
    rw [hsix, wave_add_six (by linarith) (by linarith), wave_of_abs_le_one hpart]
  have hprevious : wave (n.part n.r n.g + 4 + 0) = max 0 (-n.part n.r n.g) := by
    rw [add_zero, add_comm, wave_four_add hpart]
  obtain ⟨hb, hr, hg⟩ :=
    abs_sector_sub_le h red_mem green_mem hmin (by norm_num) (by norm_num) hsextant htop hnext hprevious
  exact ⟨hr, hg, hblue ▸ hb⟩

theorem inWave : n.InWave := by
  by_cases hred : n.top = n.r
  · exact inWave_of_red h hred
  · by_cases hgreen : n.top = n.g
    · exact inWave_of_green h hred hgreen
    · exact inWave_of_blue h hred hgreen

end Sectors

end Numbers

end ColorWords.Model.Hsl
