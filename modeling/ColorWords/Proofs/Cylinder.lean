import ColorWords.Model.Hsl
import ColorWords.Proofs.Single.Bounds

/-! # Ranges of hue, saturation and lightness

Rounding keeps order, so it keeps the spread of two channels above zero and below what it is
divided by, also next to white, where little is left of two less both channels. A hue that
rounds up to a whole turn is brought back to zero.
-/
namespace ColorWords.Model.Hsl
open Single

structure Numbers where
  r : ℚ
  g : ℚ
  b : ℚ
  unit : ∀ q ∈ [r, g, b], Representable q ∧ 0 ≤ q ∧ q ≤ 1

namespace Numbers

/-! ## Numbers of the descriptors -/

section Descriptors
variable (n : Numbers)

def top : ℚ := max (max n.r n.g) n.b

def bottom : ℚ := min (min n.r n.g) n.b

def spread : ℚ := rounded (n.top - n.bottom)

def lightness : ℚ := rounded (rounded (n.top + n.bottom) / 2)

/-- The largest spread at the lightness. -/
def reach : ℚ :=
  if 1 / 2 < n.lightness then rounded (rounded (2 - n.top) - n.bottom) else rounded (n.top + n.bottom)

def saturation : ℚ := rounded (n.spread / n.reach)

def part (p q : ℚ) : ℚ := rounded (rounded (p - q) / n.spread)

def sextant : ℚ :=
  if n.top = n.r then rounded (n.part n.g n.b + if n.g < n.b then 6 else 0)
  else if n.top = n.g then rounded (n.part n.b n.r + 2)
  else rounded (n.part n.r n.g + 4)

def turns : ℚ := rounded (n.sextant / 6)

def hue : ℚ := if 1 ≤ n.turns then rounded (n.turns - 1) else n.turns

end Descriptors

/-! ## Ranges -/

variable {n : Numbers} {p q : ℚ}

theorem red_mem : n.r ∈ [n.r, n.g, n.b] := by simp

theorem green_mem : n.g ∈ [n.r, n.g, n.b] := by simp

theorem blue_mem : n.b ∈ [n.r, n.g, n.b] := by simp

theorem top_mem (n : Numbers) : n.top ∈ [n.r, n.g, n.b] := by
  rcases max_choice (max n.r n.g) n.b with h | h
  · rcases max_choice n.r n.g with h' | h' <;> rw [top, h, h'] <;> simp
  · rw [top, h]
    simp

theorem bottom_mem (n : Numbers) : n.bottom ∈ [n.r, n.g, n.b] := by
  rcases min_choice (min n.r n.g) n.b with h | h
  · rcases min_choice n.r n.g with h' | h' <;> rw [bottom, h, h'] <;> simp
  · rw [bottom, h]
    simp

theorem le_top (h : q ∈ [n.r, n.g, n.b]) : q ≤ n.top := by
  simp only [List.mem_cons, List.not_mem_nil, or_false] at h
  rcases h with rfl | rfl | rfl <;> simp [top]

theorem bottom_le (h : q ∈ [n.r, n.g, n.b]) : n.bottom ≤ q := by
  simp only [List.mem_cons, List.not_mem_nil, or_false] at h
  rcases h with rfl | rfl | rfl <;> simp [bottom]

theorem top_unit (n : Numbers) : Representable n.top ∧ 0 ≤ n.top ∧ n.top ≤ 1 := n.unit _ n.top_mem

theorem bottom_unit (n : Numbers) : Representable n.bottom ∧ 0 ≤ n.bottom ∧ n.bottom ≤ 1 := n.unit _ n.bottom_mem

theorem lightness_unit (n : Numbers) : 0 ≤ n.lightness ∧ n.lightness ≤ 1 := by
  obtain ⟨-, htop0, htop1⟩ := n.top_unit
  obtain ⟨-, hbottom0, hbottom1⟩ := n.bottom_unit
  have hsum0 : 0 ≤ rounded (n.top + n.bottom) := rounded_nonneg (by linarith)
  have hsum2 : rounded (n.top + n.bottom) ≤ 2 := rounded_le denotes_two.representable (by linarith)
  exact ⟨rounded_nonneg (by linarith), rounded_le denotes_one.representable (by linarith)⟩

theorem spread_pos (h : n.top ≠ n.bottom) : 0 < n.spread :=
  rounded_sub_pos n.top_unit.1 n.bottom_unit.1 (lt_of_le_of_ne (bottom_le n.top_mem) h.symm)

theorem spread_le_one (n : Numbers) : n.spread ≤ 1 := by
  obtain ⟨-, -, htop1⟩ := n.top_unit
  obtain ⟨-, hbottom0, -⟩ := n.bottom_unit
  exact rounded_le denotes_one.representable (by linarith)

theorem one_le_rounded_two_sub (n : Numbers) : 1 ≤ rounded (2 - n.top) ∧ rounded (2 - n.top) ≤ 2 := by
  obtain ⟨-, htop0, htop1⟩ := n.top_unit
  exact ⟨le_rounded denotes_one.representable (by linarith), rounded_le denotes_two.representable (by linarith)⟩

/-- Either way the spread is divided by no less than it is. -/
theorem spread_le_reach (n : Numbers) : n.spread ≤ n.reach ∧ n.reach ≤ 2 := by
  obtain ⟨-, htop0, htop1⟩ := n.top_unit
  obtain ⟨-, hbottom0, hbottom1⟩ := n.bottom_unit
  obtain ⟨hone, htwo⟩ := n.one_le_rounded_two_sub
  rw [reach]
  split_ifs
  · exact ⟨rounded_mono (by linarith), rounded_le denotes_two.representable (by linarith)⟩
  · exact ⟨rounded_mono (by linarith), rounded_le denotes_two.representable (by linarith)⟩

theorem saturation_unit (h : n.top ≠ n.bottom) : 0 ≤ n.saturation ∧ n.saturation ≤ 1 := by
  have hspread := n.spread_pos h
  have hreach := n.spread_le_reach.1
  refine ⟨rounded_nonneg (div_nonneg hspread.le (hspread.le.trans hreach)), rounded_le denotes_one.representable ?_⟩
  exact (div_le_one (hspread.trans_le hreach)).mpr hreach

theorem abs_rounded_sub_le_spread (hp : p ∈ [n.r, n.g, n.b]) (hq : q ∈ [n.r, n.g, n.b]) :
    |rounded (p - q)| ≤ n.spread := by
  have hpt := le_top hp
  have hpb := bottom_le hp
  have hqt := le_top hq
  have hqb := bottom_le hq
  refine abs_le.mpr ⟨?_, rounded_mono (by linarith)⟩
  rw [spread, ← rounded_neg]
  exact rounded_mono (by linarith)

theorem abs_part_le_one (h : n.top ≠ n.bottom) (hp : p ∈ [n.r, n.g, n.b]) (hq : q ∈ [n.r, n.g, n.b]) :
    |n.part p q| ≤ 1 :=
  abs_rounded_div_le_one (spread_pos h) (abs_rounded_sub_le_spread hp hq)

theorem part_nonneg (h : n.top ≠ n.bottom) (hle : q ≤ p) : 0 ≤ n.part p q :=
  rounded_nonneg (div_nonneg (rounded_nonneg (by linarith)) (spread_pos h).le)

theorem part_nonpos (h : n.top ≠ n.bottom) (hle : p ≤ q) : n.part p q ≤ 0 := by
  have hdiff : rounded (p - q) ≤ 0 := by
    rw [← rounded_zero]
    exact rounded_mono (by linarith)
  have hquotient := rounded_mono (div_nonpos_of_nonpos_of_nonneg hdiff (spread_pos h).le)
  rwa [rounded_zero] at hquotient

theorem sextant_bounds (h : n.top ≠ n.bottom) : 0 ≤ n.sextant ∧ n.sextant ≤ 6 := by
  have hpart {p q : ℚ} (hp : p ∈ [n.r, n.g, n.b]) (hq : q ∈ [n.r, n.g, n.b]) := abs_le.mp (abs_part_le_one h hp hq)
  have hbounds {t : ℚ} (ht : 0 ≤ t ∧ t ≤ 6) : 0 ≤ rounded t ∧ rounded t ≤ 6 :=
    ⟨rounded_nonneg ht.1, rounded_le denotes_six.representable ht.2⟩
  rw [sextant]
  split_ifs with hr hless hg
  · obtain ⟨hlow, -⟩ := hpart green_mem blue_mem
    have hnonpos := part_nonpos h hless.le
    exact hbounds ⟨by linarith, by linarith⟩
  · obtain ⟨-, hhigh⟩ := hpart green_mem blue_mem
    have hnonneg := part_nonneg h (not_lt.mp hless)
    exact hbounds ⟨by linarith, by linarith⟩
  · obtain ⟨hlow, hhigh⟩ := hpart blue_mem red_mem
    exact hbounds ⟨by linarith, by linarith⟩
  · obtain ⟨hlow, hhigh⟩ := hpart red_mem green_mem
    exact hbounds ⟨by linarith, by linarith⟩

theorem turns_bounds (h : n.top ≠ n.bottom) : 0 ≤ n.turns ∧ n.turns ≤ 1 := by
  obtain ⟨hlow, hhigh⟩ := sextant_bounds h
  exact ⟨rounded_nonneg (by linarith), rounded_le denotes_one.representable (by linarith)⟩

theorem hue_bounds (h : n.top ≠ n.bottom) : 0 ≤ n.hue ∧ n.hue < 1 := by
  obtain ⟨hlow, hhigh⟩ := turns_bounds h
  rw [hue]
  split_ifs with hwhole
  · have hone : n.turns = 1 := le_antisymm hhigh hwhole
    rw [hone, sub_self, rounded_zero]
    norm_num
  · exact ⟨hlow, not_le.mp hwhole⟩

end Numbers

/-! ## Singles of the descriptors -/

structure Numbers.Of (n : Numbers) (c : Channels) : Prop where
  first : Denotes c.first n.r
  second : Denotes c.second n.g
  third : Denotes c.third n.b

variable {n : Numbers} {c : Channels} {p q : ℚ} {x y : Float32}

theorem exists_numbers (h : ∀ x ∈ [c.first, c.second, c.third], 0 ≤ x ∧ x ≤ 1) : ∃ n : Numbers, n.Of c := by
  obtain ⟨r, hr, hr01⟩ := denotes_of_unit (h c.first (by simp))
  obtain ⟨g, hg, hg01⟩ := denotes_of_unit (h c.second (by simp))
  obtain ⟨b, hb, hb01⟩ := denotes_of_unit (h c.third (by simp))
  exact ⟨⟨r, g, b, by simp [hr.representable, hg.representable, hb.representable, hr01, hg01, hb01]⟩, hr, hg, hb⟩

namespace Numbers.Of

theorem brightest (h : n.Of c) : Denotes (brightest c) n.top := (h.first.larger h.second).larger h.third

theorem darkest (h : n.Of c) : Denotes (darkest c) n.bottom := (h.first.smaller h.second).smaller h.third

theorem sum (h : n.Of c) : Denotes (Hsl.brightest c + Hsl.darkest c) (rounded (n.top + n.bottom)) := by
  obtain ⟨-, htop0, htop1⟩ := n.top_unit
  obtain ⟨-, hbottom0, hbottom1⟩ := n.bottom_unit
  have hsum := rounded_le denotes_two.representable (by linarith : n.top + n.bottom ≤ 2)
  exact h.brightest.add h.darkest (lt_range (rounded_nonneg (by linarith)) (by linarith))

theorem lightness (h : n.Of c) : Denotes ((Hsl.brightest c + Hsl.darkest c) / 2) n.lightness := by
  obtain ⟨hlow, hhigh⟩ := n.lightness_unit
  exact h.sum.div denotes_two (by norm_num) (lt_range hlow (hhigh.trans (by norm_num)))

theorem spread (h : n.Of c) (hne : n.top ≠ n.bottom) : Denotes (Hsl.brightest c - Hsl.darkest c) n.spread :=
  h.brightest.sub h.darkest (lt_range (spread_pos hne).le (n.spread_le_one.trans (by norm_num)))

theorem twoSub (h : n.Of c) : Denotes (2 - Hsl.brightest c) (rounded (2 - n.top)) := by
  obtain ⟨hone, htwo⟩ := n.one_le_rounded_two_sub
  exact denotes_two.sub h.brightest (lt_range (by linarith) (by linarith))

theorem reach (h : n.Of c) (hne : n.top ≠ n.bottom) :
    Denotes (if 0.5 < (Hsl.brightest c + Hsl.darkest c) / 2 then 2 - Hsl.brightest c - Hsl.darkest c
      else Hsl.brightest c + Hsl.darkest c) n.reach := by
  obtain ⟨hspread, htwo⟩ := n.spread_le_reach
  have hpos := (spread_pos hne).trans_le hspread
  rw [Numbers.reach] at hpos htwo ⊢
  by_cases hlight : 1 / 2 < n.lightness
  · rw [if_pos hlight] at hpos htwo ⊢
    rw [if_pos ((denotes_half.lt_iff h.lightness).mpr hlight)]
    exact h.twoSub.sub h.darkest (lt_range hpos.le (htwo.trans (by norm_num)))
  · rw [if_neg hlight, if_neg (mt (denotes_half.lt_iff h.lightness).mp hlight)]
    exact h.sum

theorem saturation (h : n.Of c) (hne : n.top ≠ n.bottom) :
    Denotes ((Hsl.brightest c - Hsl.darkest c) /
      if 0.5 < (Hsl.brightest c + Hsl.darkest c) / 2 then 2 - Hsl.brightest c - Hsl.darkest c
      else Hsl.brightest c + Hsl.darkest c) n.saturation := by
  obtain ⟨hlow, hhigh⟩ := saturation_unit hne
  have hpos := (spread_pos hne).trans_le n.spread_le_reach.1
  exact (h.spread hne).div (h.reach hne) hpos.ne' (lt_range hlow (hhigh.trans (by norm_num)))

theorem part (h : n.Of c) (hne : n.top ≠ n.bottom) (hp : p ∈ [n.r, n.g, n.b]) (hq : q ∈ [n.r, n.g, n.b])
    (hx : Denotes x p) (hy : Denotes y q) :
    Denotes ((x - y) / (Hsl.brightest c - Hsl.darkest c)) (n.part p q) := by
  have hdiff : |rounded (p - q)| < 2 ^ 128 :=
    ((abs_rounded_sub_le_spread hp hq).trans n.spread_le_one).trans_lt (by norm_num)
  exact (hx.sub hy hdiff).div (h.spread hne) (spread_pos hne).ne'
    ((abs_part_le_one hne hp hq).trans_lt (by norm_num))

theorem sextant (h : n.Of c) (hne : n.top ≠ n.bottom) :
    Denotes (Hsl.sextant c (Hsl.brightest c) (Hsl.brightest c - Hsl.darkest c)) n.sextant := by
  obtain ⟨hlow, hhigh⟩ := sextant_bounds hne
  have hrange := lt_range hlow (hhigh.trans (by norm_num))
  rw [Numbers.sextant] at hrange ⊢
  simp only [Hsl.sextant, h.brightest.beq_iff h.first, h.brightest.beq_iff h.second, h.second.lt_iff h.third]
  split_ifs with hr hless hg
  · rw [if_pos hr, if_pos hless] at hrange
    exact (h.part hne green_mem blue_mem h.second h.third).add denotes_six hrange
  · rw [if_pos hr, if_neg hless] at hrange
    exact (h.part hne green_mem blue_mem h.second h.third).add denotes_zero hrange
  · rw [if_neg hr, if_pos hg] at hrange
    exact (h.part hne blue_mem red_mem h.third h.first).add denotes_two hrange
  · rw [if_neg hr, if_neg hg] at hrange
    exact (h.part hne red_mem green_mem h.first h.second).add denotes_four hrange

theorem turns (h : n.Of c) (hne : n.top ≠ n.bottom) :
    Denotes (Hsl.sextant c (Hsl.brightest c) (Hsl.brightest c - Hsl.darkest c) / 6) n.turns := by
  obtain ⟨hlow, hhigh⟩ := turns_bounds hne
  exact (h.sextant hne).div denotes_six (by norm_num) (lt_range hlow (hhigh.trans (by norm_num)))

theorem hue (h : n.Of c) (hne : n.top ≠ n.bottom) :
    Denotes (let turns := Hsl.sextant c (Hsl.brightest c) (Hsl.brightest c - Hsl.darkest c) / 6
      if 1 ≤ turns then turns - 1 else turns) n.hue := by
  obtain ⟨hlow, hhigh⟩ := hue_bounds hne
  have hrange := lt_range hlow (hhigh.le.trans (by norm_num))
  have hturns := h.turns hne
  rw [Numbers.hue] at hrange ⊢
  simp only [denotes_one.le_iff hturns]
  split_ifs with hwhole
  · rw [if_pos hwhole] at hrange
    exact hturns.sub denotes_one hrange
  · exact hturns

end Numbers.Of

theorem ofSrgb_of_gray (h : n.Of c) (heq : n.top = n.bottom) :
    ofSrgb c = ⟨0, 0, (brightest c + darkest c) / 2⟩ := by
  have hgray := (h.brightest.beq_iff h.darkest).mpr heq
  simp only [ofSrgb, hgray, if_true]

theorem ofSrgb_of_chromatic (h : n.Of c) (hne : n.top ≠ n.bottom) :
    Denotes (ofSrgb c).hue n.hue ∧ Denotes (ofSrgb c).saturation n.saturation ∧
      Denotes (ofSrgb c).lightness n.lightness := by
  have hcolor : (brightest c == darkest c) = false :=
    Bool.eq_false_iff.mpr (mt (h.brightest.beq_iff h.darkest).mp hne)
  have hsaturation := h.saturation hne
  rw [apply_ite (fun v => (brightest c - darkest c) / v)] at hsaturation
  simp only [ofSrgb, hcolor, Bool.false_eq_true, if_false]
  exact ⟨h.hue hne, hsaturation, h.lightness⟩

/-! ## Results -/

structure InRange (h : Hsl) : Prop where
  hue : 0 ≤ h.hue ∧ h.hue < 1
  saturation : 0 ≤ h.saturation ∧ h.saturation ≤ 1
  lightness : 0 ≤ h.lightness ∧ h.lightness ≤ 1
  numbers : h.hue.isNaN = false ∧ h.saturation.isNaN = false ∧ h.lightness.isNaN = false

theorem inRange_ofSrgb (h : n.Of c) : InRange (ofSrgb c) := by
  have hlightness := unit_of_denotes h.lightness n.lightness_unit
  by_cases heq : n.top = n.bottom
  · rw [ofSrgb_of_gray h heq]
    have hzero : (0 : Float32) ≤ 0 ∧ (0 : Float32) < 1 ∧ (0 : Float32) ≤ 1 := by decide
    exact ⟨⟨hzero.1, hzero.2.1⟩, ⟨hzero.1, hzero.2.2⟩, hlightness,
      denotes_zero.isNaN, denotes_zero.isNaN, h.lightness.isNaN⟩
  · obtain ⟨hhue, hsaturation, hlight⟩ := ofSrgb_of_chromatic h heq
    obtain ⟨hlow, hhigh⟩ := Numbers.hue_bounds heq
    exact ⟨⟨(denotes_zero.le_iff hhue).mpr hlow, (hhue.lt_iff denotes_one).mpr hhigh⟩,
      unit_of_denotes hsaturation (Numbers.saturation_unit heq), unit_of_denotes hlight n.lightness_unit,
      hhue.isNaN, hsaturation.isNaN, hlight.isNaN⟩

end ColorWords.Model.Hsl
