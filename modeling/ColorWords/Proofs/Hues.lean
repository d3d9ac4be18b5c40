import ColorWords.Palette.Table
import ColorWords.Proofs.Cylinder
import ColorWords.Proofs.Opponent

/-! # Hues of stored colors

Written with divisions that can fail, the computation of hue, saturation and lightness shows
what it divides by. Stored bytes, and the channels that stored intensity, protan and tritan
reconstruct to, lie in the unit interval, so that their hues are parts of a turn.
-/
namespace ColorWords.Model.Hsl
open Single
variable {n : Numbers} {c : Channels}

/-! ## Divisions -/

def sextantBy {m : Type → Type} [Monad m] (divide : Float32 → Float32 → m Float32) (c : Channels)
    (top spread : Float32) : m Float32 :=
  if top == c.first then do
    return (← divide (c.second - c.third) spread) + (if c.second < c.third then 6 else 0)
  else if top == c.second then do return (← divide (c.third - c.first) spread) + 2
  else do return (← divide (c.first - c.second) spread) + 4

/-- `ofSrgb` with divisions that have effects. -/
def ofSrgbBy {m : Type → Type} [Monad m] (divide : Float32 → Float32 → m Float32) (c : Channels) : m Hsl := do
  let top := brightest c
  let bottom := darkest c
  let lightness ← divide (top + bottom) 2
  if top == bottom then return ⟨0, 0, lightness⟩
  else
    let spread := top - bottom
    let saturation ← if 0.5 < lightness then divide spread (2 - top - bottom) else divide spread (top + bottom)
    let hue ← divide (← sextantBy divide c top spread) 6
    return ⟨if 1 ≤ hue then hue - 1 else hue, saturation, lightness⟩

section Divisions
variable {m : Type → Type} [Monad m] [LawfulMonad m] {divide : Float32 → Float32 → m Float32} {P : Float32 → Prop}

theorem sextantBy_eq_pure (hdivide : ∀ x y, P y → divide x y = pure (x / y)) {spread : Float32}
    (hspread : P spread) (c : Channels) (top : Float32) :
    sextantBy divide c top spread = pure (sextant c top spread) := by
  simp only [sextantBy, sextant, hdivide _ _ hspread, pure_bind]
  split_ifs <;> rfl

/-- Where divisions by what the color is divided by have no effect, there is none. -/
theorem ofSrgbBy_eq_pure (hdivide : ∀ x y, P y → divide x y = pure (x / y)) (htwo : P 2) (hsix : P 6)
    (hcolor : ¬ (brightest c == darkest c) = true → P (brightest c - darkest c) ∧
      P (if 0.5 < (brightest c + darkest c) / 2 then 2 - brightest c - darkest c
        else brightest c + darkest c)) :
    ofSrgbBy divide c = pure (ofSrgb c) := by
  simp only [ofSrgbBy, ofSrgb, hdivide _ _ htwo, pure_bind]
  by_cases hgray : (brightest c == darkest c) = true
  · rw [if_pos hgray, if_pos hgray]
  · obtain ⟨hspread, hreach⟩ := hcolor hgray
    rw [if_neg hgray, if_neg hgray, sextantBy_eq_pure hdivide hspread]
    simp only [pure_bind, hdivide _ _ hsix]
    split_ifs at hreach ⊢ <;> simp only [hdivide _ _ hreach, pure_bind]

end Divisions

/-- Without effects it is the same computation. -/
theorem ofSrgbBy_pure (c : Channels) : (ofSrgbBy (fun x y => (pure (x / y) : Id Float32)) c).run = ofSrgb c := by
  rw [ofSrgbBy_eq_pure (P := fun _ => True) (fun _ _ _ => rfl) trivial trivial fun _ => ⟨trivial, trivial⟩]
  rfl

def dividePositive (x y : Float32) : Option Float32 := if 0 < y then some (x / y) else none

/-- The computation divides by positive numbers only. -/
theorem ofSrgbBy_dividePositive (h : n.Of c) : ofSrgbBy dividePositive c = some (ofSrgb c) := by
  have hpositive {y : Float32} {q : ℚ} (hy : Denotes y q) (hq : 0 < q) : 0 < y := (denotes_zero.lt_iff hy).mpr hq
  refine ofSrgbBy_eq_pure (P := fun y => 0 < y) (fun x y hy => if_pos hy) (hpositive denotes_two (by norm_num))
    (hpositive denotes_six (by norm_num)) fun hcolor => ?_
  have hne : n.top ≠ n.bottom := mt (h.brightest.beq_iff h.darkest).mpr hcolor
  exact ⟨hpositive (h.spread hne) (Numbers.spread_pos hne),
    hpositive (h.reach hne) ((Numbers.spread_pos hne).trans_le n.spread_le_reach.1)⟩

end ColorWords.Model.Hsl

namespace ColorWords
open Layout Single Model

/-! ## Stored colors -/

theorem Rgb.exists_numbers (c : Rgb) : ∃ n : Hsl.Numbers, n.Of c.channels := by
  have hunit (shift : UInt32) : 0 ≤ unit (byteAt c.bits shift) ∧ unit (byteAt c.bits shift) ≤ 1 := by
    have hle := cast_byte_le (byteAt_lt c.bits shift)
    refine unit_of_denotes (denotes_unit _ (byteAt_lt c.bits shift)) ⟨rounded_nonneg (by positivity), ?_⟩
    exact rounded_le denotes_one.representable (by linarith)
  exact Hsl.exists_numbers (by simp [Rgb.channels, unpack, hunit])

section Reconstructed
variable {v : Channels} {x : Float32}

/-- Channels of at most one lead to finite red, green and blue. -/
theorem Model.Ipt.within_toLinear (hfirst : Within 0 v.first) (hsecond : Within 0 v.second)
    (hthird : Within 0 v.third) :
    Within 10 (toLinear v).first ∧ Within 10 (toLinear v).second ∧ Within 10 (toLinear v).third := by
  have hscaled {n : ℕ} {k x : Float32} (hk : -8 ≤ k ∧ k ≤ 8) (hx : Within n x) (hn : 3 + n < 128) :
      Within (3 + n) (k * x) := (within_of_bounds hk).mul hx hn
  have hl : Within 5 (v.first + 0.097569 * v.second + 0.205226 * v.third) :=
    (hfirst.add (hscaled (by decide) hsecond (by norm_num)) (by norm_num)).add
      (hscaled (by decide) hthird (by norm_num)) (by norm_num)
  have hm : Within 5 (v.first - 0.11388 * v.second + 0.133217 * v.third) :=
    (hfirst.sub (hscaled (by decide) hsecond (by norm_num)) (by norm_num)).add
      (hscaled (by decide) hthird (by norm_num)) (by norm_num)
  have hs : Within 5 (v.first + 0.032615 * v.second - 0.67689 * v.third) :=
    (hfirst.add (hscaled (by decide) hsecond (by norm_num)) (by norm_num)).sub
      (hscaled (by decide) hthird (by norm_num)) (by norm_num)
  refine ⟨?_, ?_, ?_⟩
  · exact ((hscaled (by decide) hl (by norm_num)).sub (hscaled (by decide) hm (by norm_num))
      (by norm_num)).add (hscaled (by decide) hs (by norm_num)) (by norm_num)
  · exact ((hscaled (by decide) hl (by norm_num)).add (hscaled (by decide) hm (by norm_num))
      (by norm_num)).sub (hscaled (by decide) hs (by norm_num)) (by norm_num)
  · exact ((hscaled (by decide) hl (by norm_num)).sub (hscaled (by decide) hm (by norm_num))
      (by norm_num)).add (hscaled (by decide) hs (by norm_num)) (by norm_num)

end Reconstructed

namespace Ipt
variable (c : Ipt)

theorem within_channels :
    Within 0 c.channels.first ∧ Within 0 c.channels.second ∧ Within 0 c.channels.third := by
  have hunit (shift : UInt32) : Within 0 (unit (byteAt c.bits shift)) := by
    have hle := cast_byte_le (byteAt_lt c.bits shift)
    refine ⟨_, denotes_unit _ (byteAt_lt c.bits shift), abs_rounded_le_two_pow ?_⟩
    rw [abs_of_nonneg (by positivity), pow_zero]
    linarith
  have hopponent (shift : UInt32) : Within 0 (opponent (byteAt c.bits shift)) :=
    ⟨_, denotes_opponent _ (byteAt_lt c.bits shift), by
      rw [pow_zero]
      exact abs_opponentValue_le (byteAt_lt c.bits shift)⟩
  exact ⟨hunit _, hopponent _, hopponent _⟩

theorem exists_numbers : ∃ n : Hsl.Numbers, n.Of c.srgb := by
  obtain ⟨hfirst, hsecond, hthird⟩ := c.within_channels
  obtain ⟨hred, hgreen, hblue⟩ := Model.Ipt.within_toLinear hfirst hsecond hthird
  have hunit {x : Float32} (hx : Within 10 x) : 0 ≤ clampUnit x ∧ clampUnit x ≤ 1 := by
    obtain ⟨q, hq, -⟩ := hx
    exact unit_of_denotes hq.clampUnit (clampUnit_mem q)
  exact Hsl.exists_numbers (by simp [Ipt.srgb, Model.Ipt.toSrgb, Channels.map, hunit hred, hunit hgreen, hunit hblue])

/-- Half of the spread is no more than what it is divided by, black included. -/
theorem within_relativeSpread {n : Hsl.Numbers} {v : Channels} (h : n.Of v) :
    Within 0 (0.5 * (Hsl.brightest v - Hsl.darkest v) / (Hsl.brightest v + 1e-10)) := by
  obtain ⟨-, htop0, htop1⟩ := n.top_unit
  obtain ⟨-, hbottom0, hbottom1⟩ := n.bottom_unit
  have hle : n.bottom ≤ n.top := Hsl.Numbers.bottom_le n.top_mem
  obtain ⟨tiny, htiny, -, htiny1⟩ := denotes_of_bounds denotes_zero denotes_one
    (by decide : (0 : Float32) ≤ 1e-10) (by decide)
  have htiny0 : 0 < tiny := (denotes_zero.lt_iff htiny).mp (by decide)
  have hspread0 : 0 ≤ n.spread := rounded_nonneg (by linarith)
  have hspreadtop : n.spread ≤ n.top := rounded_le n.top_unit.1 (by linarith)
  have hspread : Denotes (Hsl.brightest v - Hsl.darkest v) n.spread :=
    h.brightest.sub h.darkest (lt_range hspread0 (hspreadtop.trans (by linarith)))
  have hhalf0 : 0 ≤ rounded (1 / 2 * n.spread) := rounded_nonneg (by linarith)
  have hhalf : rounded (1 / 2 * n.spread) ≤ n.spread := rounded_le hspread.representable (by linarith)
  have hbase0 : tiny ≤ rounded (n.top + tiny) := le_rounded htiny.representable (by linarith)
  have hbasetop : n.top ≤ rounded (n.top + tiny) := le_rounded n.top_unit.1 (by linarith)
  have hbase2 : rounded (n.top + tiny) ≤ 2 := rounded_le denotes_two.representable (by linarith)
  have hpart : |rounded (rounded (1 / 2 * n.spread) / rounded (n.top + tiny))| ≤ 1 := by
    refine abs_rounded_div_le_one (htiny0.trans_le hbase0) ?_
    rw [abs_of_nonneg hhalf0]
    linarith
  refine ⟨_, ?_, hpart.trans (by norm_num)⟩
  exact (denotes_half.mul hspread (lt_range hhalf0 (by linarith))).div
    (h.brightest.add htiny (lt_range (by linarith) (by linarith))) (by linarith) (hpart.trans_lt (by norm_num))

/-- Saturation and lightness of reconstructed channels are finite. -/
theorem isNaN_descriptors : c.saturation.isNaN = false ∧ c.lightness.isNaN = false := by
  obtain ⟨n, hn⟩ := c.exists_numbers
  have hwithin {q : ℚ} {x : Float32} (hx : Denotes x q) (hq : Representable q ∧ 0 ≤ q ∧ q ≤ 1) : Within 0 x :=
    ⟨q, hx, by rw [abs_of_nonneg hq.2.1, pow_zero]; exact hq.2.2⟩
  have htop := hwithin hn.brightest n.top_unit
  have hbottom := hwithin hn.darkest n.bottom_unit
  have hnumber {k : ℕ} {x : Float32} (hx : Within k x) : x.isNaN = false := by
    obtain ⟨q, hq, -⟩ := hx
    exact hq.isNaN
  constructor
  · rw [saturation]
    split_ifs
    · exact denotes_zero.isNaN
    · exact hnumber (htop.sub hbottom (by norm_num))
  · have hone : Within 0 1 := hwithin denotes_one ⟨denotes_one.representable, by norm_num, le_rfl⟩
    exact hnumber (htop.mul (hone.sub (within_relativeSpread hn) (by norm_num)) (by norm_num))

end Ipt

/-- Hue, saturation and lightness of channels in the unit interval come from divisions by positive
numbers, and are in range. So the hue of every color that is given by or reconstructs to red,
green and blue is a part of a turn, and tables order such colors by numbers. -/
theorem hsl_ranges :
    (∀ c : Channels, (∀ x ∈ [c.first, c.second, c.third], 0 ≤ x ∧ x ≤ 1) →
      Hsl.ofSrgbBy Hsl.dividePositive c = some (Hsl.ofSrgb c) ∧ Hsl.InRange (Hsl.ofSrgb c)) ∧
    (∀ c : Channels, (Hsl.ofSrgbBy (fun x y => (pure (x / y) : Id Float32)) c).run = Hsl.ofSrgb c) ∧
    (∀ c : Rgb, 0 ≤ c.hue ∧ c.hue < 1) ∧ (∀ c : Ipt, 0 ≤ c.hue ∧ c.hue < 1) ∧
    ∀ s : Space, s ≠ .oklab → ∀ t : Table s, ∀ e ∈ t.colorsByHue,
      e.2.hue.isNaN = false ∧ e.2.saturation.isNaN = false ∧ e.2.lightness.isNaN = false := by
  have hrgb (c : Rgb) : Hsl.InRange c.hsl := by
    obtain ⟨n, hn⟩ := c.exists_numbers
    exact Hsl.inRange_ofSrgb hn
  have hipt (c : Ipt) : Hsl.InRange (Hsl.ofSrgb c.srgb) := by
    obtain ⟨n, hn⟩ := c.exists_numbers
    exact Hsl.inRange_ofSrgb hn
  refine ⟨fun c hunit => ?_, Hsl.ofSrgbBy_pure, fun c => (hrgb c).hue, fun c => (hipt c).hue, fun s hs t e _ => ?_⟩
  · obtain ⟨n, hn⟩ := Hsl.exists_numbers hunit
    exact ⟨Hsl.ofSrgbBy_dividePositive hn, Hsl.inRange_ofSrgb hn⟩
  · cases s with
    | rgb => exact (hrgb e.2).numbers
    | ipt => exact ⟨(hipt e.2).numbers.1, Ipt.isNaN_descriptors e.2⟩
    | oklab => exact absurd rfl hs

theorem hsl_ranges_lime :
    let c : Channels := ⟨0.75, 1, -0⟩
    (∀ x ∈ [c.first, c.second, c.third], 0 ≤ x ∧ x ≤ 1) ∧
      Hsl.ofSrgbBy Hsl.dividePositive c = some (Hsl.ofSrgb c) ∧ Hsl.InRange (Hsl.ofSrgb c) ∧
      ∃ e ∈ (⟨[("lime", ⟨0xFE00FFBF⟩)], []⟩ : Table .rgb).colorsByHue, e.2.hue.isNaN = false := by
  intro c
  have hunit : ∀ x ∈ [c.first, c.second, c.third], 0 ≤ x ∧ x ≤ 1 := by decide
  have hlime : ("lime", ⟨0xFE00FFBF⟩) ∈ (⟨[("lime", ⟨0xFE00FFBF⟩)], []⟩ : Table .rgb).colorsByHue := by decide +kernel
  obtain ⟨hdivisions, hrange⟩ := hsl_ranges.1 c hunit
  exact ⟨hunit, hdivisions, hrange, _, hlime, (hsl_ranges.2.2.2.2 .rgb (by decide) _ _ hlime).1⟩

end ColorWords
