import ColorWords.Proofs.Frame
import ColorWords.Proofs.Lightness
import ColorWords.Proofs.Single.Infinite

/-! # The strength of a change of lightness

Every lightness byte of a color is moved by itself, by a function of its own value that stays
within a byte and keeps the order of changes. So the stronger of two changes leaves no lightness
byte smaller, down to minus infinity and up to infinity.
-/
namespace ColorWords
open Layout Single

namespace Color
variable {s : Space} {channel : Channel}

/-! ## One byte at a time -/

def rewrite (c : Color s) (channel : Channel) (f : UInt32 → UInt32) : Color s :=
  ⟨setByte c.bits channel.shift (f (c.byte channel))⟩

def rewriteLightness (c : Color s) (f : UInt32 → UInt32) : Color s :=
  match s with
  | .rgb => ((c.rewrite .first f).rewrite .second f).rewrite .third f
  | .ipt | .oklab => c.rewrite .first f

def raisedByte (change : Float32) (v : UInt32) : UInt32 := wholeWord (v.toFloat32 + (255 - v).toFloat32 * change)

def loweredByte (change : Float32) (v : UInt32) : UInt32 := wholeWord (v.toFloat32 * (1 - change))

variable (c : Color s) (f : UInt32 → UInt32)

theorem byte_rewrite (channel other : Channel) :
    (c.rewrite channel f).byte other = if other = channel then f (c.byte channel) &&& 0xFF else c.byte other := by
  split_ifs with h
  · rw [h]
    exact byteAt_setByte (Channel.shift_mem channel) _ _
  · have hshift : channel.shift ∈ byteShifts := List.mem_append_left [alphaShift] (Channel.shift_mem channel)
    have hother : other.shift ∈ byteShifts := List.mem_append_left [alphaShift] (Channel.shift_mem other)
    have hne : other.shift ≠ channel.shift := by
      cases other <;> cases channel <;> first | exact absurd rfl h | decide
    have hstored := storedByte_setByte_of_ne hshift hother hne c.bits (f (c.byte channel))
    rw [storedByte, storedByte, UInt32.toNat_inj, byteAt_and_storedMask (Channel.shift_mem other),
      byteAt_and_storedMask (Channel.shift_mem other)] at hstored
    exact hstored

/-- Three bytes that are written one after the other do not see each other. -/
theorem byte_rewrite_each (channel : Channel) :
    (((c.rewrite .first f).rewrite .second f).rewrite .third f).byte channel =
      (c.rewrite channel f).byte channel := by
  cases channel <;> simp [byte_rewrite]

theorem lighten_eq (change : Float32) : c.lighten change = c.rewriteLightness (raisedByte change) := by
  cases s <;> rfl

theorem darken_eq (change : Float32) : c.darken change = c.rewriteLightness (loweredByte change) := by
  cases s <;> rfl

theorem byte_rewriteLightness (h : channel.shift ∈ s.lightnessShifts) :
    (c.rewriteLightness f).byte channel = (c.rewrite channel f).byte channel := by
  have hfirst (hshift : channel.shift ∈ [firstShift]) : channel = .first := by
    cases channel with
    | first => rfl
    | second => exact absurd hshift (by decide)
    | third => exact absurd hshift (by decide)
  cases s with
  | rgb => exact c.byte_rewrite_each f channel
  | ipt =>
    rw [hfirst h]
    rfl
  | oklab =>
    rw [hfirst h]
    rfl

end Color

/-! ## Moves without a number -/

namespace Adjustment
variable {s : Space} (up down : Color s → Float32 → Color s) (c : Color s) {x : Float32}

theorem move_infinity : move up down infinity c = move up down 1 c := by
  have hpos : (0 : Float32) < infinity := by decide
  have hsize : smaller infinity 1 = smaller 1 1 := by decide
  rw [move, move, if_pos hpos, if_pos (by decide), hsize]

theorem move_neg_infinity : move up down (-infinity) c = move up down (-1) c := by
  have hneg : ¬ (0 : Float32) < -infinity ∧ -infinity < (0 : Float32) := by decide
  have hone : ¬ (0 : Float32) < -1 ∧ (-1 : Float32) < 0 := by decide
  have hsize : smaller (-(-infinity)) 1 = smaller (-(-1)) 1 := by decide
  rw [move, move, if_neg hneg.1, if_pos hneg.2, if_neg hone.1, if_pos hone.2, hsize]

theorem move_notNumber (h : NotNumber x) : move up down x c = c := by
  rw [move, if_neg (h.not_lt_right 0), if_neg (h.not_lt_left 0)]

theorem move_nothing (h : Reaches x 0) : move up down x c = c := by
  cases h with
  | number h => exact move_zero up down h c
  | above h hp => norm_num at hp
  | below h hp => norm_num at hp
  | nothing h hp => exact move_notNumber up down c h

/-- A change of lightness with a change of saturation that is none. -/
theorem apply_lightness (h : Reaches x 0) (change : Float32) :
    apply ⟨change, x⟩ c = move .lighten .darken change c :=
  move_nothing _ _ _ h

theorem sameExcept_move {c : Color s} (h : c.Stored) (change : Float32) :
    c.SameExcept s.lightnessShifts (move .lighten .darken change c) := by
  rw [move]
  split_ifs
  · exact Color.sameExcept_lighten _ h
  · exact Color.sameExcept_darken _ h
  · exact fun _ _ _ => rfl

end Adjustment

namespace Color
variable {s : Space} (c : Color s) {channel : Channel} {x : Float32} {p : ℚ}

/-- The byte that a change leads to, for every single. -/
theorem byte_move_of_reaches (channel : Channel) (h : Reaches x p) :
    ((Adjustment.move (·.raise channel) (·.lower channel) x c).byte channel).toNat =
      movedByte (c.byte channel).toNat p := by
  have hb := c.byte_lt channel
  cases h with
  | number h => exact c.byte_move channel h
  | above h hp =>
    rw [h, Adjustment.move_infinity, byte_move c channel denotes_one, movedByte_of_one_le hb le_rfl,
      movedByte_of_one_le hb hp]
  | below h hp =>
    rw [h, Adjustment.move_neg_infinity, byte_move c channel denotes_one.neg, movedByte_of_le_neg_one le_rfl,
      movedByte_of_le_neg_one hp]
  | nothing h hp => rw [Adjustment.move_notNumber _ _ _ h, hp, movedByte_zero hb]

theorem byte_move_lightness (hchannel : channel.shift ∈ s.lightnessShifts) (h : Reaches x p) :
    ((Adjustment.move .lighten .darken x c).byte channel).toNat = movedByte (c.byte channel).toNat p := by
  have hmove : (Adjustment.move .lighten .darken x c).byte channel =
      (Adjustment.move (·.raise channel) (·.lower channel) x c).byte channel := by
    rw [Adjustment.move, Adjustment.move]
    split_ifs
    · rw [lighten_eq]
      exact c.byte_rewriteLightness (raisedByte _) hchannel
    · rw [darken_eq]
      exact c.byte_rewriteLightness (loweredByte _) hchannel
    · rfl
  rw [hmove, byte_move_of_reaches c channel h]

/-- The second color differs in lightness bytes only, none of which is smaller. -/
structure NoDarker (c d : Color s) : Prop where
  same : c.SameExcept s.lightnessShifts d
  le : ∀ channel : Channel, channel.shift ∈ s.lightnessShifts → c.byte channel ≤ d.byte channel

theorem noDarker_move {c : Color s} (h : c.Stored) {y : Float32} {q : ℚ} (hx : Reaches x p) (hy : Reaches y q)
    (hpq : p ≤ q) : NoDarker (Adjustment.move .lighten .darken x c) (Adjustment.move .lighten .darken y c) := by
  constructor
  · intro shift hshift hnot
    rw [Adjustment.sameExcept_move h y shift hshift hnot, Adjustment.sameExcept_move h x shift hshift hnot]
  · intro channel hchannel
    rw [UInt32.le_iff_toNat_le, c.byte_move_lightness hchannel hx, c.byte_move_lightness hchannel hy]
    exact movedByte_mono (c.byte_lt channel) hpq

end Color

namespace Adjustment
variable {s : Space}

/-- The stronger of two changes of lightness leaves no lightness byte smaller and no other byte
changed. From one whole on the bytes are all ones, from minus one whole on they are all zeros, and
they never wrap between. Levels of lightness are changes in this order, whatever their step is. -/
theorem apply_climbs (c : Color s) (hc : c.Stored) :
    (∀ x y : Float32, x ≤ y → (apply ⟨x, 0⟩ c).NoDarker (apply ⟨y, 0⟩ c)) ∧
      (∀ x : Float32, c.SameExcept s.lightnessShifts (apply ⟨x, 0⟩ c)) ∧
      (∀ x : Float32, x ≤ -1 → ∀ channel : Channel, channel.shift ∈ s.lightnessShifts →
        (apply ⟨x, 0⟩ c).byte channel = 0) ∧
      (∀ x : Float32, 1 ≤ x → ∀ channel : Channel, channel.shift ∈ s.lightnessShifts →
        (apply ⟨x, 0⟩ c).byte channel = 255) ∧
      (∀ x : Float32, x = 0 ∨ x = -0 → apply ⟨x, 0⟩ c = c) ∧
      ∀ g : Grammar, 0 ≤ g.lightnessStep → ∀ l m : ℤ, l ≤ m → |l| ≤ 2 ^ 24 → |m| ≤ 2 ^ 24 →
        ((g.steps l 0).apply c).NoDarker ((g.steps m 0).apply c) := by
  have hzero : Reaches 0 0 := .number denotes_zero
  simp only [apply_lightness c hzero]
  refine ⟨?_, sameExcept_move hc, ?_, ?_, ?_, ?_⟩
  · intro x y hxy
    obtain ⟨p, q, hpq, hx, hy⟩ := exists_reaches_of_le hxy
    exact Color.noDarker_move hc hx hy hpq
  · intro x hx channel hchannel
    obtain ⟨p, q, hpq, hp, hq⟩ := exists_reaches_of_le hx
    rw [hq.eq_of_denotes denotes_one.neg] at hpq
    rw [← UInt32.toNat_inj, c.byte_move_lightness hchannel hp, movedByte_of_le_neg_one hpq]
    rfl
  · intro x hx channel hchannel
    obtain ⟨p, q, hpq, hp, hq⟩ := exists_reaches_of_le hx
    rw [hp.eq_of_denotes denotes_one] at hpq
    rw [← UInt32.toNat_inj, c.byte_move_lightness hchannel hq, movedByte_of_one_le (c.byte_lt channel) hpq]
    rfl
  · rintro x (rfl | rfl)
    · exact move_zero _ _ denotes_zero c
    · exact move_zero _ _ (by exact_mod_cast denotes_zero.neg) c
  · intro g hstep l m hlm hl hm
    obtain ⟨f, hmono, hreach⟩ := exists_reaches_multiples hstep
    rw [Grammar.steps, Grammar.steps, apply_lightness c (mul_ofInt_zero_reaches _),
      apply_lightness c (mul_ofInt_zero_reaches _)]
    exact Color.noDarker_move hc (hreach l hl) (hreach m hm) (hmono hlm)

theorem apply_climbs_red :
    let red : Rgb := ⟨0xFE2010F0⟩
    red.Stored ∧ (apply ⟨-infinity, 0⟩ red).NoDarker (apply ⟨0.125, 0⟩ red) ∧
      (∀ channel : Channel, (apply ⟨-1.5, 0⟩ red).byte channel = 0) ∧
      (∀ channel : Channel, (apply ⟨infinity, 0⟩ red).byte channel = 255) ∧
      ((Grammar.extended.steps (-1) 0).apply red).NoDarker ((Grammar.extended.steps 4 0).apply red) := by
  intro red
  have hred : red.Stored := by decide
  obtain ⟨hclimbs, -, hlow, hhigh, -, hlevels⟩ := apply_climbs red hred
  have hchannel := Color.Channel.shift_mem
  exact ⟨hred, hclimbs _ _ (by decide), fun channel => hlow _ (by decide) channel (hchannel channel),
    fun channel => hhigh _ (by decide) channel (hchannel channel),
    hlevels .extended (by decide) (-1) 4 (by norm_num) (by norm_num) (by norm_num)⟩

end Adjustment
end ColorWords
