import ColorWords.Search
import Mathlib.Algebra.Order.Ring.Nat
import Mathlib.Data.Nat.Digits.Defs
import Mathlib.Data.Set.Function
import Mathlib.Tactic.Ring

/-! # Numbers of candidates

The digits of a number name every candidate exactly once: reading digits off is undone by
putting them together, and putting together by reading off. Counting candidates with
saturating arithmetic is counting them and saturating once.
-/
namespace ColorWords.Candidate

structure Valid (size count : ℕ) (c : Candidate) : Prop where
  length : c.picks.length = count
  picks : ∀ p ∈ c.picks, p < size
  lightness : -4 ≤ c.lightness ∧ c.lightness ≤ 4
  saturation : -4 ≤ c.saturation ∧ c.saturation ≤ 4

variable {size count n : ℕ}

theorem digits_length (size count n : ℕ) : (digits size count n).1.length = count := by
  induction count generalizing n with
  | zero => rfl
  | succ count ih => exact congrArg (· + 1) (ih (n / size))

theorem digits_lt (hsize : 0 < size) (count n : ℕ) : ∀ p ∈ (digits size count n).1, p < size := by
  induction count generalizing n with
  | zero =>
    intro p hp
    cases hp
  | succ count ih =>
    intro p hp
    rcases List.mem_cons.mp hp with rfl | hp
    · exact Nat.mod_lt n hsize
    · exact ih (n / size) p hp

theorem digits_rest (size count n : ℕ) : (digits size count n).2 = n / size ^ count := by
  induction count generalizing n with
  | zero => simp [digits]
  | succ count ih =>
    change (digits size count (n / size)).2 = _
    rw [ih, Nat.div_div_eq_div_mul, pow_succ']

theorem ofDigits_digits (size count n : ℕ) :
    Nat.ofDigits size (digits size count n).1 + size ^ count * (digits size count n).2 = n := by
  induction count generalizing n with
  | zero => simp [digits]
  | succ count ih =>
    have hrest := ih (n / size)
    change Nat.ofDigits size (n % size :: (digits size count (n / size)).1) +
      size ^ (count + 1) * (digits size count (n / size)).2 = n
    rw [Nat.ofDigits_cons, pow_succ']
    calc n % size + size * Nat.ofDigits size (digits size count (n / size)).1 +
          size * size ^ count * (digits size count (n / size)).2
        = n % size + size * (Nat.ofDigits size (digits size count (n / size)).1 +
          size ^ count * (digits size count (n / size)).2) := by ring
      _ = n % size + size * (n / size) := by rw [hrest]
      _ = n := Nat.mod_add_div n size

theorem digits_ofDigits {picks : List ℕ} (h : ∀ p ∈ picks, p < size) (rest : ℕ) :
    digits size picks.length (Nat.ofDigits size picks + size ^ picks.length * rest) = (picks, rest) := by
  induction picks with
  | nil => simp [digits]
  | cons p picks ih =>
    have hp : p < size := h p List.mem_cons_self
    have hpicks := ih (fun x hx => h x (List.mem_cons_of_mem p hx))
    have hsum : Nat.ofDigits size (p :: picks) + size ^ (p :: picks).length * rest =
        p + size * (Nat.ofDigits size picks + size ^ picks.length * rest) := by
      rw [Nat.ofDigits_cons, List.length_cons, pow_succ']
      ring
    have hmod : (p + size * (Nat.ofDigits size picks + size ^ picks.length * rest)) % size = p := by
      rw [Nat.add_mul_mod_self_left, Nat.mod_eq_of_lt hp]
    have hdiv : (p + size * (Nat.ofDigits size picks + size ^ picks.length * rest)) / size =
        Nat.ofDigits size picks + size ^ picks.length * rest := by
      rw [Nat.add_mul_div_left _ _ (by omega), Nat.div_eq_of_lt hp, Nat.zero_add]
    rw [hsum, List.length_cons, digits, hdiv, hmod, hpicks]

def number (size : ℕ) (c : Candidate) : ℕ :=
  Nat.ofDigits size c.picks +
    size ^ c.picks.length * ((c.lightness + 4).toNat + levelCount * (c.saturation + 4).toNat)

theorem valid_ofNumber (hsize : 0 < size) (count n : ℕ) : (ofNumber size count n).Valid size count := by
  refine ⟨digits_length size count n, digits_lt hsize count n, ?_, ?_⟩
  · simp only [ofNumber, levelCount]
    omega
  · simp only [ofNumber, levelCount]
    omega

theorem number_ofNumber (h : n < size ^ count * (levelCount * levelCount)) :
    number size (ofNumber size count n) = n := by
  have hdigits := ofDigits_digits size count n
  have hrest : (digits size count n).2 < levelCount * levelCount := by
    rw [digits_rest]
    exact Nat.div_lt_of_lt_mul h
  have hlevels : ((ofNumber size count n).lightness + 4).toNat +
      levelCount * ((ofNumber size count n).saturation + 4).toNat = (digits size count n).2 := by
    simp only [ofNumber, levelCount] at hrest ⊢
    omega
  rw [number, hlevels]
  change Nat.ofDigits size (digits size count n).1 + size ^ (digits size count n).1.length * _ = n
  rw [digits_length, hdigits]

theorem ofNumber_number {c : Candidate} (h : c.Valid size count) : ofNumber size count (number size c) = c := by
  obtain ⟨picks, lightness, saturation⟩ := c
  obtain ⟨rfl, hpicks, hlight, hsat⟩ := h
  have hdigits := digits_ofDigits hpicks ((lightness + 4).toNat + levelCount * (saturation + 4).toNat)
  simp only [ofNumber, number, hdigits]
  simp only [levelCount, Candidate.mk.injEq, true_and]
  dsimp only at hlight hsat
  omega

theorem number_lt (hsize : 0 < size) {c : Candidate} (h : c.Valid size count) :
    number size c < size ^ count * (levelCount * levelCount) := by
  obtain ⟨rfl, hpicks, hlight, hsat⟩ := h
  have hdigits := digits_ofDigits hpicks ((c.lightness + 4).toNat + levelCount * (c.saturation + 4).toNat)
  have hrest := digits_rest size c.picks.length (number size c)
  rw [number, hdigits] at hrest
  rw [Nat.mul_comm, ← Nat.div_lt_iff_lt_mul (Nat.pow_pos hsize), number, ← hrest]
  simp only [levelCount]
  omega

/-- Every candidate has exactly one number. -/
theorem bijOn_ofNumber (hsize : 0 < size) (count : ℕ) :
    Set.BijOn (ofNumber size count) (Set.Iio (size ^ count * (levelCount * levelCount)))
      {c | c.Valid size count} := by
  refine ⟨?_, ?_, ?_⟩
  · intro n _
    exact valid_ofNumber hsize count n
  · intro m hm n hn heq
    rw [← number_ofNumber hm, heq, number_ofNumber hn]
  · intro c hc
    exact ⟨number size c, number_lt hsize hc, ofNumber_number hc⟩

/-- What a counter of limited range holds for `n`. -/
def saturated (n : ℕ) : ℕ := min n countLimit

theorem total_eq (hcount : 1 ≤ count) (size : ℕ) :
    total size count = saturated (size ^ count * (levelCount * levelCount)) := by
  rw [total]
  split
  case isTrue hsize =>
    have hpow : size ^ count = size := by
      rcases Nat.le_one_iff_eq_zero_or_eq_one.mp hsize with rfl | rfl
      · exact Nat.zero_pow hcount
      · exact Nat.one_pow count
    rw [hpow, saturated, Nat.mul_assoc]
  case isFalse hsize =>
    split
    case isTrue hlong =>
      have hpow : 2 ^ 64 ≤ size ^ count :=
        (Nat.pow_le_pow_left (by omega) 64).trans (Nat.pow_le_pow_right (by omega) hlong)
      simp only [saturated, levelCount, countLimit]
      omega
    case isFalse => rw [saturated, Nat.mul_assoc, Nat.pow_eq]

/-- Saturating the power before the product changes nothing. -/
theorem saturated_mul (a b : ℕ) (hb : 1 ≤ b) : saturated (saturated a * b) = saturated (a * b) := by
  simp only [saturated]
  rcases le_total a countLimit with h | h
  · rw [Nat.min_eq_left h]
  · have hlimit : countLimit ≤ countLimit * b := Nat.le_mul_of_pos_right _ hb
    have ha : countLimit ≤ a * b := hlimit.trans (Nat.mul_le_mul_right b h)
    rw [Nat.min_eq_right h, Nat.min_eq_right hlimit, Nat.min_eq_right ha]

theorem total_eq_saturating (hcount : 1 ≤ count) (size : ℕ) :
    total size count = saturated (saturated (size ^ count) * (levelCount * levelCount)) := by
  rw [total_eq hcount, saturated_mul _ _ (by decide)]

end ColorWords.Candidate
