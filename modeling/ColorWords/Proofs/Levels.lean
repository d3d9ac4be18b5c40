import ColorWords.Proofs.Adjustment

/-! # Sums of levels

The changes of adjectives are added one after the other in single precision, where a fifth is
not exact. Levels in one direction still count by their sum, as changes from one whole on are
alike. Levels that oppose each other do so when every running sum is the change of the running
net level. A sum that is rounded to something else may leave a rest when the levels cancel.
-/
namespace ColorWords

namespace Levels
open Single

def total (step : Float32) (levels : List ℤ) : Float32 := levels.foldl (fun t l => t + step * ofInt l) 0

def OneWay (levels : List ℤ) : Prop := (∀ l ∈ levels, 0 ≤ l) ∨ ∀ l ∈ levels, l ≤ 0

/-- From the net level `k` on, every sum is the change of the net level so far. -/
def Steady (step : Float32) : ℤ → List ℤ → Prop
  | _, [] => True
  | k, l :: rest => (|k + l| ≤ 2 ^ 24 ∧ (step * ofInt k + step * ofInt l == step * ofInt (k + l)) = true) ∧
      Steady step (k + l) rest

def Counted (step : Float32) (levels : List ℤ) : Prop := OneWay levels ∨ Steady step 0 levels

/-- Net levels within which the steps of the grammars add up exactly. -/
def room (step : Float32) : ℕ := if step = 0.125 then 2 ^ 24 else 2

theorem room_le (step : Float32) : room step ≤ 2 ^ 24 := by
  rw [room]
  split <;> norm_num

def rise (levels : List ℤ) : ℤ := (levels.map (max · 0)).sum

def fall (levels : List ℤ) : ℤ := rise (levels.map (-·))

def OrderFree (step : Float32) (levels : List ℤ) : Prop :=
  OneWay levels ∨ rise levels ≤ room step ∧ fall levels ≤ room step

def Exact (step : Float32) : Prop := ∀ k l : ℤ, |k| ≤ room step → |l| ≤ room step → |k + l| ≤ room step →
  (step * ofInt k + step * ofInt l == step * ofInt (k + l)) = true

def size (step : Float32) (n : ℤ) : ℚ := rounded (value step * n)

def run (step : Float32) (q : ℚ) (levels : List ℤ) : ℚ := levels.foldl (fun q l => rounded (q + size step l)) q

/-- A step of which four levels are at most one whole and `top` are at least one. Levels in one
direction add up to their sum until they reach one whole, and others within the room. -/
structure Ladder (step : Float32) (top : ℕ) : Prop where
  finite : step.isFinite = true
  pos : 0 < step
  le_one : step ≤ 1
  four : step * ofInt 4 ≤ 1
  top_pos : 0 < top
  top_le : top ≤ 2 ^ 24
  whole : 1 ≤ step * ofInt top
  climb : ∀ k < top, ∀ l < 5, if k + l < top
    then (step * ofInt (k : ℕ) + step * ofInt (l : ℕ) == step * ofInt ↑(k + l)) = true
    else 1 ≤ step * ofInt (k : ℕ) + step * ofInt (l : ℕ)
  exact : Exact step

instance (levels : List ℤ) : Decidable (OneWay levels) := inferInstanceAs (Decidable (_ ∨ _))

instance decidableSteady (step : Float32) : (k : ℤ) → (levels : List ℤ) → Decidable (Steady step k levels)
  | _, [] => inferInstanceAs (Decidable True)
  | k, l :: rest =>
    have := decidableSteady step (k + l) rest
    inferInstanceAs (Decidable (_ ∧ _))

instance (step : Float32) (levels : List ℤ) : Decidable (Counted step levels) := inferInstanceAs (Decidable (_ ∨ _))

instance (step : Float32) (levels : List ℤ) : Decidable (OrderFree step levels) := inferInstanceAs (Decidable (_ ∨ _))

variable {step x y : Float32} {top : ℕ} {levels : List ℤ} {k l n : ℤ} {p q : ℚ}

theorem size_zero : size step 0 = 0 := by rw [size, Int.cast_zero, mul_zero, rounded_zero]

theorem size_neg (n : ℤ) : size step (-n) = -size step n := by
  rw [size, Int.cast_neg, mul_neg, rounded_neg, size]

namespace Ladder
variable (h : Ladder step top)
include h

theorem denotes_step : Denotes step (value step) := denotes_value h.finite

theorem value_pos : 0 < value step := (denotes_zero.lt_iff h.denotes_step).mp h.pos

theorem value_le_one : value step ≤ 1 := (h.denotes_step.le_iff denotes_one).mp h.le_one

theorem size_mono {m n : ℤ} (hmn : m ≤ n) : size step m ≤ size step n :=
  rounded_mono (mul_le_mul_of_nonneg_left (Int.cast_le.mpr hmn) h.value_pos.le)

theorem size_nonneg (hn : 0 ≤ n) : 0 ≤ size step n := size_zero.ge.trans (h.size_mono hn)

theorem abs_size_le (hn : |n| ≤ 2 ^ 24) : |size step n| ≤ 2 ^ 24 := by
  have hn' : |(n : ℚ)| ≤ 2 ^ 24 := by exact_mod_cast hn
  refine abs_rounded_le representable_two_pow_24 ?_
  rw [abs_mul, abs_of_pos h.value_pos]
  exact (mul_le_of_le_one_left (abs_nonneg _) h.value_le_one).trans hn'

theorem denotes_change (hn : |n| ≤ 2 ^ 24) : Denotes (step * ofInt n) (size step n) :=
  h.denotes_step.mul (denotes_ofInt hn) ((h.abs_size_le hn).trans_lt (by norm_num))

theorem abs_size_le_one (hl : |l| ≤ 4) : |size step l| ≤ 1 := by
  have hfour : size step 4 ≤ 1 := ((h.denotes_change (by norm_num)).le_iff denotes_one).mp h.four
  obtain ⟨hlow, hhigh⟩ := abs_le.mp hl
  have hlow' := h.size_mono hlow
  rw [size_neg] at hlow'
  exact abs_le.mpr ⟨(neg_le_neg hfour).trans hlow', (h.size_mono hhigh).trans hfour⟩

theorem denotes_add (hx : Denotes x q) (hq : |q| ≤ 2 ^ 24) (hl : |l| ≤ 4) :
    Denotes (x + step * ofInt l) (rounded (q + size step l)) :=
  hx.add (h.denotes_change (hl.trans (by norm_num)))
    ((abs_rounded_add_le hq (h.abs_size_le_one hl)).trans_lt (by norm_num))

theorem denotes_sum (hk : |k| ≤ 2 ^ 24) (hl : |l| ≤ 4) :
    Denotes (step * ofInt k + step * ofInt l) (rounded (size step k + size step l)) :=
  h.denotes_add (h.denotes_change hk) (h.abs_size_le hk) hl

theorem denotes_foldl (hx : Denotes x q) (hq : |q| ≤ 2 ^ 24) (hsmall : ∀ l ∈ levels, |l| ≤ 4) :
    Denotes (levels.foldl (fun t l => t + step * ofInt l) x) (run step q levels) := by
  induction levels generalizing x q with
  | nil => exact hx
  | cons l rest ih =>
    obtain ⟨hl, hrest⟩ := List.forall_mem_cons.mp hsmall
    exact ih (h.denotes_add hx hq hl) (abs_rounded_add_le hq (h.abs_size_le_one hl)) hrest

theorem denotes_total (hsmall : ∀ l ∈ levels, |l| ≤ 4) : Denotes (total step levels) (run step 0 levels) :=
  h.denotes_foldl denotes_zero (by norm_num) hsmall

end Ladder

/-- A sum that counts like the change of `n` levels: it is that change, or both are at least one
whole in one direction. -/
def Stands (step : Float32) (top : ℕ) (n : ℤ) (q : ℚ) : Prop :=
  q = size step n ∨ top ≤ n ∧ 1 ≤ q ∨ n ≤ -top ∧ q ≤ -1

theorem Stands.neg (hq : Stands step top n q) : Stands step top (-n) (-q) := by
  rcases hq with rfl | ⟨hn, hq⟩ | ⟨hn, hq⟩
  · exact .inl (size_neg n).symm
  · exact .inr (.inr ⟨neg_le_neg hn, neg_le_neg hq⟩)
  · exact .inr (.inl ⟨le_neg_of_le_neg hn, le_neg_of_le_neg hq⟩)

theorem Stands.one_le (h : Ladder step top) (hq : Stands step top n q) (hn : top ≤ n) : 1 ≤ q := by
  have htop := h.top_pos
  have htop' := h.top_le
  rcases hq with rfl | ⟨-, hq⟩ | ⟨hn', -⟩
  · have hwhole := (denotes_one.le_iff (h.denotes_change (abs_le.mpr ⟨by omega, by omega⟩))).mp h.whole
    exact hwhole.trans (h.size_mono hn)
  · exact hq
  · omega

/-- Below one whole the sum of two changes is the change of the summed levels, and from there on
it stays at one whole or more. -/
theorem Stands.up (h : Ladder step top) (hq : Stands step top n q) (hn : 0 ≤ n) (hl : 0 ≤ l) (hl4 : l ≤ 4) :
    Stands step top (n + l) (rounded (q + size step l)) := by
  have htop := h.top_pos
  have htop' := h.top_le
  rcases lt_or_ge n top with hlow | hhigh
  -- Here `q` is the change of `n` itself, and the ladder was checked for all such sums.
  · have hsize : q = size step n := by
      rcases hq with hq | ⟨hn', -⟩ | ⟨hn', -⟩
      · exact hq
      · omega
      · omega
    have hsum := h.denotes_sum (k := n) (l := l) (abs_le.mpr ⟨by omega, by omega⟩) (abs_le.mpr ⟨by omega, hl4⟩)
    rw [hsize]
    lift n to ℕ using hn
    lift l to ℕ using hl
    have hclimb := h.climb n (by omega) l (by omega)
    split at hclimb
    case isTrue hlt =>
      have hnet := h.denotes_change (n := ↑(n + l)) (abs_le.mpr ⟨by omega, by omega⟩)
      exact .inl ((hsum.beq_iff hnet).mp hclimb)
    case isFalse hge => exact .inr (.inl ⟨by omega, (denotes_one.le_iff hsum).mp hclimb⟩)
  · have hone : 1 ≤ q + size step l := le_add_of_le_of_nonneg (hq.one_le h hhigh) (h.size_nonneg hl)
    exact .inr (.inl ⟨by omega, le_rounded denotes_one.representable hone⟩)

theorem Stands.down (h : Ladder step top) (hq : Stands step top n q) (hn : n ≤ 0) (hl : l ≤ 0) (hl4 : -4 ≤ l) :
    Stands step top (n + l) (rounded (q + size step l)) := by
  have hup := (hq.neg.up h (neg_nonneg.mpr hn) (neg_nonneg.mpr hl) (neg_le.mpr hl4)).neg
  rw [size_neg, ← neg_add, ← neg_add, rounded_neg, neg_neg, neg_neg] at hup
  exact hup

theorem Stands.run_oneWay (h : Ladder step top) (hq : Stands step top n q) (hsmall : ∀ l ∈ levels, |l| ≤ 4)
    (hway : (0 ≤ n ∧ ∀ l ∈ levels, 0 ≤ l) ∨ n ≤ 0 ∧ ∀ l ∈ levels, l ≤ 0) :
    Stands step top (n + levels.sum) (run step q levels) := by
  induction levels generalizing n q with
  | nil => rwa [List.sum_nil, add_zero]
  | cons l rest ih =>
    obtain ⟨hl, hrest⟩ := List.forall_mem_cons.mp hsmall
    obtain ⟨hlow, hhigh⟩ := abs_le.mp hl
    rw [List.sum_cons, ← add_assoc]
    rcases hway with ⟨hn, hlevels⟩ | ⟨hn, hlevels⟩
    · obtain ⟨hl0, hlater⟩ := List.forall_mem_cons.mp hlevels
      exact ih (hq.up h hn hl0 hhigh) hrest (.inl ⟨add_nonneg hn hl0, hlater⟩)
    · obtain ⟨hl0, hlater⟩ := List.forall_mem_cons.mp hlevels
      exact ih (hq.down h hn hl0 hlow) hrest (.inr ⟨add_nonpos hn hl0, hlater⟩)

theorem Ladder.run_steady (h : Ladder step top) (hk : |k| ≤ 2 ^ 24) (hsmall : ∀ l ∈ levels, |l| ≤ 4)
    (hsteady : Steady step k levels) : run step (size step k) levels = size step (k + levels.sum) := by
  induction levels generalizing k with
  | nil => rw [List.sum_nil, add_zero, run, List.foldl_nil]
  | cons l rest ih =>
    obtain ⟨hl, hrest⟩ := List.forall_mem_cons.mp hsmall
    obtain ⟨⟨hkl, hexact⟩, hlater⟩ := hsteady
    have hnext := ((h.denotes_sum hk hl).beq_iff (h.denotes_change hkl)).mp hexact
    rw [List.sum_cons, ← add_assoc, ← ih hkl hrest hlater, ← hnext]
    rfl

theorem Ladder.stands_run (h : Ladder step top) (hsmall : ∀ l ∈ levels, |l| ≤ 4) (hcounted : Counted step levels) :
    Stands step top levels.sum (run step 0 levels) := by
  have hzero : size step 0 = 0 := size_zero
  rw [← hzero, ← zero_add levels.sum]
  rcases hcounted with hway | hsteady
  · exact Stands.run_oneWay h (.inl rfl) hsmall (hway.imp (⟨le_rfl, ·⟩) (⟨le_rfl, ·⟩))
  · exact .inl (h.run_steady (by norm_num) hsmall hsteady)

/-- A first level is added exactly. -/
theorem Ladder.run_cons (h : Ladder step top) (hl : |l| ≤ 4) (rest : List ℤ) :
    run step 0 (l :: rest) = run step (size step l) rest := by
  have hfirst : rounded (0 + size step l) = size step l := by
    rw [zero_add]
    exact rounded_of_representable (h.denotes_change (hl.trans (by norm_num))).representable
  rw [run, List.foldl_cons, hfirst, run]

/-- The first two changes may change places, as nothing is rounded before their sum. -/
theorem Ladder.run_swap (h : Ladder step top) (hk : |k| ≤ 4) (hl : |l| ≤ 4) (levels : List ℤ) :
    run step 0 (k :: l :: levels) = run step 0 (l :: k :: levels) := by
  rw [h.run_cons hk, h.run_cons hl, run, run, List.foldl_cons, List.foldl_cons, add_comm]

/-- Levels of nothing change no running sum. -/
theorem Ladder.run_filter (h : Ladder step top) (hx : Denotes x q) (hq : |q| ≤ 2 ^ 24)
    (hsmall : ∀ l ∈ levels, |l| ≤ 4) : run step q (levels.filter (· ≠ 0)) = run step q levels := by
  induction levels generalizing x q with
  | nil => rfl
  | cons l rest ih =>
    obtain ⟨hl, hrest⟩ := List.forall_mem_cons.mp hsmall
    by_cases hzero : l = 0
    · subst hzero
      have hstays : rounded (q + size step 0) = q := by
        rw [size_zero, add_zero, rounded_of_representable hx.representable]
      rw [List.filter_cons_of_neg (by simp), ih hx hq hrest, run, run, List.foldl_cons, hstays]
    · rw [List.filter_cons_of_pos (by simpa using hzero)]
      exact ih (h.denotes_add hx hq hl) (abs_rounded_add_le hq (h.abs_size_le_one hl)) hrest

/-- The levels that act on an axis agree but for the order of the first two. -/
def Exchanged (levels other : List ℤ) : Prop :=
  levels.filter (· ≠ 0) = other.filter (· ≠ 0) ∨
    ∃ k l rest, levels.filter (· ≠ 0) = k :: l :: rest ∧ other.filter (· ≠ 0) = l :: k :: rest

theorem exchanged_swap (k l : ℤ) (rest : List ℤ) : Exchanged (k :: l :: rest) (l :: k :: rest) := by
  by_cases hk : k = 0
  · exact .inl (by simp [hk, List.filter_cons])
  · by_cases hl : l = 0
    · exact .inl (by simp [hl, List.filter_cons])
    · exact .inr ⟨k, l, rest.filter (· ≠ 0), by simp [hk, hl], by simp [hk, hl]⟩

theorem Ladder.run_exchanged (h : Ladder step top) {other : List ℤ} (hsmall : ∀ l ∈ levels, |l| ≤ 4)
    (hsmall' : ∀ l ∈ other, |l| ≤ 4) (hexchanged : Exchanged levels other) :
    run step 0 levels = run step 0 other := by
  rw [← h.run_filter denotes_zero (by norm_num) hsmall, ← h.run_filter denotes_zero (by norm_num) hsmall']
  rcases hexchanged with hsame | ⟨k, l, rest, hlevels, hother⟩
  · rw [hsame]
  · have hk : |k| ≤ 4 := hsmall k (List.mem_of_mem_filter (hlevels ▸ List.mem_cons_self))
    have hl : |l| ≤ 4 := hsmall' l (List.mem_of_mem_filter (hother ▸ List.mem_cons_self))
    rw [hlevels, hother, h.run_swap hk hl]

theorem run_mono (step : Float32) (levels : List ℤ) (h : p ≤ q) : run step p levels ≤ run step q levels := by
  induction levels generalizing p q with
  | nil => exact h
  | cons l rest ih => exact ih (rounded_mono (by linarith))

/-! ## What a sum does to colors -/

section Move
variable {s : Space} (up down : Color s → Float32 → Color s) (color : Color s)

theorem smaller_one (hx : Denotes x q) (hq : 1 ≤ q) : smaller x 1 = 1 := by
  have hsmaller := hx.smaller denotes_one
  rw [min_eq_right hq] at hsmaller
  exact hsmaller.unique denotes_one one_ne_zero

theorem move_of_one_le (hx : Denotes x q) (hq : 1 ≤ q) : Adjustment.move up down x color = up color 1 := by
  have hpos : 0 < x := (denotes_zero.lt_iff hx).mpr (by linarith)
  rw [Adjustment.move, if_pos hpos, smaller_one hx hq]

theorem move_of_le_neg_one (hx : Denotes x q) (hq : q ≤ -1) : Adjustment.move up down x color = down color 1 := by
  have hneg : x < 0 := (hx.lt_iff denotes_zero).mpr (by linarith)
  have hpos : ¬ 0 < x := fun hlt => by linarith [(denotes_zero.lt_iff hx).mp hlt]
  rw [Adjustment.move, if_neg hpos, if_pos hneg, smaller_one hx.neg (le_neg_of_le_neg hq)]

theorem Stands.move_eq (h : Ladder step top) (hx : Denotes x p) (hy : Denotes y q) (hp : Stands step top n p)
    (hq : Stands step top n q) : Adjustment.move up down x color = Adjustment.move up down y color := by
  by_cases hhigh : top ≤ n
  · rw [move_of_one_le up down color hx (hp.one_le h hhigh), move_of_one_le up down color hy (hq.one_le h hhigh)]
  · by_cases hlow : n ≤ -top
    · have hp' := hp.neg.one_le h (le_neg_of_le_neg hlow)
      have hq' := hq.neg.one_le h (le_neg_of_le_neg hlow)
      rw [move_of_le_neg_one up down color hx (le_neg_of_le_neg hp'),
        move_of_le_neg_one up down color hy (le_neg_of_le_neg hq')]
    · have hbetween {r : ℚ} (hr : Stands step top n r) : r = size step n := by
        rcases hr with hr | ⟨hn, -⟩ | ⟨hn, -⟩
        · exact hr
        · exact absurd hn hhigh
        · exact absurd hn hlow
      rw [hbetween hp] at hx
      rw [hbetween hq] at hy
      exact Adjustment.move_congr up down (hx.alike hy) color

end Move

/-! ## The steps of the grammars -/

theorem exact_fifth : Exact 0.20 := by
  have hroom : room 0.20 = 2 := by decide
  have htable : ∀ k ∈ [-2, -1, 0, 1, 2], ∀ l ∈ [-2, -1, 0, 1, 2],
      |k + l| ≤ 2 → ((0.20 : Float32) * ofInt k + 0.20 * ofInt l == 0.20 * ofInt (k + l)) = true := by
    decide
  have hmem {k : ℤ} (hk : |k| ≤ 2) : k ∈ [-2, -1, 0, 1, 2] := by
    obtain ⟨hlow, hhigh⟩ := abs_le.mp hk
    simp only [List.mem_cons, List.not_mem_nil, or_false]
    omega
  rw [Exact, hroom]
  exact fun k l hk hl => htable k (hmem hk) l (hmem hl)

theorem representable_eighth (hn : |n| ≤ 2 ^ 24) : Representable (1 / 8 * n) := by
  rcases hn.lt_or_eq with hlt | heq
  · exact ⟨n, -3, hlt, by norm_num, by ring⟩
  · rcases abs_eq (by norm_num) |>.mp heq with rfl | rfl
    · exact ⟨2 ^ 23, -2, by norm_num, by norm_num, by norm_num⟩
    · exact ⟨-2 ^ 23, -2, by norm_num, by norm_num, by norm_num⟩

theorem abs_eighth_lt (hn : |n| ≤ 2 ^ 24) : |(1 / 8 * n : ℚ)| < 2 ^ 128 := by
  have hn' : |(n : ℚ)| ≤ 2 ^ 24 := by exact_mod_cast hn
  rw [abs_mul]
  norm_num at hn' ⊢
  linarith

theorem denotes_eighth (hn : |n| ≤ 2 ^ 24) : Denotes (0.125 * ofInt n) (1 / 8 * n) := by
  have heighth : Denotes 0.125 (1 / 8) := by
    have hunpack : (0.125 : Float32).toModel.unpack = .finite .positive (2 ^ 23) (-26) (by decide) := by rfl
    have hdenotes := denotes_of_unpack hunpack
    norm_num [signFactor] at hdenotes
    exact hdenotes
  exact heighth.mul_exact (denotes_ofInt hn) (representable_eighth hn) (abs_eighth_lt hn)

theorem exact_eighth : Exact 0.125 := by
  have hroom : ((room 0.125 : ℕ) : ℤ) = 2 ^ 24 := by decide
  rw [Exact, hroom]
  intro k l hk hl hkl
  have hsplit : (1 / 8 * (k + l : ℤ) : ℚ) = 1 / 8 * k + 1 / 8 * l := by
    push_cast
    ring
  have hsum := (denotes_eighth hk).add_exact (denotes_eighth hl) (hsplit ▸ representable_eighth hkl)
    (hsplit ▸ abs_eighth_lt hkl)
  exact (hsum.beq_iff (denotes_eighth hkl)).mpr hsplit.symm

theorem ladder_fifth : Ladder 0.20 5 := by
  refine ⟨?_, ?_, ?_, ?_, ?_, ?_, ?_, ?_, exact_fifth⟩ <;> decide

theorem ladder_eighth : Ladder 0.125 8 := by
  refine ⟨?_, ?_, ?_, ?_, ?_, ?_, ?_, ?_, exact_eighth⟩ <;> decide

/-! ## Levels in any order -/

theorem rise_nonneg (levels : List ℤ) : 0 ≤ rise levels :=
  List.sum_nonneg (List.forall_mem_map.mpr fun _ _ => le_max_right _ _)

theorem fall_nonneg (levels : List ℤ) : 0 ≤ fall levels := rise_nonneg _

theorem rise_cons (l : ℤ) (rest : List ℤ) : rise (l :: rest) = max l 0 + rise rest := List.sum_cons

theorem fall_cons (l : ℤ) (rest : List ℤ) : fall (l :: rest) = max (-l) 0 + fall rest := rise_cons _ _

/-- Where the levels up and down both fit, every running net level does. -/
theorem Ladder.steady (h : Ladder step top) (hk : |k| ≤ room step) (hl : ∀ l ∈ levels, |l| ≤ room step)
    (hrise : k + rise levels ≤ room step) (hfall : fall levels - k ≤ room step) : Steady step k levels := by
  induction levels generalizing k with
  | nil => trivial
  | cons l rest ih =>
    obtain ⟨hl, hrest⟩ := List.forall_mem_cons.mp hl
    have hrise0 := rise_nonneg rest
    have hfall0 := fall_nonneg rest
    rw [rise_cons] at hrise
    rw [fall_cons] at hfall
    have hkl : |k + l| ≤ room step := abs_le.mpr ⟨by omega, by omega⟩
    exact ⟨⟨hkl.trans (by exact_mod_cast room_le step), h.exact k l hk hl hkl⟩, ih hkl hrest (by omega) (by omega)⟩

theorem OrderFree.perm {other : List ℤ} (h : OrderFree step levels) (hperm : other.Perm levels) :
    OrderFree step other := by
  rcases h with hway | ⟨hrise, hfall⟩
  · refine .inl (hway.imp ?_ ?_)
    · exact fun h l hl => h l (hperm.mem_iff.mp hl)
    · exact fun h l hl => h l (hperm.mem_iff.mp hl)
  · refine .inr ⟨?_, ?_⟩
    · rwa [rise, (hperm.map _).sum_eq]
    · rwa [fall, rise, ((hperm.map _).map _).sum_eq]

theorem abs_le_of_mem (hl : l ∈ levels) : |l| ≤ max (rise levels) (fall levels) := by
  induction levels with
  | nil => cases hl
  | cons m rest ih =>
    have hrise := rise_nonneg rest
    have hfall := fall_nonneg rest
    rw [rise_cons, fall_cons]
    rcases List.mem_cons.mp hl with rfl | hl
    · rw [abs_le]
      omega
    · have hle := abs_le.mp (ih hl)
      rw [abs_le]
      omega

theorem OrderFree.counted (h : Ladder step top) (hfree : OrderFree step levels) : Counted step levels := by
  refine hfree.imp id ?_
  rintro ⟨hrise, hfall⟩
  refine h.steady ?_ ?_ ?_ ?_
  · simp
  · exact fun l hl => (abs_le_of_mem hl).trans (max_le hrise hfall)
  · rwa [zero_add]
  · rwa [sub_zero]

theorem sum_opposites (levels : List ℤ) : (levels.flatMap fun l => [l, -l]).sum = 0 := by
  induction levels with
  | nil => rfl
  | cons l rest ih => simp [ih]

theorem Ladder.steady_opposites (h : Ladder step top) (hsmall : ∀ l ∈ levels, |l| ≤ 4) :
    Steady step 0 (levels.flatMap fun l => [l, -l]) := by
  induction levels with
  | nil => trivial
  | cons l rest ih =>
    obtain ⟨hl, hrest⟩ := List.forall_mem_cons.mp hsmall
    have hl24 : |l| ≤ 2 ^ 24 := hl.trans (by norm_num)
    have hneg : |-l| ≤ 4 := by rwa [abs_neg]
    have hchange := h.denotes_change hl24
    have hfirst := h.denotes_sum (k := 0) (by norm_num) hl
    have hsecond := h.denotes_sum hl24 hneg
    rw [size_zero, zero_add, rounded_of_representable hchange.representable] at hfirst
    rw [size_neg, add_neg_cancel, rounded_zero] at hsecond
    have hzero : Denotes (step * ofInt 0) 0 := by
      have h0 := h.denotes_change (n := 0) (by norm_num)
      rwa [size_zero] at h0
    rw [List.flatMap_cons, List.cons_append, List.cons_append, Steady, Steady, zero_add, add_neg_cancel]
    exact ⟨⟨hl24, (hfirst.beq_iff hchange).mpr rfl⟩, ⟨by norm_num, (hsecond.beq_iff hzero).mpr rfl⟩, ih hrest⟩

end Levels
end ColorWords
