import Mathlib.Algebra.Order.Field.Power
import Mathlib.Data.Int.Log
import Mathlib.Data.Rat.Floor
import Mathlib.Tactic.FieldSimp
import Mathlib.Tactic.Linarith
import Mathlib.Tactic.NormNum
import Mathlib.Tactic.Positivity
import Mathlib.Tactic.Ring

/-! # Rounding of rationals

The value of a single is an integer multiple of a power of two. `rounded` takes a
rational to the nearest such multiple with 24 binary digits, an even one from a tie;
small rationals keep the least exponent, and large ones have no bound here.
-/
namespace ColorWords.Single

def halfEven (q : ℚ) : ℤ :=
  match compare (Int.fract q) (1 / 2) with
  | .lt => ⌊q⌋
  | .eq => ⌊q⌋ + ⌊q⌋ % 2
  | .gt => ⌊q⌋ + 1

theorem halfEven_of_lt {q : ℚ} (h : Int.fract q < 1 / 2) : halfEven q = ⌊q⌋ := by
  rw [halfEven, compare_lt_iff_lt.mpr h]

theorem halfEven_of_eq {q : ℚ} (h : Int.fract q = 1 / 2) : halfEven q = ⌊q⌋ + ⌊q⌋ % 2 := by
  rw [halfEven, compare_eq_iff_eq.mpr h]

theorem halfEven_of_gt {q : ℚ} (h : 1 / 2 < Int.fract q) : halfEven q = ⌊q⌋ + 1 := by
  rw [halfEven, compare_gt_iff_gt.mpr h]

@[simp] theorem halfEven_intCast (n : ℤ) : halfEven n = n := by
  rw [halfEven_of_lt (by norm_num), Int.floor_intCast]

theorem halfEven_bounds (q : ℚ) : ⌊q⌋ ≤ halfEven q ∧ halfEven q ≤ ⌊q⌋ + 1 := by
  rcases lt_trichotomy (Int.fract q) (1 / 2) with h | h | h
  · rw [halfEven_of_lt h]; omega
  · rw [halfEven_of_eq h]; omega
  · rw [halfEven_of_gt h]; omega

theorem halfEven_mono {p q : ℚ} (h : p ≤ q) : halfEven p ≤ halfEven q := by
  have hf : ⌊p⌋ ≤ ⌊q⌋ := Int.floor_mono h
  rcases hf.lt_or_eq with hlt | heq
  · have hp := (halfEven_bounds p).2
    have hq := (halfEven_bounds q).1
    omega
  · have hr : Int.fract p ≤ Int.fract q := by
      simp only [Int.fract, heq]
      linarith
    rcases lt_trichotomy (Int.fract q) (1 / 2) with hq | hq | hq
    · rw [halfEven_of_lt hq, halfEven_of_lt (hr.trans_lt hq), heq]
    · rcases (hq ▸ hr).lt_or_eq with hp | hp
      · rw [halfEven_of_lt hp, heq]
        exact (halfEven_bounds q).1
      · rw [halfEven_of_eq hq, halfEven_of_eq hp, heq]
    · rw [halfEven_of_gt hq, ← heq]
      exact (halfEven_bounds p).2

theorem halfEven_neg (q : ℚ) : halfEven (-q) = -halfEven q := by
  by_cases hz : Int.fract q = 0
  · obtain ⟨n, rfl⟩ : ∃ n : ℤ, (n : ℚ) = q := ⟨⌊q⌋, by linarith [Int.fract_add_floor q]⟩
    rw [← Int.cast_neg, halfEven_intCast, halfEven_intCast]
  · have hf : ⌊-q⌋ = -⌊q⌋ - 1 := by
      have hpos : 0 < Int.fract q := (Int.fract_nonneg q).lt_of_ne' hz
      have hlt := Int.fract_lt_one q
      have hq := Int.fract_add_floor q
      rw [Int.floor_eq_iff]
      push_cast
      constructor <;> linarith
    have hr : Int.fract (-q) = 1 - Int.fract q := Int.fract_neg hz
    rcases lt_trichotomy (Int.fract q) (1 / 2) with h | h | h
    · rw [halfEven_of_lt h, halfEven_of_gt (by linarith), hf]
      ring
    · rw [halfEven_of_eq h, halfEven_of_eq (by linarith), hf]
      omega
    · rw [halfEven_of_gt h, halfEven_of_lt (by linarith), hf]
      ring

theorem abs_halfEven_sub_le (q : ℚ) : |(halfEven q : ℚ) - q| ≤ 1 / 2 := by
  have hq := Int.fract_add_floor q
  have h0 := Int.fract_nonneg q
  have h1 := Int.fract_lt_one q
  rw [abs_le]
  rcases lt_trichotomy (Int.fract q) (1 / 2) with h | h | h
  · rw [halfEven_of_lt h]
    constructor <;> linarith
  · rw [halfEven_of_eq h]
    have hm : ⌊q⌋ % 2 = 0 ∨ ⌊q⌋ % 2 = 1 := by omega
    rcases hm with hm | hm <;> rw [hm] <;> push_cast <;> constructor <;> linarith
  · rw [halfEven_of_gt h]
    push_cast
    constructor <;> linarith

/-- The exponent of the last binary place of a single near `q`. -/
def gridExponent (q : ℚ) : ℤ := max (Int.log 2 |q| - 23) (-149)

/-- The value of the single nearest to `q`, as if there were no largest one. -/
def rounded (q : ℚ) : ℚ := halfEven (q / 2 ^ gridExponent q) * 2 ^ gridExponent q

def Representable (q : ℚ) : Prop :=
  ∃ m e : ℤ, |m| < 2 ^ 24 ∧ -149 ≤ e ∧ q = m * 2 ^ e

theorem representable_intCast {n : ℤ} (h : |n| ≤ 2 ^ 24) : Representable n := by
  rcases h.lt_or_eq with hlt | heq
  · exact ⟨n, 0, hlt, by norm_num, by simp⟩
  · rcases abs_eq (by norm_num) |>.mp heq with rfl | rfl
    · exact ⟨2 ^ 23, 1, by norm_num, by norm_num, by norm_num⟩
    · exact ⟨-2 ^ 23, 1, by norm_num, by norm_num, by norm_num⟩

theorem gridExponent_neg (q : ℚ) : gridExponent (-q) = gridExponent q := by
  rw [gridExponent, abs_neg, gridExponent]

@[simp] theorem rounded_zero : rounded 0 = 0 := by
  rw [rounded, zero_div, ← Int.cast_zero, halfEven_intCast, Int.cast_zero, zero_mul]

theorem rounded_neg (q : ℚ) : rounded (-q) = -rounded q := by
  rw [rounded, gridExponent_neg, neg_div, halfEven_neg, Int.cast_neg, neg_mul, rounded]

theorem two_zpow_pos (e : ℤ) : (0 : ℚ) < 2 ^ e := zpow_pos (by norm_num) e

theorem two_zpow_add (e : ℤ) (k : ℕ) : (2 : ℚ) ^ (e + k) = 2 ^ k * 2 ^ e := by
  rw [zpow_add₀ (by norm_num), zpow_natCast, mul_comm]

theorem lt_gridExponent (q : ℚ) : |q| < 2 ^ 24 * 2 ^ gridExponent q := by
  have h := Int.lt_zpow_succ_log_self (b := 2) (by norm_num) |q|
  rw [← two_zpow_add]
  refine h.trans_le (zpow_le_zpow_right₀ (by norm_num) ?_)
  simp only [gridExponent]
  omega

theorem gridExponent_le_of_low {q : ℚ} (hq : q ≠ 0) (h : -149 < gridExponent q) :
    2 ^ 23 * 2 ^ gridExponent q ≤ |q| := by
  have hl := Int.zpow_log_le_self (b := 2) (by norm_num) (abs_pos.mpr hq)
  rw [← two_zpow_add]
  refine le_trans (zpow_le_zpow_right₀ (by norm_num) ?_) hl
  simp only [gridExponent] at h ⊢
  omega

theorem gridExponent_mono {p q : ℚ} (hp : 0 < p) (h : p ≤ q) : gridExponent p ≤ gridExponent q := by
  have hl : Int.log 2 |p| ≤ Int.log 2 |q| := by
    rw [abs_of_pos hp, abs_of_pos (hp.trans_le h)]
    exact Int.log_mono_right hp h
  simp only [gridExponent]
  omega

theorem gridExponent_le {q : ℚ} {e : ℤ} (hq : q ≠ 0) (h : |q| < 2 ^ 24 * 2 ^ e) (he : -149 ≤ e) :
    gridExponent q ≤ e := by
  rw [← two_zpow_add] at h
  have hl := (Int.lt_zpow_iff_log_lt (b := 2) (by norm_num) (abs_pos.mpr hq)).mp h
  simp only [gridExponent]
  omega

/-- What is representable is its own rounding. -/
theorem rounded_of_representable {q : ℚ} (h : Representable q) : rounded q = q := by
  rcases eq_or_ne q 0 with rfl | hq
  · exact rounded_zero
  obtain ⟨m, e, hm, he, rfl⟩ := h
  have hg : gridExponent (m * 2 ^ e) ≤ e := by
    refine gridExponent_le hq ?_ he
    have hm' : |(m : ℚ)| < 2 ^ 24 := by exact_mod_cast hm
    rw [abs_mul, abs_of_pos (two_zpow_pos e)]
    exact mul_lt_mul_of_pos_right hm' (two_zpow_pos e)
  obtain ⟨k, hk⟩ := Int.le.dest hg
  have hs : (m * 2 ^ e : ℚ) / 2 ^ gridExponent (m * 2 ^ e) = (m * 2 ^ k : ℤ) := by
    rw [div_eq_iff (two_zpow_pos _).ne']
    push_cast
    rw [mul_assoc, ← zpow_natCast, ← zpow_add₀ (by norm_num), add_comm, hk]
  rw [rounded, hs, halfEven_intCast, ← hs, div_mul_cancel₀ _ (two_zpow_pos _).ne']

theorem rounded_nonneg {q : ℚ} (h : 0 ≤ q) : 0 ≤ rounded q := by
  have hn : halfEven (0 : ℤ) ≤ halfEven (q / 2 ^ gridExponent q) := by
    refine halfEven_mono ?_
    rw [Int.cast_zero]
    exact div_nonneg h (two_zpow_pos _).le
  rw [halfEven_intCast] at hn
  exact mul_nonneg (by exact_mod_cast hn) (two_zpow_pos _).le

/-- The digits of a rounding, one more than all binary digits set at most. -/
theorem abs_halfEven_grid_le (q : ℚ) : |halfEven (q / 2 ^ gridExponent q)| ≤ 2 ^ 24 := by
  have hq : |q / 2 ^ gridExponent q| ≤ ((2 ^ 24 : ℤ) : ℚ) := by
    rw [abs_div, abs_of_pos (two_zpow_pos _), div_le_iff₀ (two_zpow_pos _)]
    exact_mod_cast (lt_gridExponent q).le
  obtain ⟨hl, hu⟩ := abs_le.mp hq
  have hl' := halfEven_mono hl
  have hu' := halfEven_mono hu
  rw [← Int.cast_neg, halfEven_intCast] at hl'
  rw [halfEven_intCast] at hu'
  exact abs_le.mpr ⟨hl', hu'⟩

theorem two_zpow_le_halfEven_grid {q : ℚ} (hq : 0 < q) (h : -149 < gridExponent q) :
    2 ^ 23 ≤ halfEven (q / 2 ^ gridExponent q) := by
  have hl := gridExponent_le_of_low hq.ne' h
  rw [abs_of_pos hq] at hl
  have hq' : ((2 ^ 23 : ℤ) : ℚ) ≤ q / 2 ^ gridExponent q := by
    rw [le_div_iff₀ (two_zpow_pos _)]
    exact_mod_cast hl
  have hm := halfEven_mono hq'
  rwa [halfEven_intCast] at hm

private theorem rounded_mono_of_pos {p q : ℚ} (hp : 0 < p) (h : p ≤ q) : rounded p ≤ rounded q := by
  have hg := gridExponent_mono hp h
  rcases hg.eq_or_lt with heq | hlt
  · simp only [rounded, heq]
    have hd : p / 2 ^ gridExponent q ≤ q / 2 ^ gridExponent q :=
      div_le_div_of_nonneg_right h (two_zpow_pos _).le
    exact mul_le_mul_of_nonneg_right (by exact_mod_cast halfEven_mono hd) (two_zpow_pos _).le
  · have hlow : -149 < gridExponent q := lt_of_le_of_lt (le_max_right _ _) hlt
    have hpu : (halfEven (p / 2 ^ gridExponent p) : ℚ) ≤ 2 ^ 24 := by
      exact_mod_cast (abs_le.mp (abs_halfEven_grid_le p)).2
    have hql : (2 ^ 23 : ℚ) ≤ halfEven (q / 2 ^ gridExponent q) := by
      exact_mod_cast two_zpow_le_halfEven_grid (hp.trans_le h) hlow
    calc rounded p ≤ 2 ^ 24 * 2 ^ gridExponent p :=
          mul_le_mul_of_nonneg_right hpu (two_zpow_pos _).le
      _ = 2 ^ 23 * 2 ^ (gridExponent p + 1) := by
          rw [zpow_add₀ (by norm_num)]
          ring
      _ ≤ 2 ^ 23 * 2 ^ gridExponent q :=
          mul_le_mul_of_nonneg_left (zpow_le_zpow_right₀ (by norm_num) (by omega)) (by norm_num)
      _ ≤ rounded q := mul_le_mul_of_nonneg_right hql (two_zpow_pos _).le

theorem rounded_mono {p q : ℚ} (h : p ≤ q) : rounded p ≤ rounded q := by
  rcases lt_or_ge 0 p with hp | hp
  · exact rounded_mono_of_pos hp h
  · rcases lt_or_ge q 0 with hq | hq
    · have hn := rounded_mono_of_pos (neg_pos.mpr hq) (neg_le_neg h)
      rw [rounded_neg, rounded_neg] at hn
      linarith
    · have hp' := rounded_nonneg (neg_nonneg.mpr hp)
      rw [rounded_neg] at hp'
      linarith [rounded_nonneg hq]

theorem rounded_le {p q : ℚ} (hq : Representable q) (h : p ≤ q) : rounded p ≤ q := by
  have hr := rounded_mono h
  rwa [rounded_of_representable hq] at hr

theorem le_rounded {p q : ℚ} (hp : Representable p) (h : p ≤ q) : p ≤ rounded q := by
  have hr := rounded_mono h
  rwa [rounded_of_representable hp] at hr

theorem Representable.neg {q : ℚ} (h : Representable q) : Representable (-q) := by
  obtain ⟨m, e, hm, he, rfl⟩ := h
  exact ⟨-m, e, by rwa [abs_neg], he, by push_cast; ring⟩

theorem abs_rounded_le {p q : ℚ} (hq : Representable q) (h : |p| ≤ q) : |rounded p| ≤ q := by
  obtain ⟨hl, hu⟩ := abs_le.mp h
  exact abs_le.mpr ⟨le_rounded hq.neg hl, rounded_le hq hu⟩

/-- Rounding moves a rational by at most half of a place that its 24 digits reach. -/
theorem abs_rounded_sub_le {q : ℚ} {e : ℤ} (h : |q| < 2 ^ 24 * 2 ^ e) (he : -149 ≤ e) :
    |rounded q - q| ≤ 1 / 2 * 2 ^ e := by
  rcases eq_or_ne q 0 with rfl | hq
  · rw [rounded_zero, sub_zero, abs_zero]
    exact mul_nonneg (by norm_num) (two_zpow_pos e).le
  · have hpow := two_zpow_pos (gridExponent q)
    have hnear := abs_halfEven_sub_le (q / 2 ^ gridExponent q)
    have hscale : rounded q - q = (halfEven (q / 2 ^ gridExponent q) - q / 2 ^ gridExponent q) * 2 ^ gridExponent q := by
      rw [sub_mul, div_mul_cancel₀ _ hpow.ne', rounded]
    rw [hscale, abs_mul, abs_of_pos hpow]
    exact mul_le_mul hnear (zpow_le_zpow_right₀ (by norm_num) (gridExponent_le hq h he)) hpow.le (by norm_num)

theorem abs_rounded_sub_le_of_lt_two {q : ℚ} (h : |q| < 2) : |rounded q - q| ≤ 1 / 2 ^ 24 := by
  have hgrid : |q| < 2 ^ 24 * 2 ^ (-23 : ℤ) := by
    norm_num
    exact h
  exact (abs_rounded_sub_le hgrid (by norm_num)).trans (by norm_num)

/-- Half a step above the largest single is where the range ends. -/
theorem abs_rounded_lt {q : ℚ} (h : |q| < (2 ^ 24 - 1 / 2) * 2 ^ (104 : ℤ)) : |rounded q| < 2 ^ 128 := by
  rcases eq_or_ne q 0 with rfl | hq
  · norm_num
  have hpow := two_zpow_pos 104
  have hg : gridExponent q ≤ 104 := gridExponent_le hq (by linarith) (by norm_num)
  have hdigits : |(halfEven (q / 2 ^ gridExponent q) : ℚ)| ≤ 2 ^ 24 := by
    exact_mod_cast abs_halfEven_grid_le q
  rw [rounded, abs_mul, abs_of_pos (two_zpow_pos _)]
  rcases hg.lt_or_eq with hlt | heq
  · calc |(halfEven (q / 2 ^ gridExponent q) : ℚ)| * 2 ^ gridExponent q ≤ 2 ^ 24 * 2 ^ (103 : ℤ) :=
          mul_le_mul hdigits (zpow_le_zpow_right₀ (by norm_num) (by omega)) (two_zpow_pos _).le (by norm_num)
      _ < 2 ^ 128 := by norm_num
  · rw [heq] at hdigits ⊢
    have hnear := abs_halfEven_sub_le (q / 2 ^ (104 : ℤ))
    have hquot : |q / 2 ^ (104 : ℤ)| < 2 ^ 24 - 1 / 2 := by
      rwa [abs_div, abs_of_pos hpow, div_lt_iff₀ hpow]
    have hlt : |(halfEven (q / 2 ^ (104 : ℤ)) : ℚ)| < 2 ^ 24 := by
      have htri := abs_sub_abs_le_abs_sub (halfEven (q / 2 ^ (104 : ℤ)) : ℚ) (q / 2 ^ (104 : ℤ))
      linarith
    calc |(halfEven (q / 2 ^ (104 : ℤ)) : ℚ)| * 2 ^ (104 : ℤ) < 2 ^ 24 * 2 ^ (104 : ℤ) :=
          mul_lt_mul_of_pos_right hlt hpow
      _ = 2 ^ 128 := by norm_num

end ColorWords.Single
