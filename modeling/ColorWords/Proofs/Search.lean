import ColorWords.Proofs.Candidates
import ColorWords.Proofs.Distance
import ColorWords.Proofs.Entries
import ColorWords.Proofs.Single.Order

/-! # The search finds the first closest candidate

All distances are finite, so the running best is at every point the first of the closest
candidates so far. Counting with saturation and capping try a beginning of all numbers.
-/
namespace ColorWords.Search
open Single

variable {s : Space} (q : Search s)

def palette : List (Color s) := q.table.colorsByHue.map (·.2)

def candidateAt (i : ℕ) : Candidate := .ofNumber q.palette.length q.nameCount i

def combinations : ℕ := q.palette.length ^ q.nameCount * (levelCount * levelCount)

def tried : ℕ := q.cap.elim q.combinations (min · q.combinations)

def colorOf (c : Candidate) : Color s := q.candidateColor q.palette c

def distanceOf (target : Color s) (c : Candidate) : Float32 :=
  (q.colorOf c).toOklab.squaredDistance target.toOklab

/-- Searches of visible names that a counter can finish: the cap is one that can be counted, or
all combinations are. -/
structure Searchable : Prop where
  names : q.palette ≠ []
  capped : ∀ k, q.cap = some k → 1 ≤ k ∧ k ≤ countLimit
  uncapped : q.cap = none → q.combinations ≤ countLimit

theorem one_le_nameCount : 1 ≤ q.nameCount := le_max_left 1 q.mixCount

variable {q} (target : Color s)

theorem Searchable.size_pos (h : q.Searchable) : 0 < q.palette.length := List.length_pos_iff.mpr h.names

theorem Searchable.combinations_pos (h : q.Searchable) : 0 < q.combinations :=
  Nat.mul_pos (Nat.pow_pos h.size_pos) (by decide)

theorem Searchable.tried_pos (h : q.Searchable) : 0 < q.tried := by
  rw [tried]
  cases hcap : q.cap with
  | none => exact h.combinations_pos
  | some k => exact lt_min (h.capped k hcap).1 h.combinations_pos

/-- Saturation does not change which candidates are tried. -/
theorem Searchable.limits_eq (h : q.Searchable) : (q.limits q.palette.length).1 = q.tried := by
  have htotal := Candidate.total_eq q.one_le_nameCount q.palette.length
  rw [limits, tried, htotal]
  change q.cap.elim (min q.combinations countLimit) (min · (min q.combinations countLimit)) = _
  cases hcap : q.cap with
  | none => exact min_eq_left (h.uncapped hcap)
  | some k =>
    have hk := (h.capped k hcap).2
    simp only [Option.elim_some]
    omega

variable (q)

def gapAt (i : ℕ) : ℚ := rounded (Oklab.gap (q.colorOf (q.candidateAt i)).toOklab target.toOklab / 65025)

theorem denotes_distanceOf (i : ℕ) : Denotes (q.distanceOf target (q.candidateAt i)) (q.gapAt target i) :=
  Oklab.denotes_squaredDistance _ _

def won (i : ℕ) : Best s :=
  ⟨some (q.candidateAt i), q.colorOf (q.candidateAt i), q.distanceOf target (q.candidateAt i)⟩

theorem improve_eq (best : Best s) (n : ℕ) :
    q.improve q.palette target.toOklab best n =
      if q.distanceOf target (q.candidateAt n) < best.distance then q.won target n else best := rfl

theorem best_succ (n : ℕ) :
    q.best q.palette target.toOklab (n + 1) =
      q.improve q.palette target.toOklab (q.best q.palette target.toOklab n) n := by
  rw [best, List.range_succ, List.foldl_append]
  rfl

/-- The best of the first candidates is the first closest of them. -/
theorem best_succ_eq_won (n : ℕ) :
    ∃ i < n + 1, q.best q.palette target.toOklab (n + 1) = q.won target i ∧
      (∀ j < n + 1, q.gapAt target i ≤ q.gapAt target j) ∧
      ∀ j < i, q.gapAt target i < q.gapAt target j := by
  induction n with
  | zero =>
    have hfinite := (q.denotes_distanceOf target 0).lt_infinity
    refine ⟨0, by omega, ?_, ?_, ?_⟩
    · rw [best_succ, improve_eq]
      exact if_pos hfinite
    · intro j hj
      obtain rfl : j = 0 := by omega
      exact le_rfl
    · intro j hj
      omega
  | succ n ih =>
    obtain ⟨i, hi, hbest, hmin, hfirst⟩ := ih
    have hcompare := (q.denotes_distanceOf target (n + 1)).lt_iff
      (q.denotes_distanceOf target i)
    rw [best_succ, hbest, improve_eq]
    by_cases hlt : q.gapAt target (n + 1) < q.gapAt target i
    · refine ⟨n + 1, by omega, if_pos (hcompare.mpr hlt), ?_, ?_⟩
      · intro j hj
        rcases (Nat.le_of_lt_succ hj).lt_or_eq with hj | rfl
        · exact hlt.le.trans (hmin j hj)
        · exact le_rfl
      · intro j hj
        exact hlt.trans_le (hmin j hj)
    · refine ⟨i, by omega, if_neg (fun h => hlt (hcompare.mp h)), ?_, hfirst⟩
      intro j hj
      rcases (Nat.le_of_lt_succ hj).lt_or_eq with hj | rfl
      · exact hmin j hj
      · exact not_lt.mp hlt

structure FirstClosest (n i : ℕ) : Prop where
  lt : i < n
  least : ∀ j < n, q.distanceOf target (q.candidateAt i) ≤ q.distanceOf target (q.candidateAt j)
  first : ∀ j < i, q.distanceOf target (q.candidateAt i) < q.distanceOf target (q.candidateAt j)

variable {q}

theorem Searchable.best_eq_won (h : q.Searchable) :
    ∃ i, q.FirstClosest target q.tried i ∧ q.best q.palette target.toOklab q.tried = q.won target i := by
  obtain ⟨n, hn⟩ := Nat.exists_eq_add_one.mpr h.tried_pos
  obtain ⟨i, hi, hbest, hmin, hfirst⟩ := q.best_succ_eq_won target n
  rw [← hn] at hi hbest hmin
  refine ⟨i, ⟨hi, ?_, ?_⟩, hbest⟩
  · intro j hj
    exact ((q.denotes_distanceOf target i).le_iff (q.denotes_distanceOf target j)).mpr (hmin j hj)
  · intro j hj
    exact ((q.denotes_distanceOf target i).lt_iff (q.denotes_distanceOf target j)).mpr (hfirst j hj)

def report (q : Search s) (best : Best s) : Match s :=
  ⟨q.describe q.table.namesByHue best.candidate, best.color, best.distance⟩

theorem run_eq_report : q.run target = q.report (q.best q.palette target.toOklab (q.limits q.palette.length).1) := by
  rw [palette, List.length_map]
  rfl

theorem Searchable.run_eq_won (h : q.Searchable) :
    ∃ i, q.FirstClosest target q.tried i ∧
      q.best q.palette target.toOklab q.tried = q.won target i ∧ q.run target = q.report (q.won target i) := by
  obtain ⟨i, hi, hbest⟩ := h.best_eq_won target
  exact ⟨i, hi, hbest, by rw [run_eq_report, h.limits_eq, hbest]⟩

theorem Searchable.raise (h : q.Searchable) {k k' : ℕ} (hcap : q.cap = some k) (hk : k ≤ k')
    (hk' : k' ≤ countLimit) : Searchable { q with cap := some k' } := by
  refine ⟨h.names, ?_, ?_⟩
  · intro m hm
    obtain rfl : k' = m := Option.some.inj hm
    exact ⟨(h.capped k hcap).1.trans hk, hk'⟩
  · intro hnone
    cases hnone

/-- The search is an exhaustive minimization. Numbers name all combinations one to one, the first
of them are tried, and the first closest one wins; so nothing is closer without a cap, and a
higher cap finds nothing worse. -/
theorem run_minimizes (h : q.Searchable) (target : Color s) :
    Set.BijOn q.candidateAt (Set.Iio q.combinations) {c | c.Valid q.palette.length q.nameCount} ∧
      (q.limits q.palette.length).1 = q.tried ∧
      (q.limits q.palette.length).2 = Candidate.saturated
        (Candidate.saturated (q.palette.length ^ q.nameCount) * (levelCount * levelCount)) ∧
      (∃ i, q.FirstClosest target q.tried i ∧
        q.best q.palette target.toOklab q.tried = q.won target i ∧ q.run target = q.report (q.won target i)) ∧
      (q.cap = none → ∀ c : Candidate, c.Valid q.palette.length q.nameCount →
        (q.run target).distance ≤ q.distanceOf target c) ∧
      ∀ k k', q.cap = some k → k ≤ k' → k' ≤ countLimit →
        (run { q with cap := some k' } target).distance ≤ (q.run target).distance := by
  have hbij := Candidate.bijOn_ofNumber h.size_pos q.nameCount
  obtain ⟨i, hi, hbest, hrun⟩ := h.run_eq_won target
  have htotal := Candidate.total_eq_saturating q.one_le_nameCount q.palette.length
  refine ⟨hbij, h.limits_eq, htotal, ⟨i, hi, hbest, hrun⟩, ?_, ?_⟩
  · intro hcap c hc
    obtain ⟨j, hj, rfl⟩ := hbij.surjOn hc
    have htried : q.tried = q.combinations := by
      rw [tried, hcap]
      rfl
    rw [hrun]
    exact hi.least j (by rw [htried]; exact hj)
  · intro k k' hcap hk hk'
    obtain ⟨i', hi', -, hrun'⟩ := (h.raise hcap hk hk').run_eq_won target
    have htried : q.tried ≤ tried { q with cap := some k' } := by
      rw [tried, tried, hcap]
      exact min_le_min_right _ hk
    rw [hrun, hrun']
    exact hi'.least i (hi.lt.trans_le htried)

/-- Two names, mixed two at a time: four mixtures of 81 shades each. -/
theorem run_minimizes_capped :
    let q : Search .oklab := ⟨⟨[("mint", ⟨0xFEA0A0F0⟩), ("teal", ⟨0xFE707890⟩)], []⟩, .basic, 2, none⟩
    let capped : Search .oklab := { q with cap := some 5 }
    q.Searchable ∧ capped.Searchable ∧
      Set.BijOn q.candidateAt (Set.Iio 324) {c | c.Valid 2 2} ∧
      (∀ target c, Candidate.Valid 2 2 c → (q.run target).distance ≤ q.distanceOf target c) ∧
      ∀ target, (run { capped with cap := some 9 } target).distance ≤ (capped.run target).distance := by
  intro q capped
  have hlength : q.palette.length = 2 := by
    rw [palette, List.length_map, Table.colorsByHue, (Entries.sortBy_perm _ _).length_eq]
    decide
  have hnames : q.nameCount = 2 := rfl
  have hcombinations : q.combinations = 324 := by
    rw [combinations, hlength, hnames]
    rfl
  have hne : q.palette ≠ [] := List.length_pos_iff.mp (by omega)
  have hq : q.Searchable := ⟨hne, nofun, fun _ => hcombinations.le.trans (by decide)⟩
  have hcapped : capped.Searchable := by
    refine ⟨hne, ?_, nofun⟩
    intro k hk
    obtain rfl : 5 = k := Option.some.inj hk
    decide
  have hbij := (run_minimizes hq .transparent).1
  rw [hcombinations, hlength, hnames] at hbij
  refine ⟨hq, hcapped, hbij, ?_, ?_⟩
  · intro target c hc
    have hvalid : c.Valid q.palette.length q.nameCount := by rwa [hlength, hnames]
    exact (run_minimizes hq target).2.2.2.2.1 rfl c hvalid
  · intro target
    exact (run_minimizes hcapped target).2.2.2.2.2 5 9 rfl (by norm_num) (by decide)

end ColorWords.Search
