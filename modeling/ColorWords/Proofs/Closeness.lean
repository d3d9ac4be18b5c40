import ColorWords.Proofs.Entries
import ColorWords.Proofs.Search

/-! # Comparing candidates by whole numbers

Distances stand in the order of whole gaps and are the same number only for the same gap. So
every comparison of a search is one of whole numbers, and its winner is the only candidate
that is nearer than all before it and not further than any after it.
-/
namespace ColorWords.Search

variable {s : Space} (q : Search s) (target : Color s)

def wholeGap (i : ℕ) : ℤ := Oklab.gap (q.colorOf (q.candidateAt i)).toOklab target.toOklab

structure FirstNearest (n i : ℕ) : Prop where
  lt : i < n
  least : ∀ j < n, q.wholeGap target i ≤ q.wholeGap target j
  first : ∀ j < i, q.wholeGap target i < q.wholeGap target j

variable {q target}

theorem FirstNearest.unique {n i j : ℕ} (hi : q.FirstNearest target n i) (hj : q.FirstNearest target n j) :
    i = j := by
  rcases lt_trichotomy i j with hlt | heq | hgt
  · exact absurd (hj.first i hlt) (hi.least j hj.lt).not_gt
  · exact heq
  · exact absurd (hi.first j hgt) (hj.least i hi.lt).not_gt

variable (q target)

theorem distanceOf_lt_iff (i j : ℕ) :
    q.distanceOf target (q.candidateAt i) < q.distanceOf target (q.candidateAt j) ↔
      q.wholeGap target i < q.wholeGap target j :=
  Oklab.squaredDistance_lt_iff _ _ _ _

theorem gapAt_lt_iff (i j : ℕ) :
    q.gapAt target i < q.gapAt target j ↔ q.wholeGap target i < q.wholeGap target j := by
  rw [← distanceOf_lt_iff]
  exact ((q.denotes_distanceOf target i).lt_iff (q.denotes_distanceOf target j)).symm

/-- One round of a search is a comparison of whole numbers. -/
theorem improve_won (i n : ℕ) :
    q.improve q.palette target.toOklab (q.won target i) n =
      if q.wholeGap target n < q.wholeGap target i then q.won target n else q.won target i := by
  rw [improve_eq]
  exact if_congr (q.distanceOf_lt_iff target n i) rfl rfl

theorem best_eq_firstNearest {n : ℕ} (h : 0 < n) :
    ∃ i, q.FirstNearest target n i ∧ q.best q.palette target.toOklab n = q.won target i := by
  obtain ⟨m, rfl⟩ := Nat.exists_eq_add_one.mpr h
  obtain ⟨i, hi, hbest, hleast, hfirst⟩ := q.best_succ_eq_won target m
  refine ⟨i, ⟨hi, ?_, ?_⟩, hbest⟩
  · intro j hj
    exact not_lt.mp fun hlt => (hleast j hj).not_gt ((q.gapAt_lt_iff target j i).mpr hlt)
  · intro j hj
    exact (q.gapAt_lt_iff target i j).mp (hfirst j hj)

/-- A search reports the one candidate that comes first among the nearest. -/
theorem existsUnique_firstNearest (h : 0 < (q.limits q.palette.length).1) :
    ∃! i, q.FirstNearest target (q.limits q.palette.length).1 i ∧ q.run target = q.report (q.won target i) := by
  obtain ⟨i, hi, hbest⟩ := q.best_eq_firstNearest target h
  refine ⟨i, ⟨hi, by rw [run_eq_report, hbest]⟩, ?_⟩
  rintro j ⟨hj, -⟩
  exact hj.unique hi

/-- Distances order colors as the sums of squared byte differences do. They are symmetric, zero
between colors that differ in alpha only, and tell the candidates of a search apart exactly. -/
theorem distance_exact :
    (∀ a b c d : Oklab,
      (a.squaredDistance b < c.squaredDistance d ↔ Oklab.gap a b < Oklab.gap c d) ∧
        ((a.squaredDistance b == c.squaredDistance d) = true ↔ Oklab.gap a b = Oklab.gap c d) ∧
        (a.squaredDistance b = c.squaredDistance d ↔ Oklab.gap a b = Oklab.gap c d)) ∧
      (∀ a b : Oklab, a.squaredDistance b = b.squaredDistance a ∧
        (a.squaredDistance b = 0 ↔ ∀ channel : Channel, a.byte channel = b.byte channel)) ∧
      ∀ (s : Space) (q : Search s) (target : Color s),
        (∀ i n, q.improve q.palette target.toOklab (q.won target i) n =
          if q.wholeGap target n < q.wholeGap target i then q.won target n else q.won target i) ∧
        (0 < (q.limits q.palette.length).1 →
          ∃! i, q.FirstNearest target (q.limits q.palette.length).1 i ∧ q.run target = q.report (q.won target i)) := by
  refine ⟨?_, ?_, ?_⟩
  · intro a b c d
    exact ⟨Oklab.squaredDistance_lt_iff a b c d, Oklab.squaredDistance_beq_iff a b c d,
      Oklab.squaredDistance_eq_iff a b c d⟩
  · intro a b
    exact ⟨Oklab.squaredDistance_comm a b, Oklab.squaredDistance_eq_zero_iff a b⟩
  · intro s q target
    exact ⟨q.improve_won target, q.existsUnique_firstNearest target⟩

theorem distance_exact_capped :
    let q : Search .oklab := ⟨⟨[("mint", ⟨0xFEA0A0F0⟩), ("teal", ⟨0xFE707890⟩)], []⟩, .basic, 2, some 7⟩
    (q.limits q.palette.length).1 = 7 ∧
      ∀ target, ∃! i, q.FirstNearest target (q.limits q.palette.length).1 i ∧
        q.run target = q.report (q.won target i) := by
  intro q
  have hlength : q.palette.length = 2 := by
    rw [palette, List.length_map, Table.colorsByHue, (Entries.sortBy_perm _ _).length_eq]
    decide
  have hlimit : (q.limits q.palette.length).1 = 7 := by
    rw [hlength]
    decide
  refine ⟨hlimit, ?_⟩
  intro target
  exact (distance_exact.2.2 .oklab q target).2 (by rw [hlimit]; norm_num)

end ColorWords.Search
