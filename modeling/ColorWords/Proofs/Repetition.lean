import ColorWords.Proofs.Search
import ColorWords.Proofs.Stored
import ColorWords.Proofs.Strength
import ColorWords.Proofs.Weights

/-! # More names in a description

A name that is mixed with itself keeps its color, however often it is repeated. So every candidate
with one name stands among those with more names as well, and a search that tries all of them finds
nothing worse.
-/
namespace ColorWords

variable {s : Space}

theorem Color.mix_copies {c : Color s} (hc : c.Stored) {n : ℕ} (hn : 1 ≤ n) : mix (List.replicate n c) = c := by
  obtain ⟨n, rfl⟩ := Nat.exists_eq_add_one.mpr hn
  exact mixFrom_copies hc (by norm_num) n

theorem Oklab.squaredDistance_eq_zero_of_le {a b : Oklab} (h : a.squaredDistance b ≤ 0) :
    a.squaredDistance b = 0 := by
  have hself : gap a a = 0 := (gap_eq_zero_iff a a).mpr fun _ => rfl
  have hzero := squaredDistance_of_gap_eq_zero hself
  have hnot : ¬ gap a a < gap a b := by
    rw [← squaredDistance_lt_iff, hzero, Single.denotes_zero.lt_iff (denotes_squaredDistance a b), not_lt]
    exact ((denotes_squaredDistance a b).le_iff Single.denotes_zero).mp h
  exact squaredDistance_of_gap_eq_zero (le_antisymm (by omega) (gap_bounds a b).1)

/-- No level of lightness and none of saturation, whatever the steps of the grammar are. -/
theorem Adjustment.apply_steps_zero (g : Grammar) (c : Color s) : (g.steps 0 0).apply c = c := by
  unfold Grammar.steps Adjustment.apply
  simp only [move_nothing _ _ _ (Single.mul_ofInt_zero_reaches _)]

namespace Candidate

def repeated (count pick : ℕ) (lightness saturation : ℤ) : Candidate :=
  ⟨List.replicate count pick, lightness, saturation⟩

variable {size : ℕ}

theorem valid_repeated {pick : ℕ} {lightness saturation : ℤ} (hpick : pick < size)
    (hlight : -4 ≤ lightness ∧ lightness ≤ 4) (hsat : -4 ≤ saturation ∧ saturation ≤ 4) {count : ℕ} :
    (repeated count pick lightness saturation).Valid size count := by
  refine ⟨List.length_replicate, ?_, hlight, hsat⟩
  intro p hp
  rwa [(List.mem_replicate.mp hp).2]

theorem Valid.exists_repeated {c : Candidate} (h : c.Valid size 1) :
    ∃ pick < size, c = repeated 1 pick c.lightness c.saturation := by
  obtain ⟨picks, lightness, saturation⟩ := c
  obtain ⟨pick, rfl⟩ := List.length_eq_one_iff.mp h.length
  exact ⟨pick, h.picks pick (List.mem_singleton_self pick), rfl⟩

end Candidate

namespace Search
variable {q : Search s}

def withOneName (q : Search s) : Search s := { q with mixCount := 1 }

/-- Copies of a name count as much as the name. -/
theorem colorOf_repeated (hstored : q.table.Stored) {pick count : ℕ} (hpick : pick < q.palette.length)
    (hcount : 1 ≤ count) (lightness saturation : ℤ) :
    q.colorOf (.repeated count pick lightness saturation) =
      ((q.grammar.steps lightness saturation).apply q.palette[pick]).intoGamut := by
  have hcolor : q.palette[pick].Stored := by
    obtain ⟨e, he, hpicked⟩ := List.mem_map.mp (List.getElem_mem hpick)
    rw [← hpicked]
    exact hstored.colorsByHue e he
  have hmixed : (List.replicate count pick).filterMap (q.palette[·]?) = List.replicate count q.palette[pick] :=
    List.filterMap_replicate_of_some (List.getElem?_eq_getElem hpick)
  simp only [colorOf, candidateColor, Candidate.repeated, hmixed, Color.mix_copies hcolor hcount]

theorem Searchable.withOneName (h : q.Searchable) (hcap : q.cap = none) : q.withOneName.Searchable := by
  refine ⟨h.names, h.capped, fun _ => ?_⟩
  have hpow : q.palette.length ^ 1 ≤ q.palette.length ^ q.nameCount :=
    Nat.pow_le_pow_right h.size_pos q.one_le_nameCount
  exact (Nat.mul_le_mul_right _ hpow).trans (h.uncapped hcap)

variable (target : Color s)

/-- What is reported is a candidate's color and how far that is from the target. -/
theorem Searchable.exists_reported (h : q.Searchable) :
    ∃ c : Candidate, c.Valid q.palette.length q.nameCount ∧ (q.run target).color = q.colorOf c ∧
      (q.run target).distance = q.distanceOf target c := by
  obtain ⟨i, -, -, hrun⟩ := h.run_eq_won target
  refine ⟨q.candidateAt i, Candidate.valid_ofNumber h.size_pos q.nameCount i, ?_, ?_⟩
  · rw [hrun]
    rfl
  · rw [hrun]
    rfl

/-- Without a cap every candidate is tried. -/
theorem Searchable.distance_le (h : q.Searchable) (hcap : q.cap = none) {c : Candidate}
    (hc : c.Valid q.palette.length q.nameCount) : (q.run target).distance ≤ q.distanceOf target c := by
  obtain ⟨i, hi, -, hrun⟩ := h.run_eq_won target
  have htried : q.tried = q.combinations := by
    rw [tried, hcap]
    rfl
  have hnumber : Candidate.number q.palette.length c < q.tried := by
    rw [htried]
    exact Candidate.number_lt h.size_pos hc
  have hleast := hi.least _ hnumber
  have hnamed : q.candidateAt (Candidate.number q.palette.length c) = c := Candidate.ofNumber_number hc
  rw [hnamed] at hleast
  rw [hrun]
  exact hleast

theorem Searchable.distance_le_withOneName (h : q.Searchable) (hcap : q.cap = none) (hstored : q.table.Stored) :
    (q.run target).distance ≤ (q.withOneName.run target).distance := by
  obtain ⟨c, hc, -, hone⟩ := (h.withOneName hcap).exists_reported target
  -- The winner with one name, repeated, is one of the candidates here.
  obtain ⟨pick, hpick, hsame⟩ := hc.exists_repeated
  have hcolor : q.colorOf (.repeated q.nameCount pick c.lightness c.saturation) = q.withOneName.colorOf c := by
    rw [colorOf_repeated hstored hpick q.one_le_nameCount, hsame]
    exact (colorOf_repeated hstored hpick le_rfl _ _).symm
  have hle := h.distance_le target hcap (Candidate.valid_repeated hpick hc.lightness hc.saturation)
  rw [distanceOf, hcolor] at hle
  rw [hone]
  exact hle

theorem Searchable.distance_of_palette (h : q.Searchable) (hcap : q.cap = none) (hstored : q.table.Stored)
    {e : String × Color s} (he : e ∈ q.table.colorsByHue) : (q.run e.2.intoGamut).distance = 0 := by
  have hmem : e.2 ∈ q.palette := List.mem_map_of_mem he
  obtain ⟨pick, hpick, hpicked⟩ := List.getElem_of_mem hmem
  have hcolor : q.colorOf (.repeated q.nameCount pick 0 0) = e.2.intoGamut := by
    rw [colorOf_repeated hstored hpick q.one_le_nameCount, hpicked, Adjustment.apply_steps_zero]
  have hself : q.distanceOf e.2.intoGamut (.repeated q.nameCount pick 0 0) = 0 := by
    rw [distanceOf, hcolor]
    exact Oklab.squaredDistance_of_gap_eq_zero ((Oklab.gap_eq_zero_iff _ _).mpr fun _ => rfl)
  have hvalid : (Candidate.repeated q.nameCount pick 0 0).Valid q.palette.length q.nameCount :=
    Candidate.valid_repeated hpick (by norm_num) (by norm_num)
  obtain ⟨c, -, -, hdistance⟩ := h.exists_reported e.2.intoGamut
  have hle := h.distance_le e.2.intoGamut hcap hvalid
  rw [hself, hdistance] at hle
  rw [hdistance]
  exact Oklab.squaredDistance_eq_zero_of_le hle

/-- More names never match worse than one, and a visible color of the table is found exactly with any
number of names. The reported distance is that of a candidate whose color is reported. -/
theorem more_names_match (q : Search s) (h : q.Searchable) (hcap : q.cap = none) (hstored : q.table.Stored) :
    (∀ target, (q.run target).distance ≤ (q.withOneName.run target).distance) ∧
      (∀ e ∈ q.table.colorsByHue, (q.run e.2.intoGamut).distance = 0) ∧
      ∀ target, ∃ c : Candidate, c.Valid q.palette.length q.nameCount ∧ (q.run target).color = q.colorOf c ∧
        (q.run target).distance = (q.run target).color.toOklab.squaredDistance target.toOklab := by
  refine ⟨fun target => h.distance_le_withOneName target hcap hstored,
    fun _ he => h.distance_of_palette hcap hstored he, ?_⟩
  intro target
  obtain ⟨c, hc, hcolor, hdistance⟩ := h.exists_reported target
  refine ⟨c, hc, hcolor, ?_⟩
  rw [hdistance, hcolor, distanceOf]

/-- As many names as can be counted in a table of two. -/
theorem more_names_match_pair :
    let mint : Oklab := ⟨0xFEA0A0F0⟩
    let q : Search .oklab := ⟨⟨[("mint", mint), ("teal", ⟨0xFE707890⟩)], []⟩, .basic, 57, none⟩
    q.Searchable ∧ q.table.Stored ∧ (∀ target, (q.run target).distance ≤ (q.withOneName.run target).distance) ∧
      (q.run mint.intoGamut).distance = 0 := by
  intro mint q
  have hlength : q.palette.length = 2 := by
    rw [palette, List.length_map, Table.colorsByHue, (Entries.sortBy_perm _ _).length_eq]
    decide
  have hq : q.Searchable := by
    refine ⟨List.length_pos_iff.mp (by omega), ?_, ?_⟩
    · intro k hk
      cases hk
    · intro hnone
      have hnames : q.nameCount = 57 := rfl
      rw [combinations, hlength, hnames]
      norm_num [levelCount, countLimit]
  have hstored : q.table.Stored := ⟨by decide, by decide⟩
  have hmint : ("mint", mint) ∈ q.table.colorsByHue := Table.mem_colorsByHue.mpr ⟨by decide, by decide⟩
  obtain ⟨hless, hfound, -⟩ := more_names_match q hq rfl hstored
  exact ⟨hq, hstored, hless, hfound ("mint", mint) hmint⟩

end Search
end ColorWords
