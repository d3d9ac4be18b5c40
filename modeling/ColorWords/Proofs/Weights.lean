import ColorWords.Proofs.Mixing

/-! # What weights decide

A color without weight leaves no trace in a mixture of some weight, wherever it stands: the first
color with weight replaces what came before it, and from then on nothing is no share of the total.
Colors of weight one are mixed evenly, so a color that is repeated at the head has the number of its
copies as its weight.
-/
namespace ColorWords.Color
open Single

variable {s : Space} {c : Color s} {state entry : Color s × Float32} {rest : List (Color s × Float32)} {q : ℚ}

/-! ## No weight -/

def weighs (entry : Color s × Float32) : Bool := entry.2 != 0

theorem weighs_iff (h : Denotes entry.2 q) : weighs entry = true ↔ q ≠ 0 := by
  rw [weighs, bne, Bool.not_eq_true', ← Bool.not_eq_true, h.beq_iff denotes_zero]

theorem FiniteWeight.zero_or_pos (h : FiniteWeight entry.2) :
    weighs entry = false ∧ Denotes entry.2 0 ∨ weighs entry = true ∧ ∃ q, 0 < q ∧ Denotes entry.2 q := by
  obtain ⟨q, hq, hw⟩ := h.denotes
  have hiff := weighs_iff hw
  rcases hq.eq_or_lt with rfl | hpos
  · exact .inl ⟨by simpa using hiff, hw⟩
  · exact .inr ⟨hiff.mpr hpos.ne', q, hpos, hw⟩

theorem addWeighted_of_no_weight (htotal : Denotes state.2 0) (h : Denotes entry.2 0) :
    addWeighted state entry = state := by
  have hle : state.2 + entry.2 ≤ 0 := ((htotal.add_zero h).le_iff denotes_zero).mpr le_rfl
  simp only [addWeighted, if_pos hle]

/-- The first color with weight is all there is of the mixture: its share is the whole. -/
theorem addWeighted_first (hstored : entry.1.Stored) (htotal : Denotes state.2 0) (h : Denotes entry.2 q)
    (hpos : 0 < q) : addWeighted state entry = entry := by
  have hsum : state.2 + entry.2 = entry.2 :=
    (alike_zero_add htotal entry.2).resolve_right fun hzero => hpos.ne' (h.eq.symm.trans hzero.2.eq)
  have hnot : ¬ entry.2 ≤ 0 := by
    rw [h.le_iff denotes_zero]
    exact not_le.mpr hpos
  have hone : rounded (q / q) = 1 := by
    rw [div_self hpos.ne', rounded_of_representable denotes_one.representable]
  have hshare : Denotes (entry.2 / entry.2) 1 := by
    rw [← hone]
    exact h.div h hpos.ne' (by rw [hone]; norm_num)
  simp only [addWeighted, hsum, if_neg hnot, hstored.lerp_one hshare]

structure Begun (state : Color s × Float32) : Prop where
  stored : state.1.Stored
  amount : Amount state.2
  positive : ¬ state.2 ≤ 0

theorem begun_of_pos (hstored : entry.1.Stored) (h : Denotes entry.2 q) (hpos : 0 < q) : Begun entry := by
  refine ⟨hstored, h.amount hpos.le, ?_⟩
  rw [h.le_iff denotes_zero]
  exact not_le.mpr hpos

theorem Begun.step (h : Begun state) (hweight : Amount entry.2) : Begun (addWeighted state entry) := by
  refine ⟨addWeighted_stored h.stored, addWeighted_amount h.amount hweight, ?_⟩
  unfold addWeighted
  dsimp only
  split
  case isTrue => exact h.positive
  case isFalse hnot => exact hnot

/-- Nothing is added to the total, and it is no share of it. -/
theorem Begun.step_zero (h : Begun state) (hweight : Denotes entry.2 0) : addWeighted state entry = state := by
  have hkept : state.2 + entry.2 = state.2 ∧ Denotes (entry.2 / state.2) 0 := by
    obtain ⟨p, hp, htotal⟩ | hinfinite := h.amount
    · have hpos : 0 < p := by
        have hnot := h.positive
        rwa [htotal.le_iff denotes_zero, not_le] at hnot
      have hshare := hweight.div htotal hpos.ne'
      rw [zero_div, rounded_zero] at hshare
      exact ⟨htotal.add_zero_eq hpos.ne' hweight, hshare (by norm_num)⟩
    · rw [hinfinite]
      exact ⟨Amount.infinity_add (hweight.amount le_rfl), hweight.div_infinity⟩
  simp only [addWeighted, hkept.1, if_neg h.positive, h.stored.lerp_zero hkept.2]

theorem Begun.foldl_filter (h : Begun state) (hrest : ∀ e ∈ rest, FiniteWeight e.2) :
    (rest.filter weighs).foldl addWeighted state = rest.foldl addWeighted state := by
  induction rest generalizing state with
  | nil => rfl
  | cons e rest ih =>
    obtain ⟨hweight, hrest⟩ := List.forall_mem_cons.mp hrest
    rcases hweight.zero_or_pos with ⟨hnone, hzero⟩ | ⟨hsome, -⟩
    · simp only [List.filter_cons, hnone, List.foldl_cons, h.step_zero hzero]
      exact ih h hrest
    · simp only [List.filter_cons, hsome, List.foldl_cons, if_true]
      exact ih (h.step hweight.amount) hrest

/-- The mixture begins with the first color that has weight. -/
theorem weightedMix_filter_cons (hstored : entry.1.Stored) (hpos : 0 < q) (h : Denotes entry.2 q)
    (hrest : ∀ e ∈ rest, FiniteWeight e.2) :
    weightedMix (entry :: rest.filter weighs) = (rest.foldl addWeighted entry).1 :=
  congrArg Prod.fst ((begun_of_pos hstored h hpos).foldl_filter hrest)

theorem exists_pos_of_no_weight (hzero : Denotes entry.2 0) (hpos : ∃ e ∈ entry :: rest, 0 < e.2) :
    ∃ e ∈ rest, 0 < e.2 := by
  obtain ⟨e, he, hpos⟩ := hpos
  rcases List.mem_cons.mp he with rfl | he
  · exact absurd ((denotes_zero.lt_iff hzero).mp hpos) (lt_irrefl 0)
  · exact ⟨e, he, hpos⟩

/-- As long as a mixture has no weight, its color does not count. -/
theorem weightedMix_filter_of_no_weight (htotal : Denotes state.2 0)
    (hrest : ∀ e ∈ rest, e.1.Stored ∧ FiniteWeight e.2) (hpos : ∃ e ∈ rest, 0 < e.2) :
    weightedMix (rest.filter weighs) = (rest.foldl addWeighted state).1 := by
  induction rest with
  | nil =>
    obtain ⟨e, he, -⟩ := hpos
    cases he
  | cons e rest ih =>
    obtain ⟨⟨hstored, hweight⟩, hrest⟩ := List.forall_mem_cons.mp hrest
    rcases hweight.zero_or_pos with ⟨hnone, hzero⟩ | ⟨hsome, q, hq, hw⟩
    · simp only [List.filter_cons, hnone, List.foldl_cons, addWeighted_of_no_weight htotal hzero]
      exact ih hrest (exists_pos_of_no_weight hzero hpos)
    · simp only [List.filter_cons, hsome, if_true, List.foldl_cons, addWeighted_first hstored htotal hw hq]
      exact weightedMix_filter_cons hstored hq hw fun e he => (hrest e he).2

/-- Colors without weight can be left out of a mixture that has some weight, also at its head. -/
theorem weightedMix_filter (entries : List (Color s × Float32)) (h : ∀ e ∈ entries, e.1.Stored ∧ FiniteWeight e.2)
    (hpos : ∃ e ∈ entries, 0 < e.2) : weightedMix (entries.filter (·.2 != 0)) = weightedMix entries := by
  change weightedMix (entries.filter weighs) = _
  cases entries with
  | nil => rfl
  | cons e rest =>
    obtain ⟨⟨hstored, hweight⟩, hrest⟩ := List.forall_mem_cons.mp h
    rcases hweight.zero_or_pos with ⟨hnone, hzero⟩ | ⟨hsome, q, hq, hw⟩
    · simp only [List.filter_cons, hnone]
      exact weightedMix_filter_of_no_weight hzero hrest (exists_pos_of_no_weight hzero hpos)
    · simp only [List.filter_cons, hsome, if_true]
      exact weightedMix_filter_cons hstored hq hw fun e he => (hrest e he).2

/-- Zeros of both signs at the head, and one after the total has left the range. -/
theorem weightedMix_filter_overflow :
    let red : Rgb := ⟨0xFE0000FF⟩
    let glass : Rgb := ⟨0x40FF8000⟩
    let largest : Float32 := .ofBits 0x7F7FFFFF
    let entries : List (Rgb × Float32) :=
      [(glass, -0), (red, 0), (glass, largest), (red, -0), (red, largest), (.white, 0), (.black, 2)]
    (∀ e ∈ entries, e.1.Stored ∧ FiniteWeight e.2) ∧ (∃ e ∈ entries, 0 < e.2) ∧
      weightedMix [(glass, largest), (red, largest), (.black, 2)] = weightedMix entries := by
  intro red glass largest entries
  have hentries : ∀ e ∈ entries, e.1.Stored ∧ FiniteWeight e.2 := by decide
  have hpos : ∃ e ∈ entries, 0 < e.2 := by decide
  have hkept : entries.filter (·.2 != 0) = [(glass, largest), (red, largest), (.black, 2)] := by decide
  exact ⟨hentries, hpos, hkept ▸ weightedMix_filter entries hentries hpos⟩

/-! ## Weights of one -/

theorem mixFrom_copies (hc : c.Stored) {k : ℕ} (hk : 1 ≤ k) (n : ℕ) : mixFrom c k (List.replicate n c) = c := by
  induction n generalizing k with
  | zero => rfl
  | succ n ih =>
    obtain ⟨q, hq, h0, h1⟩ := denotes_share hk
    simp only [List.replicate_succ, mixFrom, hc.lerp_self hq h0 h1]
    exact ih (by omega)

/-- After some copies of a color its weight is their number. -/
theorem foldl_addWeighted_copies (hc : c.Stored) {n : ℕ} (h : n < 2 ^ 24) :
    (List.replicate n (c, (1 : Float32))).foldl addWeighted (c, 1) = (c, ofInt (n + 1 : ℕ)) := by
  have hfold := foldl_addWeighted_one c (List.replicate n c) (k := 1) (by simp only [List.length_replicate]; omega)
  rw [List.map_replicate, mixFrom_copies hc (by norm_num), List.length_replicate, Nat.add_comm] at hfold
  exact hfold

/-- Even mixtures are the weighted ones with all weights one, and copies of a color at the head of a
mixture weigh as many times one, whatever follows them. -/
theorem counts_are_weights :
    (∀ cs : List (Color s), cs.length ≤ 2 ^ 24 → weightedMix (cs.map (·, (1 : Float32))) = mix cs) ∧
      ∀ c : Color s, c.Stored → ∀ k : ℕ, 1 ≤ k → k ≤ 2 ^ 24 → ∀ rest : List (Color s × Float32),
        weightedMix (List.replicate k (c, (1 : Float32)) ++ rest) = weightedMix ((c, ofInt k) :: rest) := by
  refine ⟨weightedMix_one, ?_⟩
  intro c hc k h1 hk rest
  obtain ⟨n, rfl⟩ := Nat.exists_eq_add_one.mpr h1
  have hcopies := foldl_addWeighted_copies hc (n := n) (by omega)
  simp only [List.replicate_succ, List.cons_append, weightedMix, List.foldl_append, hcopies]

theorem counts_are_weights_largest :
    let red : Rgb := ⟨0xFE0000FF⟩
    let rest : List (Rgb × Float32) := [(⟨0x40FF8000⟩, .ofBits 0x7FC00000), (.white, -2), (.black, infinity)]
    [red, .white, red].length ≤ 2 ^ 24 ∧ red.Stored ∧
      weightedMix [(red, 1), (.white, 1), (red, 1)] = mix [red, .white, red] ∧
      weightedMix (List.replicate (2 ^ 24) (red, (1 : Float32)) ++ rest) =
        weightedMix ((red, ofInt (2 ^ 24 : ℕ)) :: rest) := by
  intro red rest
  have hlength : [red, .white, red].length ≤ 2 ^ 24 := by simp
  have hred : red.Stored := by decide
  obtain ⟨heven, hcopies⟩ := counts_are_weights (s := .rgb)
  exact ⟨hlength, hred, heven _ hlength, hcopies red hred (2 ^ 24) (by norm_num) le_rfl rest⟩

end ColorWords.Color
