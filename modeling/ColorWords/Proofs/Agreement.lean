import ColorWords.Proofs.Reading
import ColorWords.Proofs.Search
import ColorWords.Proofs.Table
import ColorWords.Proofs.Wording

/-! # Descriptions that are found read back

The search and the reading of descriptions share no code below the mixture of two colors.
They agree because the words of a candidate are tokens again, its names look up the colors
that were mixed, equal weights mix evenly, and no mixture of visible colors is taken for a
missing one.
-/
namespace ColorWords

namespace Description
variable {s : Space} (table : Table s)

theorem lastWeight_names (value : Float32) (names : List String) :
    lastWeight value (names.map .name) = value := by
  cases names with
  | nil => rfl
  | cons n rest => rfl

theorem entries_names (names : List String) :
    entries table (names.map .name) = (names.map table.lookup).map (·, (1 : Float32)) := by
  induction names with
  | nil => rfl
  | cons n rest ih =>
    rw [List.map_cons, entries, lastWeight_names, ih]
    rfl

theorem entries_adjectives (changes : List Adjustment) (later : List Meaning) :
    entries table (changes.map .adjective ++ later) = entries table later := by
  induction changes with
  | nil => rfl
  | cons change rest ih => exact ih

theorem adjustment_adjectives (changes : List Adjustment) (names : List String) :
    adjustment (changes.map .adjective ++ names.map .name) = changes.foldl (· + ·) .zero := by
  have hchanges : (changes.map Meaning.adjective).filterMap Meaning.change? = changes := by
    induction changes with
    | nil => rfl
    | cons change rest ih => exact congrArg (change :: ·) ih
  have hnames : (names.map Meaning.name).filterMap Meaning.change? = [] := by
    induction names with
    | nil => rfl
    | cons n rest ih => exact ih
  rw [adjustment, List.filterMap_append, hchanges, hnames, List.append_nil]

/-- Adjectives and then names of visible colors describe the adjusted even mixture. -/
theorem colorOf_adjectives_names (changes : List Adjustment) {names : List String} (hne : names ≠ [])
    (hlength : names.length ≤ 2 ^ 24) (hvisible : ∀ n ∈ names, (table.lookup n).Visible) :
    colorOf table (changes.map .adjective ++ names.map .name) =
      ((changes.foldl (· + ·) Adjustment.zero).apply (Color.mix (names.map table.lookup))).intoGamut := by
  have hmix : Color.weightedMix ((names.map table.lookup).map (·, (1 : Float32))) =
      Color.mix (names.map table.lookup) := Color.weightedMix_one _ (by rwa [List.length_map])
  have hshown : (Color.mix (names.map table.lookup)).Visible := by
    refine Color.mix_visible (by simpa using hne) ?_
    intro c hc
    obtain ⟨n, hn, rfl⟩ := List.mem_map.mp hc
    exact hvisible n hn
  have hentries : (names.map table.lookup).map (·, (1 : Float32)) ≠ [] := by
    simpa using hne
  simp only [colorOf, entries_adjectives, entries_names, adjustment_adjectives, hmix]
  rw [if_neg hentries, if_neg hshown.ne_transparent]

end Description

namespace Search
variable {s : Space} {q : Search s}

def Consistent (q : Search s) (best : Best s) : Prop :=
  match best.candidate with
  | none => best.color = .transparent
  | some c => c.Valid q.palette.length q.nameCount ∧ best.color = q.colorOf c

theorem consistent_improve (hsize : 0 < q.palette.length) (target : Oklab) {best : Best s}
    (h : q.Consistent best) (n : ℕ) : q.Consistent (q.improve q.palette target best n) := by
  rw [improve]
  split
  case isTrue => exact ⟨Candidate.valid_ofNumber hsize q.nameCount n, rfl⟩
  case isFalse => exact h

theorem consistent_best (hsize : 0 < q.palette.length) (target : Oklab) (limit : ℕ) :
    q.Consistent (q.best q.palette target limit) := by
  rw [best]
  induction limit with
  | zero => exact rfl
  | succ n ih =>
    rw [List.range_succ, List.foldl_append]
    exact consistent_improve hsize target ih n

def picked (q : Search s) (picks : List ℕ) : List (String × Color s) := picks.filterMap (q.table.colorsByHue[·]?)

theorem picked_names (picks : List ℕ) :
    picks.filterMap (q.table.namesByHue[·]?) = (q.picked picks).map (·.1) := by
  rw [picked, List.map_filterMap]
  simp only [Table.namesByHue, List.getElem?_map]

theorem picked_colors (picks : List ℕ) :
    picks.filterMap (q.palette[·]?) = (q.picked picks).map (·.2) := by
  rw [picked, List.map_filterMap]
  simp only [palette, List.getElem?_map]

theorem mem_of_mem_picked {picks : List ℕ} {e : String × Color s} (h : e ∈ q.picked picks) :
    e ∈ q.table.colorsByHue := by
  obtain ⟨i, -, hi⟩ := List.mem_filterMap.mp h
  exact List.mem_of_getElem? hi

theorem length_picked {picks : List ℕ} (h : ∀ p ∈ picks, p < q.palette.length) :
    (q.picked picks).length = picks.length := by
  induction picks with
  | nil => rfl
  | cons p rest ih =>
    obtain ⟨hp, hrest⟩ := List.forall_mem_cons.mp h
    rw [palette, List.length_map] at hp
    rw [picked, List.filterMap_cons, List.getElem?_eq_getElem hp]
    exact congrArg (· + 1) (ih hrest)

/-- Every listed name is one token and means itself. -/
def NamesRead (q : Search s) : Prop :=
  ∀ n ∈ q.table.namesByHue, q.grammar.tokens n.toList = [⟨n.toList, 0⟩] ∧
    q.grammar.classify n.toList = .name n

theorem NamesRead.isWord (h : q.NamesRead) {n : String} (hn : n ∈ q.table.namesByHue) :
    q.grammar.IsWord n.toList := Grammar.isWord_of_tokens (h n hn).1

theorem describe_eq (h : q.NamesRead) (c : Candidate) :
    q.describe q.table.namesByHue (some c) =
      " ".intercalate (q.grammar.spoken c.lightness c.saturation ++ (q.picked c.picks).map (·.1)) := by
  have hnames : ((q.picked c.picks).map (·.1)).filter (· ≠ "") = (q.picked c.picks).map (·.1) := by
    refine List.filter_eq_self.mpr ?_
    intro n hn
    obtain ⟨e, he, rfl⟩ := List.mem_map.mp hn
    have hword := h.isWord (List.mem_map_of_mem (mem_of_mem_picked he))
    simpa using hword.1
  have hsplit (a b : String) (rest : List String) :
      (a :: b :: rest).filter (· ≠ "") = [a, b].filter (· ≠ "") ++ rest.filter (· ≠ "") :=
    List.filter_append [a, b] rest
  simp only [describe, picked_names]
  rw [hsplit, hnames]
  rfl

/-- The tokens of a candidate's description mean its levels and its names. -/
theorem meanings_describe (h : q.NamesRead) {c : Candidate} (hc : c.Valid q.palette.length q.nameCount) :
    q.grammar.meanings (q.describe q.table.namesByHue (some c)).toList =
      (q.grammar.saidChanges c.lightness c.saturation).map .adjective ++
        ((q.picked c.picks).map (·.1)).map .name := by
  have hmem {n : String} (hn : n ∈ (q.picked c.picks).map (·.1)) : n ∈ q.table.namesByHue := by
    obtain ⟨e, he, rfl⟩ := List.mem_map.mp hn
    exact List.mem_map_of_mem (mem_of_mem_picked he)
  have hwords : ∀ w ∈ q.grammar.spoken c.lightness c.saturation ++ (q.picked c.picks).map (·.1),
      q.grammar.IsWord w.toList := by
    intro w hw
    rcases List.mem_append.mp hw with hw | hw
    · exact Grammar.isWord_of_mem_spoken hc.lightness hc.saturation hw
    · exact h.isWord (hmem hw)
  have hnames : ((q.picked c.picks).map (·.1)).map (fun n => q.grammar.classify n.toList) =
      ((q.picked c.picks).map (·.1)).map .name :=
    List.map_congr_left fun n hn => (h n (hmem hn)).2
  rw [describe_eq h, Grammar.meanings_eq, Grammar.words_intercalate hwords, List.map_map, List.map_append]
  exact congrArg₂ (· ++ ·) (Grammar.classify_spoken q.grammar hc.lightness hc.saturation) hnames

theorem parse_describe (hbuilt : q.table.Built) (hmix : q.mixCount ≤ 2 ^ 24) (hsteps : q.grammar.FiniteSteps)
    (h : q.NamesRead) {c : Candidate} (hc : c.Valid q.palette.length q.nameCount) :
    Description.parse q.table q.grammar (q.describe q.table.namesByHue (some c)) = q.colorOf c := by
  have hlength : (q.picked c.picks).length = q.nameCount := by rw [length_picked hc.picks, hc.length]
  have hlookup : ((q.picked c.picks).map (·.1)).map q.table.lookup = (q.picked c.picks).map (·.2) := by
    rw [List.map_map]
    exact List.map_congr_left fun e he => hbuilt.lookup_of_mem (mem_of_mem_picked he)
  have hvisible : ∀ n ∈ (q.picked c.picks).map (·.1), (q.table.lookup n).Visible := by
    intro n hn
    obtain ⟨e, he, rfl⟩ := List.mem_map.mp hn
    have hmem := mem_of_mem_picked he
    rw [hbuilt.lookup_of_mem hmem]
    exact (Table.mem_colorsByHue.mp hmem).2
  have hcount := q.one_le_nameCount
  have hmax : q.nameCount ≤ 2 ^ 24 := max_le (by norm_num) hmix
  have hne : (q.picked c.picks).map (·.1) ≠ [] := by
    refine List.length_pos_iff.mp ?_
    rw [List.length_map, hlength]
    omega
  rw [Description.parse_eq, meanings_describe h hc,
    Description.colorOf_adjectives_names q.table _ hne (by rwa [List.length_map, hlength]) hvisible, hlookup,
    Adjustment.apply_congr (Grammar.foldl_saidChanges_alike hsteps _ _), colorOf, candidateColor, picked_colors]

theorem limits_of_palette_eq_nil (h : q.palette = []) : (q.limits q.palette.length).1 = 0 := by
  have htotal : Candidate.total 0 q.nameCount = 0 := by
    simp [Candidate.total]
  rw [h, List.length_nil, limits, htotal]
  cases q.cap with
  | none => rfl
  | some k => exact Nat.min_zero k

/-- Reading the description that a search finds gives the color that it finds. -/
theorem parse_run (q : Search s) (hbuilt : q.table.Built) (hmix : q.mixCount ≤ 2 ^ 24)
    (hsteps : q.grammar.FiniteSteps) (h : q.NamesRead) (target : Color s) :
    Description.parse q.table q.grammar (q.run target).description = (q.run target).color := by
  rw [run_eq_report]
  rcases Nat.eq_zero_or_pos q.palette.length with hsize | hsize
  · have hnil := List.length_eq_zero_iff.mp hsize
    rw [limits_of_palette_eq_nil hnil]
    exact Description.parse_eq q.table q.grammar ""
  · have hbest := consistent_best hsize target.toOklab (q.limits q.palette.length).1
    rw [Consistent] at hbest
    simp only [report]
    split at hbest
    case h_1 hnone =>
      rw [hnone, hbest]
      exact Description.parse_eq q.table q.grammar ""
    case h_2 c hsome =>
      rw [hsome, hbest.2]
      exact parse_describe hbuilt hmix hsteps h hbest.1

theorem parse_run_mint_sage :
    let b : Builder .rgb := (Builder.empty.insert "mint" ⟨0xFE98FB98⟩).insert "sage" ⟨0xFE8DB89C⟩
    let q : Search .rgb := ⟨b.build, .extended, 2, some 1000⟩
    q.table.Built ∧ q.mixCount ≤ 2 ^ 24 ∧ q.grammar.FiniteSteps ∧ q.NamesRead ∧
      ∀ target, Description.parse q.table q.grammar (q.run target).description = (q.run target).color := by
  intro b q
  have hbuilt : q.table.Built := ⟨b, .inl rfl⟩
  have hsteps : q.grammar.FiniteSteps := ⟨by decide, by decide⟩
  have hkeys : ∀ n ∈ Entries.keys b.lastEntries, Grammar.extended.tokens n.toList = [⟨n.toList, 0⟩] ∧
      Grammar.extended.classify n.toList = .name n := by decide
  have hnames : q.NamesRead := fun n hn => hkeys n (Table.mem_keys_of_mem_namesByHue hn)
  exact ⟨hbuilt, by decide, hsteps, hnames, parse_run q hbuilt (by decide) hsteps hnames⟩

end Search
end ColorWords
