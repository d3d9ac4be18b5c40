import ColorWords.Proofs.Levels
import ColorWords.Proofs.Reading
import ColorWords.Proofs.Wording

/-! # Adjectives count by their net levels

The levels of the adjectives of a text are read off its tokens. What they add up to on each
axis is all that the color depends on, as long as the levels count by their sum.
-/
namespace ColorWords

namespace Grammar
open Single (Denotes)
variable {g : Grammar} {word : List Char} {p : ℤ × ℤ} {text other : String}

def adjectiveLevels? (g : Grammar) (word : List Char) : Option (ℤ × ℤ) :=
  if g.features.weights && word.head?.any Char.isDigit then none
  else wordLevels? g.features.compounds (Text.bytes word)

def adjectiveLevels (g : Grammar) (text : String) : List (ℤ × ℤ) :=
  (g.words text.toList).filterMap g.adjectiveLevels?

def lightnessLevels (g : Grammar) (text : String) : List ℤ := (g.adjectiveLevels text).map Prod.fst

def saturationLevels (g : Grammar) (text : String) : List ℤ := (g.adjectiveLevels text).map Prod.snd

def remainder (g : Grammar) (text : String) : List Meaning := (g.meanings text.toList).filter (!·.isAdjective)

structure Counted (g : Grammar) (text : String) : Prop where
  lightness : Levels.Counted g.lightnessStep (g.lightnessLevels text)
  saturation : Levels.Counted g.saturationStep (g.saturationLevels text)

structure OrderFree (g : Grammar) (text : String) : Prop where
  lightness : Levels.OrderFree g.lightnessStep (g.lightnessLevels text)
  saturation : Levels.OrderFree g.saturationStep (g.saturationLevels text)

theorem change?_classify (g : Grammar) (word : List Char) :
    (g.classify word).change? = (g.adjectiveLevels? word).map fun p => g.steps p.1 p.2 := by
  rw [classify, adjectiveLevels?, change?_eq]
  split
  case isTrue => rfl
  case isFalse => cases wordLevels? g.features.compounds (Text.bytes word) <;> rfl

theorem filterMap_change?_meanings (g : Grammar) (text : String) :
    (g.meanings text.toList).filterMap Meaning.change? =
      (g.adjectiveLevels text).map fun p => g.steps p.1 p.2 := by
  rw [meanings_eq, List.filterMap_map, adjectiveLevels, List.map_filterMap]
  exact List.filterMap_congr fun word _ => change?_classify g word

/-- The axes do not meet while changes are added. -/
theorem foldl_steps (g : Grammar) (levels : List (ℤ × ℤ)) (a : Adjustment) :
    (levels.map fun p => g.steps p.1 p.2).foldl (· + ·) a =
      ⟨(levels.map Prod.fst).foldl (fun t l => t + g.lightnessStep * Single.ofInt l) a.lightness,
        (levels.map Prod.snd).foldl (fun t l => t + g.saturationStep * Single.ofInt l) a.saturation⟩ := by
  induction levels generalizing a with
  | nil => rfl
  | cons p rest ih => exact ih (a + g.steps p.1 p.2)

theorem adjustment_meanings (g : Grammar) (text : String) :
    Description.adjustment (g.meanings text.toList) =
      ⟨Levels.total g.lightnessStep (g.lightnessLevels text),
        Levels.total g.saturationStep (g.saturationLevels text)⟩ := by
  rw [Description.adjustment, filterMap_change?_meanings, foldl_steps]
  rfl

theorem abs_le_of_wordLevels? {compounds : Bool} {token : List UInt8} (h : wordLevels? compounds token = some p) :
    |p.1| ≤ 4 ∧ |p.2| ≤ 4 := by
  have hall : ∀ a ∈ Adjective.all, ∀ e ∈ a.levels, |a.lightness * e.2| ≤ 4 ∧ |a.saturation * e.2| ≤ 4 := by
    decide
  simp only [wordLevels?, Option.bind_eq_bind, Option.bind_eq_some_iff] at h
  obtain ⟨a, ha, level, hlevel, hp⟩ := h
  obtain ⟨before, after, hlevels, -⟩ := List.lookup_eq_some_iff.mp hlevel
  obtain rfl := Option.some.inj hp
  refine hall a (List.mem_filter.mp (List.mem_of_find?_eq_some ha)).1 (token.length, level) ?_
  rw [hlevels]
  exact List.mem_append_right _ List.mem_cons_self

theorem abs_le_of_mem_adjectiveLevels (hp : p ∈ g.adjectiveLevels text) : |p.1| ≤ 4 ∧ |p.2| ≤ 4 := by
  obtain ⟨word, -, hword⟩ := List.mem_filterMap.mp hp
  rw [adjectiveLevels?] at hword
  split at hword
  case isTrue => cases hword
  case isFalse => exact abs_le_of_wordLevels? hword

theorem abs_le_of_mem_lightnessLevels {l : ℤ} (hl : l ∈ g.lightnessLevels text) : |l| ≤ 4 := by
  obtain ⟨p, hp, rfl⟩ := List.mem_map.mp hl
  exact (abs_le_of_mem_adjectiveLevels hp).1

theorem abs_le_of_mem_saturationLevels {l : ℤ} (hl : l ∈ g.saturationLevels text) : |l| ≤ 4 := by
  obtain ⟨p, hp, rfl⟩ := List.mem_map.mp hl
  exact (abs_le_of_mem_adjectiveLevels hp).2

theorem exists_ladder (hg : g = .extended ∨ g = .basic) :
    (∃ top, Levels.Ladder g.lightnessStep top) ∧ ∃ top, Levels.Ladder g.saturationStep top := by
  rcases hg with rfl | rfl
  · exact ⟨⟨5, Levels.ladder_fifth⟩, 5, Levels.ladder_fifth⟩
  · exact ⟨⟨8, Levels.ladder_eighth⟩, 5, Levels.ladder_fifth⟩

theorem denotes_adjustment {top top' : ℕ} (h : Levels.Ladder g.lightnessStep top)
    (h' : Levels.Ladder g.saturationStep top') (text : String) :
    Denotes (Description.adjustment (g.meanings text.toList)).lightness
        (Levels.run g.lightnessStep 0 (g.lightnessLevels text)) ∧
      Denotes (Description.adjustment (g.meanings text.toList)).saturation
        (Levels.run g.saturationStep 0 (g.saturationLevels text)) := by
  rw [adjustment_meanings]
  exact ⟨h.denotes_total fun _ => abs_le_of_mem_lightnessLevels,
    h'.denotes_total fun _ => abs_le_of_mem_saturationLevels⟩

theorem OrderFree.counted (hg : g = .extended ∨ g = .basic) (h : g.OrderFree text) : g.Counted text := by
  obtain ⟨⟨_, hladder⟩, _, hladder'⟩ := exists_ladder hg
  exact ⟨h.lightness.counted hladder, h.saturation.counted hladder'⟩

theorem OrderFree.perm (h : g.OrderFree text) (hperm : (g.adjectiveLevels other).Perm (g.adjectiveLevels text)) :
    g.OrderFree other :=
  ⟨h.lightness.perm (hperm.map Prod.fst), h.saturation.perm (hperm.map Prod.snd)⟩

theorem counted_of_none (h : g.adjectiveLevels text = []) : g.Counted text := by
  constructor
  · rw [lightnessLevels, h]
    exact .inr trivial
  · rw [saturationLevels, h]
    exact .inr trivial

/-- Opposites next to each other are taken back at once, and leave no level on either axis. -/
theorem counted_of_opposites (hg : g = .extended ∨ g = .basic) {levels : List (ℤ × ℤ)}
    (h : g.adjectiveLevels text = levels.flatMap fun p => [p, -p]) :
    g.Counted text ∧ (g.lightnessLevels text).sum = 0 ∧ (g.saturationLevels text).sum = 0 := by
  obtain ⟨⟨_, hladder⟩, _, hladder'⟩ := exists_ladder hg
  have hsmall : ∀ p ∈ levels, |p.1| ≤ 4 ∧ |p.2| ≤ 4 := by
    intro p hp
    have hmem : p ∈ g.adjectiveLevels text := by
      rw [h]
      exact List.mem_flatMap.mpr ⟨p, hp, List.mem_cons_self⟩
    exact abs_le_of_mem_adjectiveLevels hmem
  have hlightness : g.lightnessLevels text = (levels.map Prod.fst).flatMap fun l => [l, -l] := by
    rw [lightnessLevels, h, List.map_flatMap, List.flatMap_map]
    rfl
  have hsaturation : g.saturationLevels text = (levels.map Prod.snd).flatMap fun l => [l, -l] := by
    rw [saturationLevels, h, List.map_flatMap, List.flatMap_map]
    rfl
  refine ⟨⟨?_, ?_⟩, ?_, ?_⟩
  · rw [hlightness]
    exact .inr (hladder.steady_opposites (List.forall_mem_map.mpr fun p hp => (hsmall p hp).1))
  · rw [hsaturation]
    exact .inr (hladder'.steady_opposites (List.forall_mem_map.mpr fun p hp => (hsmall p hp).2))
  · rw [hlightness, Levels.sum_opposites]
  · rw [hsaturation, Levels.sum_opposites]

end Grammar

namespace Description
variable {s : Space} (table : Table s) {g : Grammar} {text other : String}

theorem parse_congr (hrest : g.remainder text = g.remainder other)
    (happly : ∀ color : Color s, (adjustment (g.meanings text.toList)).apply color =
      (adjustment (g.meanings other.toList)).apply color) : parse table g text = parse table g other := by
  have hentries : entries table (g.meanings text.toList) = entries table (g.meanings other.toList) := by
    rw [← entries_filter, ← Grammar.remainder, hrest, Grammar.remainder, entries_filter]
  simp only [parse_eq, colorOf, hentries, happly]

theorem parse_of_netLevels (hg : g = .extended ∨ g = .basic) (hrest : g.remainder text = g.remainder other)
    (htext : g.Counted text) (hother : g.Counted other)
    (hlightness : (g.lightnessLevels text).sum = (g.lightnessLevels other).sum)
    (hsaturation : (g.saturationLevels text).sum = (g.saturationLevels other).sum) :
    parse table g text = parse table g other := by
  obtain ⟨⟨_, hladder⟩, _, hladder'⟩ := Grammar.exists_ladder hg
  have hlight := hladder.stands_run (fun _ => Grammar.abs_le_of_mem_lightnessLevels) htext.lightness
  have hlight' := hladder.stands_run (fun _ => Grammar.abs_le_of_mem_lightnessLevels) hother.lightness
  have hrich := hladder'.stands_run (fun _ => Grammar.abs_le_of_mem_saturationLevels) htext.saturation
  have hrich' := hladder'.stands_run (fun _ => Grammar.abs_le_of_mem_saturationLevels) hother.saturation
  rw [hlightness] at hlight
  rw [hsaturation] at hrich
  refine parse_congr table hrest fun color => ?_
  obtain ⟨hltext, hstext⟩ := Grammar.denotes_adjustment hladder hladder' text
  obtain ⟨hlother, hsother⟩ := Grammar.denotes_adjustment hladder hladder' other
  rw [Adjustment.apply, Adjustment.apply, hlight.move_eq _ _ _ hladder hltext hlother hlight',
    hrich.move_eq _ _ _ hladder' hstext hsother hrich']

theorem parse_of_exchanged (hg : g = .extended ∨ g = .basic) (hrest : g.remainder text = g.remainder other)
    (hlightness : Levels.Exchanged (g.lightnessLevels text) (g.lightnessLevels other))
    (hsaturation : Levels.Exchanged (g.saturationLevels text) (g.saturationLevels other)) :
    parse table g text = parse table g other := by
  obtain ⟨⟨_, hladder⟩, _, hladder'⟩ := Grammar.exists_ladder hg
  obtain ⟨hltext, hstext⟩ := Grammar.denotes_adjustment hladder hladder' text
  obtain ⟨hlother, hsother⟩ := Grammar.denotes_adjustment hladder hladder' other
  rw [hladder.run_exchanged (fun _ => Grammar.abs_le_of_mem_lightnessLevels)
    (fun _ => Grammar.abs_le_of_mem_lightnessLevels) hlightness] at hltext
  rw [hladder'.run_exchanged (fun _ => Grammar.abs_le_of_mem_saturationLevels)
    (fun _ => Grammar.abs_le_of_mem_saturationLevels) hsaturation] at hstext
  exact parse_congr table hrest fun color => Adjustment.apply_congr ⟨hltext.alike hlother, hstext.alike hsother⟩ color

theorem parse_of_swap (hg : g = .extended ∨ g = .basic) (hrest : g.remainder text = g.remainder other)
    {p q : ℤ × ℤ} {levels : List (ℤ × ℤ)} (htext : g.adjectiveLevels text = p :: q :: levels)
    (hother : g.adjectiveLevels other = q :: p :: levels) : parse table g text = parse table g other := by
  refine parse_of_exchanged table hg hrest ?_ ?_
  · rw [Grammar.lightnessLevels, Grammar.lightnessLevels, htext, hother]
    exact Levels.exchanged_swap _ _ _
  · rw [Grammar.saturationLevels, Grammar.saturationLevels, htext, hother]
    exact Levels.exchanged_swap _ _ _

/-- Adjectives count only by their net levels: texts with the same names and weights and the
same net levels describe one color if the levels count by their sum. So adjectives of one
direction on an axis, and few enough of both, stand in any order, and levels that cancel count
for nothing. The first two adjectives may always change places, and so may on each axis the first
two that act on it; opposites next to each other always cancel. -/
theorem parse_by_netLevels (hg : g = .extended ∨ g = .basic) (hrest : g.remainder text = g.remainder other) :
    (g.Counted text → g.Counted other → (g.lightnessLevels text).sum = (g.lightnessLevels other).sum →
        (g.saturationLevels text).sum = (g.saturationLevels other).sum →
        parse table g text = parse table g other) ∧
      ((g.adjectiveLevels other).Perm (g.adjectiveLevels text) → g.OrderFree text →
        parse table g text = parse table g other) ∧
      (∀ p q levels, g.adjectiveLevels text = p :: q :: levels → g.adjectiveLevels other = q :: p :: levels →
        parse table g text = parse table g other) ∧
      (Levels.Exchanged (g.lightnessLevels text) (g.lightnessLevels other) →
        Levels.Exchanged (g.saturationLevels text) (g.saturationLevels other) →
        parse table g text = parse table g other) ∧
      (g.adjectiveLevels other = [] → g.Counted text → (g.lightnessLevels text).sum = 0 →
        (g.saturationLevels text).sum = 0 → parse table g text = parse table g other) ∧
      ∀ levels : List (ℤ × ℤ), g.adjectiveLevels other = [] →
        g.adjectiveLevels text = levels.flatMap (fun p => [p, -p]) → parse table g text = parse table g other := by
  have hnone (hother : g.adjectiveLevels other = []) (htext : g.Counted text)
      (hlightness : (g.lightnessLevels text).sum = 0) (hsaturation : (g.saturationLevels text).sum = 0) :
      parse table g text = parse table g other := by
    refine parse_of_netLevels table hg hrest htext (Grammar.counted_of_none hother) ?_ ?_
    · rw [hlightness, Grammar.lightnessLevels, hother]
      rfl
    · rw [hsaturation, Grammar.saturationLevels, hother]
      rfl
  refine ⟨parse_of_netLevels table hg hrest, ?_, fun p q levels => parse_of_swap table hg hrest,
    parse_of_exchanged table hg hrest, hnone, ?_⟩
  · intro hperm hfree
    exact parse_of_netLevels table hg hrest (hfree.counted hg) ((hfree.perm hperm).counted hg)
      (hperm.map Prod.fst).sum_eq.symm (hperm.map Prod.snd).sum_eq.symm
  · intro levels hother hlevels
    obtain ⟨htext, hlightness, hsaturation⟩ := Grammar.counted_of_opposites hg hlevels
    exact hnone hother htext hlightness hsaturation

theorem parse_by_netLevels_red :
    let table : Table .rgb := ⟨[("red", ⟨0xFE0000FF⟩)], []⟩
    let parsed := parse table .extended
    parsed "lighter dark red" = parsed "light red" ∧
      parsed "richest bright deep red" = parsed "deep richest bright red" ∧
      parsed "lightest dark red" = parsed "dark lightest red" ∧
      parsed "rich lightest dull dark red" = parsed "dull dark rich lightest red" ∧
      parsed "lighter lighter lighter darkest darkest red" = parsed "red" ∧
      parsed "lightest darkest dull rich red" = parsed "red" := by
  intro table parsed
  refine ⟨?_, ?_, ?_, ?_, ?_, ?_⟩
  · exact (parse_by_netLevels table (.inl rfl) (by decide)).1 ⟨by decide, by decide⟩ ⟨by decide, by decide⟩
      (by decide) (by decide)
  · exact (parse_by_netLevels table (.inl rfl) (by decide)).2.1 (by decide) ⟨by decide, by decide⟩
  · exact (parse_by_netLevels table (.inl rfl) (by decide)).2.2.1 (3, 0) (-1, 0) [] (by decide) (by decide)
  · exact (parse_by_netLevels table (.inl rfl) (by decide)).2.2.2.1
      (.inr ⟨3, -1, [], by decide, by decide⟩) (.inr ⟨1, -1, [], by decide, by decide⟩)
  · exact (parse_by_netLevels table (.inl rfl) (by decide)).2.2.2.2.1 (by decide)
      ⟨by decide, by decide⟩ (by decide) (by decide)
  · exact (parse_by_netLevels table (.inl rfl) (by decide)).2.2.2.2.2 [(3, 0), (0, -1)] (by decide) (by decide)

/-- A fifth is rounded, and three times a fifth once more. Taken in this order the levels leave
a rest of four units in the last place, which is enough to darken a color. -/
theorem parse_darkest_first :
    let table : Table .rgb := ⟨[("red", ⟨0xFE0000FF⟩)], []⟩
    let text := "darkest darkest lighter lighter lighter red"
    let other := "lighter lighter lighter darkest darkest red"
    (Grammar.extended.lightnessLevels text).sum = 0 ∧ (Grammar.extended.saturationLevels text).sum = 0 ∧
      (Grammar.extended.adjectiveLevels other).Perm (Grammar.extended.adjectiveLevels text) ∧
      Grammar.extended.remainder text = Grammar.extended.remainder "red" ∧
      Grammar.extended.remainder text = Grammar.extended.remainder other ∧
      parse table .extended text = ⟨0xFE0000FE⟩ ∧ parse table .extended other = ⟨0xFE0000FF⟩ ∧
      parse table .extended "red" = ⟨0xFE0000FF⟩ := by
  set_option maxRecDepth 2000 in decide

end Description
end ColorWords
