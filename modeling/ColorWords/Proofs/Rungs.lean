import ColorWords.Palette.Builtin
import ColorWords.Proofs.Agreement
import ColorWords.Proofs.Contraction
import ColorWords.Proofs.Lightness
import ColorWords.Proofs.NetLevels
import ColorWords.Proofs.Views

/-! # Lightness along levels

More levels of lightness never leave the adjusted color darker, as every sum of changes and
every move of a byte keeps the order. Limiting to the gamut comes last and may take lightness
back, but only where it keeps less of the distance from the gray.
-/
namespace ColorWords
open Layout Single

namespace Description

/-- The color that a description amounts to before it is limited to the gamut. -/
def unlimited (t : Table .oklab) (g : Grammar) (text : String) : Oklab :=
  let mixture := Color.weightedMix (entries t (g.meanings text.toList))
  if entries t (g.meanings text.toList) = [] ∨ mixture = .transparent then .transparent
  else (adjustment (g.meanings text.toList)).stretch mixture

theorem parse_eq_intoGamut (t : Table .oklab) (g : Grammar) (text : String) :
    parse t g text = (unlimited t g text).intoGamut := by
  have htransparent : (Color.transparent : Oklab).intoGamut = .transparent :=
    Color.intoGamut_of_inGamut (by set_option maxRecDepth 2000 in decide)
  rw [parse_eq, colorOf, unlimited]
  by_cases hempty : entries t (g.meanings text.toList) = []
  · simp only [hempty, if_true, true_or, htransparent]
  · by_cases hmix : Color.weightedMix (entries t (g.meanings text.toList)) = .transparent
    · simp only [hempty, hmix, if_true, if_false, or_true, htransparent]
    · simp only [hempty, hmix, if_false, or_self, Adjustment.intoGamut_stretch]

end Description

/-! ## The rungs of a text -/

namespace Grammar

def rung (text : String) (l : ℕ) : String := " ".intercalate (basic.spoken l 0 ++ [text])

def rungs (text : String) : List String :=
  [text, "light " ++ text, "lighter " ++ text, "lightest " ++ text, "lightmost " ++ text]

theorem rung_zero (text : String) : rung text 0 = text := by
  have hspoken : basic.spoken (0 : ℕ) 0 = [] := by decide
  rw [rung, hspoken, List.nil_append, String.intercalate_singleton]

theorem rung_of_spoken (text : String) {l : ℕ} (word : String) (h : basic.spoken l 0 = [word]) :
    rung text l = word ++ " " ++ text := by
  rw [rung, h, List.singleton_append, String.intercalate_cons_cons, String.intercalate_singleton]

theorem rungs_eq (text : String) : rungs text = [0, 1, 2, 3, 4].map (rung text) := by
  simp only [List.map_cons, List.map_nil, rung_zero, rung_of_spoken text (l := 1) "light" (by decide),
    rung_of_spoken text (l := 2) "lighter" (by decide),
    rung_of_spoken text (l := 3) "lightest" (by decide),
    rung_of_spoken text (l := 4) "lightmost" (by decide)]
  rfl

variable {l : ℕ} (text : String)

theorem words_rung (hl : l ≤ 4) :
    basic.words (rung text l).toList = (basic.spoken l 0).map String.toList ++ basic.words text.toList :=
  words_intercalate_append (fun _ => isWord_of_mem_spoken ⟨by omega, by omega⟩ (by norm_num)) text

theorem meanings_rung (hl : l ≤ 4) :
    basic.meanings (rung text l).toList =
      (basic.saidChanges l 0).map .adjective ++ basic.meanings text.toList := by
  rw [meanings_eq, words_rung text hl, List.map_append, List.map_map,
    ← classify_spoken basic (l := l) (r := 0) ⟨by omega, by omega⟩ (by norm_num), ← meanings_eq]
  rfl

theorem adjectiveLevels_rung (hl : l ≤ 4) :
    basic.adjectiveLevels (rung text l) = saidLevels false l 0 ++ basic.adjectiveLevels text := by
  have hspoken := (spoken_spec basic (l := l) (r := 0) ⟨by omega, by omega⟩ (by norm_num)).2
  have hsaid : ((basic.spoken l 0).map String.toList).filterMap basic.adjectiveLevels? = saidLevels false l 0 := by
    have h := congrArg (List.filterMap id) hspoken
    rw [List.filterMap_map, List.filterMap_map] at h
    rw [List.filterMap_map]
    exact h.trans List.filterMap_some
  rw [adjectiveLevels, words_rung text hl, List.filterMap_append, hsaid, adjectiveLevels]

theorem saidLevels_lightness (l : ℤ) : saidLevels false l 0 = if l = 0 then [] else [(l, 0)] := by
  by_cases hl : l = 0 <;> simp [saidLevels, hl]

/-- The lightness of a rung starts at its levels and goes on with those of the text. -/
theorem denotes_lightness_rung (hl : l ≤ 4) :
    Denotes (Description.adjustment (basic.meanings (rung text l).toList)).lightness
      (Levels.run basic.lightnessStep (Levels.size basic.lightnessStep l) (basic.lightnessLevels text)) := by
  have hladder : Levels.Ladder basic.lightnessStep 8 := Levels.ladder_eighth
  have hladder' : Levels.Ladder basic.saturationStep 5 := Levels.ladder_fifth
  have hdenotes := (denotes_adjustment hladder hladder' (rung text l)).1
  rw [lightnessLevels, adjectiveLevels_rung text hl, saidLevels_lightness] at hdenotes
  split at hdenotes
  case isTrue h0 =>
    rw [h0, Levels.size_zero]
    exact hdenotes
  case isFalse =>
    have hfirst : |(l : ℤ)| ≤ 4 := abs_le.mpr ⟨by omega, by omega⟩
    rw [List.singleton_append, List.map_cons, hladder.run_cons hfirst] at hdenotes
    exact hdenotes

end Grammar

namespace Description
open Model.Oklab

variable {i j l : ℕ} (text : String)

theorem entries_rung (t : Table .oklab) (hl : l ≤ 4) :
    entries t (Grammar.basic.meanings (Grammar.rung text l).toList) = entries t (Grammar.basic.meanings text.toList) := by
  rw [Grammar.meanings_rung text hl, entries_adjectives]

theorem byte_unlimited_rung (t : Table .oklab) (hij : i ≤ j) (hj : j ≤ 4) :
    (unlimited t .basic (Grammar.rung text i)).byte .first ≤
      (unlimited t .basic (Grammar.rung text j)).byte .first := by
  rw [unlimited, unlimited, entries_rung text t (hij.trans hj), entries_rung text t hj]
  split_ifs
  · exact UInt32.le_refl _
  · generalize Color.weightedMix (entries t (Grammar.basic.meanings text.toList)) = mixture
    have hstep : Levels.size Grammar.basic.lightnessStep i ≤ Levels.size Grammar.basic.lightnessStep j :=
      Levels.Ladder.size_mono Levels.ladder_eighth (by exact_mod_cast hij)
    have hlow := Color.byte_move mixture .first (Grammar.denotes_lightness_rung text (hij.trans hj))
    have hhigh := Color.byte_move mixture .first (Grammar.denotes_lightness_rung text hj)
    rw [Adjustment.byte_stretch, Adjustment.byte_stretch, UInt32.le_iff_toNat_le]
    calc ((Adjustment.move Color.lighten Color.darken _ mixture).byte .first).toNat
        = movedByte (mixture.byte .first).toNat _ := hlow
      _ ≤ movedByte (mixture.byte .first).toNat _ := movedByte_mono (byteAt_lt _ _) (Levels.run_mono _ _ hstep)
      _ = ((Adjustment.move Color.lighten Color.darken _ mixture).byte .first).toNat := hhigh.symm

theorem rungs_climb_unlimited (t : Table .oklab) (text : String) :
    (Grammar.rungs text).Pairwise fun d e => (unlimited t .basic d).byte .first ≤ (unlimited t .basic e).byte .first := by
  have hordered : [0, 1, 2, 3, 4].Pairwise fun i j => i ≤ j ∧ j ≤ 4 := by decide
  rw [Grammar.rungs_eq, List.pairwise_map]
  exact hordered.imp fun ⟨hij, hj⟩ => byte_unlimited_rung text t hij hj

/-! ## The ladder of red -/

def standardRed : Oklab := ⟨0xFE909CA0⟩

theorem lookup_red : (Table.builtin .oklab).lookup "red" = standardRed := by
  have hentry : (Table.builtin .oklab).entries.lookup "red" = some standardRed := by
    rw [Table.builtin, Table.standardOklab, Table.standard, Table.lookup_entries_build]
    decide
  rw [Table.lookup, Table.get?, hentry]
  rfl

theorem bytes_rungs_red {t : Table .oklab} (h : t.lookup "red" = standardRed) :
    (Grammar.rungs "red").map (fun d => (parse t .basic d).byte .first) = [160, 170, 177, 183, 188] := by
  let red : Table .oklab := ⟨[("red", standardRed)], []⟩
  have hname : Grammar.basic.meanings "red".toList = [.name "red"] := by decide
  have hentries : entries t (Grammar.basic.meanings "red".toList) = entries red (Grammar.basic.meanings "red".toList) := by
    rw [hname, entries, entries, ← Table.lookup, h]
    rfl
  have hlevels : ∀ l ∈ [0, 1, 2, 3, 4], l ≤ 4 := by decide
  have hparse : ∀ d ∈ Grammar.rungs "red", (parse t .basic d).byte .first = (parse red .basic d).byte .first := by
    intro d hd
    rw [Grammar.rungs_eq] at hd
    obtain ⟨l, hl, rfl⟩ := List.mem_map.mp hd
    have hl4 := hlevels l hl
    rw [parse_eq, parse_eq, colorOf, colorOf, entries_rung "red" t hl4, entries_rung "red" red hl4, hentries]
  rw [List.map_congr_left hparse]
  decide +kernel

/-- Along the five descriptions the adjusted color never gets darker. Limited to the gamut, a rung
is at least as light as an earlier one unless less is kept of its distance from the gray, for which it has
to keep fewer parts above the gray or more below. The ladder of the standard red climbs at every rung. -/
theorem rungs_climb :
    (∀ (t : Table .oklab) (text : String), (Grammar.rungs text).Pairwise fun d e =>
      let c := unlimited t .basic d
      let c' := unlimited t .basic e
      parse t .basic d = c.intoGamut ∧ parse t .basic e = c'.intoGamut ∧ c.byte .first ≤ c'.byte .first ∧
        ((parse t .basic d).byte .first ≤ (parse t .basic e).byte .first ∨
          c'.keptDistance < c.keptDistance ∧
            (161 ≤ c.byte .first ∧ c'.keptParts grayLightness < c.keptParts grayLightness ∨
              c'.byte .first ≤ 160 ∧ c.keptParts grayLightness < c'.keptParts grayLightness))) ∧
      (Grammar.rungs "red").Pairwise fun d e =>
        (parse (.builtin .oklab) .basic d).byte .first < (parse (.builtin .oklab) .basic e).byte .first := by
  refine ⟨?_, ?_⟩
  · intro t text
    refine (rungs_climb_unlimited t text).imp ?_
    intro d e hclimb
    refine ⟨parse_eq_intoGamut t .basic d, parse_eq_intoGamut t .basic e, hclimb, ?_⟩
    rw [parse_eq_intoGamut, parse_eq_intoGamut]
    rcases le_or_gt (unlimited t .basic d).keptDistance (unlimited t .basic e).keptDistance with hkept | hless
    · exact .inl (Oklab.byte_intoGamut_le hkept)
    · exact .inr ⟨hless, (Oklab.keptDistance_climbs hclimb).resolve_left (not_le.mpr hless)⟩
  · have hincreasing : ([160, 170, 177, 183, 188] : List UInt32).Pairwise (· < ·) := by decide
    rw [← bytes_rungs_red lookup_red, List.pairwise_map] at hincreasing
    exact hincreasing

/-- Yellow is lighter than the gray: one level more keeps fewer parts and takes back two bytes of
lightness. The night blue is darker, and its first level keeps more parts of the way down. -/
theorem rungs_fall :
    let t : Table .oklab := ⟨[("night", ⟨0xFE657C00⟩), ("yellow", ⟨0xFE9976F7⟩)], []⟩
    t.Built ∧ (∀ n ∈ ["night", "yellow"], (t.lookup n).Visible ∧ Grammar.basic.classify n.toList = .name n) ∧
      (parse t .basic "light yellow").byte .first = 246 ∧ (parse t .basic "lighter yellow").byte .first = 244 ∧
      (parse t .basic "night").byte .first = 70 ∧ (parse t .basic "light night").byte .first = 59 := by
  intro t
  refine ⟨Table.built_of_increasing (by decide), by decide, ?_⟩
  set_option maxRecDepth 2000 in decide

end Description
end ColorWords
