import ColorWords.Proofs.Gamut
import ColorWords.Proofs.Reading
import ColorWords.Proofs.Search

/-! # What is evaluated can be displayed

Descriptions and candidates are brought into the gamut last, whatever was mixed and however
it was adjusted. The only exit before is `transparent`, for a description that mixes nothing
and for a search that tries nothing; not every space can display that color.
-/
namespace ColorWords

namespace Color
variable {s : Space} (c : Color s)

def Presentable : Prop := c = .transparent ∨ c.inGamut = true

theorem inGamut_intoGamut : c.intoGamut.inGamut = true := by
  cases s with
  | rgb => rfl
  | ipt => exact (limited_ipt c).inGamut
  | oklab => exact (limited_oklab c).inGamut

/-- The exit through `transparent` is one of its own. -/
example : (transparent : Ipt).inGamut = false := by set_option maxRecDepth 2000 in decide

end Color

namespace Description
variable {s : Space} (table : Table s) {meanings : List Meaning}

def Mixes (meanings : List Meaning) : Prop :=
  entries table meanings ≠ [] ∧ Color.weightedMix (entries table meanings) ≠ .transparent

instance (meanings : List Meaning) : Decidable (Mixes table meanings) := inferInstanceAs (Decidable (_ ∧ _))

theorem inGamut_colorOf (h : Mixes table meanings) : (colorOf table meanings).inGamut = true := by
  simp only [colorOf]
  rw [if_neg h.1, if_neg h.2]
  exact Color.inGamut_intoGamut _

theorem colorOf_of_not_mixes (h : ¬ Mixes table meanings) : colorOf table meanings = .transparent := by
  simp only [colorOf]
  split
  case isTrue => rfl
  case isFalse hnames =>
    split
    case isTrue hmix => exact hmix
    case isFalse hmix => exact absurd ⟨hnames, hmix⟩ h

theorem presentable_colorOf (meanings : List Meaning) : (colorOf table meanings).Presentable := by
  by_cases h : Mixes table meanings
  · exact .inr (inGamut_colorOf table h)
  · exact .inl (colorOf_of_not_mixes table h)

theorem parseRange_eq (g : Grammar) (text : String) (start : ℕ) (length : Option ℕ) :
    parseRange table g text start length = colorOf table (g.meanings (Text.slice text.toList start length)) :=
  color_foldl_read table _

end Description

namespace Search
variable {s : Space} (q : Search s) (target : Color s)

theorem inGamut_colorOf (c : Candidate) : (q.colorOf c).inGamut = true := Color.inGamut_intoGamut _

/-- One candidate is enough: its distance is finite, so it beats having none. -/
theorem inGamut_best {limit : ℕ} (h : 0 < limit) :
    (q.best q.palette target.toOklab limit).color.inGamut = true := by
  obtain ⟨n, rfl⟩ := Nat.exists_eq_add_one.mpr h
  obtain ⟨i, -, hbest, -⟩ := q.best_succ_eq_won target n
  rw [hbest]
  exact q.inGamut_colorOf _

theorem presentable_best (limit : ℕ) : (q.best q.palette target.toOklab limit).color.Presentable := by
  rcases Nat.eq_zero_or_pos limit with rfl | h
  · exact .inl rfl
  · exact .inr (q.inGamut_best target h)

/-- Every description, every range of one and every search ends with `transparent` or with a
color that can be displayed, under a grammar of any steps; and it ends in the gamut whenever
there is a mixture to adjust or a candidate to try. -/
theorem evaluations_presentable (table : Table s) (g : Grammar) :
    (∀ text, (Description.parse table g text).Presentable ∧
      (Description.Mixes table (g.meanings text.toList) → (Description.parse table g text).inGamut = true)) ∧
    (∀ text start length, (Description.parseRange table g text start length).Presentable ∧
      (Description.Mixes table (g.meanings (Text.slice text.toList start length)) →
        (Description.parseRange table g text start length).inGamut = true)) ∧
    ∀ mixCount cap target,
      let q : Search s := ⟨table, g, mixCount, cap⟩
      (q.run target).color.Presentable ∧
        (0 < (q.limits q.palette.length).1 → (q.run target).color.inGamut = true) := by
  refine ⟨?_, ?_, ?_⟩
  · intro text
    rw [Description.parse_eq]
    exact ⟨Description.presentable_colorOf table _, Description.inGamut_colorOf table⟩
  · intro text start length
    rw [Description.parseRange_eq]
    exact ⟨Description.presentable_colorOf table _, Description.inGamut_colorOf table⟩
  · intro mixCount cap target q
    rw [run_eq_report]
    exact ⟨q.presentable_best target _, q.inGamut_best target⟩

theorem evaluations_presentable_odd_steps :
    let table : Table .ipt := ⟨[("mint", ⟨0xFEA0A0F0⟩)], []⟩
    let g : Grammar := ⟨⟨true, true, true⟩, .ofBits 0x7FC00000, .ofBits 0xFF800000⟩
    let text := "lightest mint 1e39 deep fog 2"
    let q : Search .ipt := ⟨table, g, 2, some 1⟩
    Description.Mixes table (g.meanings text.toList) ∧
      (Description.parse table g text).inGamut = true ∧
      Description.Mixes table (g.meanings (Text.slice text.toList 9 (some 4))) ∧
      (Description.parseRange table g text 9 (some 4)).inGamut = true ∧
      0 < (q.limits q.palette.length).1 ∧ ∀ target, (q.run target).color.inGamut = true := by
  intro table g text q
  have hmixes : Description.Mixes table (g.meanings text.toList) := by
    set_option maxRecDepth 2000 in decide
  have hrange : Description.Mixes table (g.meanings (Text.slice text.toList 9 (some 4))) := by decide
  have htried : 0 < (q.limits q.palette.length).1 := by decide +kernel
  obtain ⟨hparse, hparseRange, hrun⟩ := evaluations_presentable table g
  exact ⟨hmixes, (hparse text).2 hmixes, hrange, (hparseRange text 9 (some 4)).2 hrange, htried,
    fun target => (hrun 2 (some 1) target).2 htried⟩

end Search
end ColorWords
