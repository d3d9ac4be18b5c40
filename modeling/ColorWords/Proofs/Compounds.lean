import ColorWords.Proofs.Wording

/-! # What compound adjectives add

Compound adjectives stand among the plain ones, and a token is looked up with the first
adjective that it belongs to. No compound takes a token from a plain adjective behind it,
since the two start with different letters; so compounds only claim what would be a name.
An adjective is found by at most four bytes, and its level by the length.
-/
namespace ColorWords

namespace Adjective
variable {token token' : List UInt8}

def claimant? (token : List UInt8) : Option Adjective := all.find? (·.claims token)

theorem initial_of_claims {a : Adjective} (h : a.claims token = true) : token[0]?.map lowerByte = some a.initial := by
  simp only [claims, Bool.and_eq_true, beq_iff_eq] at h
  exact h.1

/-- A plain adjective starts with another letter than the compounds before it. -/
theorem initial_ne_of_compound :
    all.Pairwise fun x a => x.compound = true → a.compound = false → x.initial ≠ a.initial := by
  decide

theorem not_claims_of_compound {before after : List Adjective} {a x : Adjective} (hall : all = before ++ a :: after)
    (hx : x ∈ before) (hcompound : x.compound = true) (hplain : a.compound = false) (ha : a.claims token = true) :
    x.claims token = false := by
  have hne : x.initial ≠ a.initial := by
    have hpairs := initial_ne_of_compound
    rw [hall] at hpairs
    exact (List.pairwise_append.mp hpairs).2.2 x hx a List.mem_cons_self hcompound hplain
  rw [Bool.eq_false_iff]
  intro hclaims
  exact hne (Option.some.inj ((initial_of_claims hclaims).symm.trans (initial_of_claims ha)))

/-- Without the compounds a token keeps its adjective, if that is a plain one. -/
theorem find?_plain_eq_some_iff {a : Adjective} :
    (all.filter (!·.compound)).find? (·.claims token) = some a ↔ claimant? token = some a ∧ a.compound = false := by
  rw [claimant?, List.find?_filter, List.find?_eq_some_iff_append, List.find?_eq_some_iff_append]
  constructor
  · rintro ⟨ha, before, after, hall, hbefore⟩
    obtain ⟨hplain, hclaims⟩ : a.compound = false ∧ a.claims token = true := by simpa using ha
    refine ⟨⟨hclaims, before, after, hall, fun x hx => ?_⟩, hplain⟩
    cases hcompound : x.compound with
    | true => simp [not_claims_of_compound hall hx hcompound hplain hclaims]
    | false => simpa [hcompound] using hbefore x hx
  · rintro ⟨⟨hclaims, before, after, hall, hbefore⟩, hplain⟩
    refine ⟨by simp [hplain, hclaims], before, after, hall, fun x hx => ?_⟩
    have hx : x.claims token = false := by simpa using hbefore x hx
    simp [hx]

/-- Bounds of all adjectives, and the compounds with their changes of one level. -/
theorem all_spec :
    ∀ a ∈ all, (∀ e ∈ a.levels, 1 ≤ e.2 ∧ e.2 ≤ 4) ∧ a.markAt < 4 ∧
      (a.compound = true → a ∈ [bright, pale, weak, deep] ∧ a.lightness.natAbs = 1 ∧ a.saturation.natAbs = 1) := by
  decide

theorem level?_bounds {a : Adjective} {length level : ℕ} (ha : a ∈ all) (h : a.level? length = some level) :
    1 ≤ level ∧ level ≤ 4 := by
  obtain ⟨before, after, hlevels, -⟩ := List.lookup_eq_some_iff.mp h
  exact (all_spec a ha).1 (length, level) (by simp [hlevels])

/-- A claim reads the first four bytes, without case. -/
theorem claims_congr {a : Adjective} (ha : a ∈ all) (h : (token.take 4).map lowerByte = (token'.take 4).map lowerByte) :
    a.claims token = a.claims token' := by
  have hbyte : ∀ i < 4, token[i]?.map lowerByte = token'[i]?.map lowerByte := by
    intro i hi
    have := congrArg (·[i]?) h
    simpa [List.getElem?_take_of_lt hi] using this
  rw [claims, claims, hbyte 0 (by omega), hbyte a.markAt (all_spec a ha).2.1]

end Adjective

namespace Grammar
open Text
variable {g : Grammar} {token : List UInt8}

def withCompounds (g : Grammar) : Grammar := { g with features := { g.features with compounds := true } }

theorem change?_eq_some_iff {change : Adjustment} :
    g.change? token = some change ↔ ∃ a level, g.adjectives.find? (·.claims token) = some a ∧
      a.level? token.length = some level ∧ g.steps (a.lightness * level) (a.saturation * level) = change := by
  simp [change?, Option.bind_eq_some_iff]

theorem adjectives_withCompounds : g.withCompounds.adjectives = Adjective.all := by
  simp [adjectives, withCompounds]

theorem change?_withCompounds_eq_some_iff {change : Adjustment} :
    g.withCompounds.change? token = some change ↔ ∃ a level, Adjective.claimant? token = some a ∧
      a.level? token.length = some level ∧ g.steps (a.lightness * level) (a.saturation * level) = change := by
  rw [change?_eq_some_iff, adjectives_withCompounds]
  rfl

theorem change?_plain_eq_some_iff (hg : g.features.compounds = false) {change : Adjustment} :
    g.change? token = some change ↔ ∃ a level, (Adjective.claimant? token = some a ∧ a.compound = false) ∧
      a.level? token.length = some level ∧ g.steps (a.lightness * level) (a.saturation * level) = change := by
  have hplain : g.adjectives = Adjective.all.filter (!·.compound) := by simp [adjectives, hg]
  simp only [change?_eq_some_iff, hplain, Adjective.find?_plain_eq_some_iff]

/-- Compounds keep the changes there are and add those of compound adjectives. -/
theorem change?_withCompounds (hg : g.features.compounds = false) (token : List UInt8) :
    g.withCompounds.change? token = g.change? token ∨
      g.change? token = none ∧ ∃ a ∈ Adjective.all, a.compound = true ∧ ∃ level, a.level? token.length = some level ∧
        g.withCompounds.change? token = some (g.steps (a.lightness * level) (a.saturation * level)) := by
  cases hchange : g.change? token with
  | some change =>
    obtain ⟨a, level, ⟨ha, -⟩, hlevel⟩ := (change?_plain_eq_some_iff hg).mp hchange
    exact .inl (change?_withCompounds_eq_some_iff.mpr ⟨a, level, ha, hlevel⟩)
  | none =>
    cases hmore : g.withCompounds.change? token with
    | none => exact .inl rfl
    | some change =>
      obtain ⟨a, level, ha, hlevel, rfl⟩ := change?_withCompounds_eq_some_iff.mp hmore
      refine .inr ⟨rfl, a, List.mem_of_find?_eq_some ha, ?_, level, hlevel, rfl⟩
      by_contra hplain
      have hsome := (change?_plain_eq_some_iff hg).mpr ⟨a, level, ⟨ha, by simpa using hplain⟩, hlevel, rfl⟩
      rw [hchange] at hsome
      cases hsome

/-- A token that compounds read in another way was a name. -/
theorem classify_withCompounds (hg : g.features.compounds = false) (token : List Char) :
    g.withCompounds.classify token = g.classify token ∨
      g.classify token = .name (.ofList token) ∧ ∃ a ∈ [Adjective.bright, .pale, .weak, .deep],
        ∃ level : ℕ, 1 ≤ level ∧ level ≤ 4 ∧ a.lightness.natAbs = 1 ∧ a.saturation.natAbs = 1 ∧
          g.withCompounds.classify token = .adjective (g.steps (a.lightness * level) (a.saturation * level)) := by
  have hweights : g.withCompounds.features.weights = g.features.weights := rfl
  cases hdigit : g.features.weights && token.head?.any Char.isDigit with
  | true => exact .inl (by simp [classify, hweights, hdigit])
  | false =>
    rcases change?_withCompounds hg (bytes token) with hsame | ⟨hnone, a, ha, hcompound, level, hlevel, hsome⟩
    · exact .inl (by simp [classify, hweights, hdigit, hsame])
    · obtain ⟨hmem, hlightness, hsaturation⟩ := (Adjective.all_spec a ha).2.2 hcompound
      obtain ⟨hlow, hhigh⟩ := Adjective.level?_bounds ha hlevel
      refine .inr ⟨by simp [classify, hdigit, hnone], a, hmem, level, hlow, hhigh, hlightness, hsaturation, ?_⟩
      simp [classify, hweights, hdigit, hsome]

/-! ## Case and filler -/

def isDigitByte (b : UInt8) : Bool := 0x30 ≤ b && b ≤ 0x39

theorem isDigitByte_iff {b : UInt8} : isDigitByte b = true ↔ 48 ≤ b.toNat ∧ b.toNat ≤ 57 := by
  simp [isDigitByte, UInt8.le_iff_toNat_le]

theorem isDigitByte_lowerByte (b : UInt8) : isDigitByte (Adjective.lowerByte b) = isDigitByte b := by
  unfold Adjective.lowerByte
  split
  case isTrue hupper =>
    have hbounds : 65 ≤ b.toNat ∧ b.toNat ≤ 90 := by simpa [UInt8.le_iff_toNat_le] using hupper
    have hlower : (b + 0x20).toNat = b.toNat + 32 := by
      rw [UInt8.toNat_add]
      exact Nat.mod_eq_of_lt (show b.toNat + 32 < 256 by omega)
    rw [Bool.eq_iff_iff, isDigitByte_iff, isDigitByte_iff]
    omega
  case isFalse => rfl

/-- The first byte of a character is a digit if the character is one: longer characters start with
a byte above all ASCII ones. -/
theorem any_isDigitByte_utf8EncodeChar (c : Char) : (String.utf8EncodeChar c)[0]?.any isDigitByte = c.isDigit := by
  have hdigit : c.isDigit = true ↔ 48 ≤ c.toNat ∧ c.toNat ≤ 57 := by
    simp [Char.isDigit, UInt32.le_iff_toNat_le]
  simp only [String.utf8EncodeChar, Char.toNat_val]
  rw [Bool.eq_iff_iff, hdigit]
  split_ifs <;> simp [isDigitByte_iff] <;> omega

/-- A text starts with a digit if its first byte is one. -/
theorem any_isDigit_head? (text : List Char) : text.head?.any Char.isDigit = (bytes text)[0]?.any isDigitByte := by
  cases text with
  | nil => rfl
  | cons c rest =>
    have hpos : 0 < (String.utf8EncodeChar c).length := by
      rw [String.length_utf8EncodeChar]
      exact c.utf8Size_pos
    rw [bytes, List.flatMap_cons, List.getElem?_append_left hpos, any_isDigitByte_utf8EncodeChar]
    rfl

variable {t u : List Char}

/-- Case does not matter to the first bytes of texts: they start with a digit both or neither. -/
theorem any_isDigit_congr (h : ((bytes t).take 4).map Adjective.lowerByte = ((bytes u).take 4).map Adjective.lowerByte) :
    t.head?.any Char.isDigit = u.head?.any Char.isDigit := by
  have hfirst (text : List Char) : text.head?.any Char.isDigit =
      (((bytes text).take 4).map Adjective.lowerByte)[0]?.any isDigitByte := by
    rw [any_isDigit_head?, List.getElem?_map, List.getElem?_take_of_lt (by omega)]
    cases (bytes text)[0]? <;> simp [isDigitByte_lowerByte]
  rw [hfirst, hfirst, h]

theorem change?_congr (g : Grammar) (hsize : byteSize t = byteSize u)
    (h : ((bytes t).take 4).map Adjective.lowerByte = ((bytes u).take 4).map Adjective.lowerByte) :
    g.change? (bytes t) = g.change? (bytes u) := by
  have hclaimant : g.adjectives.find? (·.claims (bytes t)) = g.adjectives.find? (·.claims (bytes u)) :=
    List.find?_congr fun a ha => Adjective.claims_congr (List.mem_filter.mp ha).1 h
  simp only [change?, hclaimant, length_bytes, hsize]

theorem classify_eq_adjective_iff {change : Adjustment} :
    g.classify t = .adjective change ↔
      (g.features.weights && t.head?.any Char.isDigit) = false ∧ g.change? (bytes t) = some change := by
  unfold classify
  split
  case isTrue hdigit => simp [hdigit]
  case isFalse hdigit => cases g.change? (bytes t) <;> simp [hdigit]

/-- Compounds take nothing from a grammar: adjectives and weights stay as they are, and a token that is
read in another way was a name and is one of four adjectives at some level. In every grammar an
adjective is known by four bytes, in either case, and by its length. -/
theorem classify_conservative :
    (∀ (g : Grammar) (token : List Char), g.features.compounds = false →
      (∀ change, g.classify token = .adjective change → g.withCompounds.classify token = .adjective change) ∧
      (∀ value, g.classify token = .weight value → g.withCompounds.classify token = .weight value) ∧
      (g.withCompounds.classify token ≠ g.classify token → g.classify token = .name (.ofList token) ∧
        ∃ a ∈ [Adjective.bright, .pale, .weak, .deep], ∃ level : ℕ, 1 ≤ level ∧ level ≤ 4 ∧
          a.lightness.natAbs = 1 ∧ a.saturation.natAbs = 1 ∧
          g.withCompounds.classify token = .adjective (g.steps (a.lightness * level) (a.saturation * level)))) ∧
    ∀ (g : Grammar) (t u : List Char), byteSize t = byteSize u →
      ((bytes t).take 4).map Adjective.lowerByte = ((bytes u).take 4).map Adjective.lowerByte →
      ∀ change, g.classify t = .adjective change → g.classify u = .adjective change := by
  constructor
  · intro g token hg
    rcases classify_withCompounds hg token with hsame | ⟨hname, hcompound⟩
    · rw [hsame]
      exact ⟨fun _ h => h, fun _ h => h, fun h => absurd rfl h⟩
    · refine ⟨fun change h => ?_, fun value h => ?_, fun _ => ⟨hname, hcompound⟩⟩
      · rw [hname] at h
        cases h
      · rw [hname] at h
        cases h
  · intro g t u hsize h change ht
    rw [classify_eq_adjective_iff] at ht ⊢
    rwa [← any_isDigit_congr h, ← change?_congr g hsize h]

theorem classify_conservative_deeper :
    basic.classify "Deeper".toList = .name "Deeper" ∧
      (∃ a ∈ [Adjective.bright, .pale, .weak, .deep], ∃ level : ℕ, 1 ≤ level ∧ level ≤ 4 ∧
        a.lightness.natAbs = 1 ∧ a.saturation.natAbs = 1 ∧
        basic.withCompounds.classify "Deeper".toList =
          .adjective (basic.steps (a.lightness * level) (a.saturation * level))) ∧
      extended.classify "DULLest".toList = .adjective (extended.steps 0 (-3)) ∧
      extended.classify "dullé_".toList = .adjective (extended.steps 0 (-3)) := by
  obtain ⟨hcompounds, hcase⟩ := classify_conservative
  have hdiffers : basic.withCompounds.classify "Deeper".toList ≠ basic.classify "Deeper".toList := by decide
  have hdull : extended.classify "DULLest".toList = .adjective (extended.steps 0 (-3)) := by decide
  obtain ⟨hname, hcompound⟩ := (hcompounds basic "Deeper".toList rfl).2.2 hdiffers
  exact ⟨hname, hcompound, hdull, hcase extended _ "dullé_".toList (by decide) (by decide) _ hdull⟩

end Grammar
end ColorWords
