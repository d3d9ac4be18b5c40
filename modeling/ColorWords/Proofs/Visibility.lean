import ColorWords.Proofs.Alpha
import ColorWords.Proofs.Reading
import ColorWords.Proofs.Table

/-! # Whether a description shows

Alpha is mixed like any byte and not adjusted, so the alpha of a description lies between
those of the colors it names, as long as the weights after the first name are numbers. A
numeral can also be infinite. Then nothing is left of the mixture, and neither is alpha.
-/
namespace ColorWords
open Single

def Meaning.name? : Meaning → Option String
  | .name text => some text
  | _ => none

namespace Grammar
variable {g : Grammar} {value : Float32}

theorem amount_of_classify {token : List Char} (h : g.classify token = .weight value) : Amount value := by
  rw [classify] at h
  split at h
  case isTrue =>
    obtain rfl := Meaning.weight.inj h
    cases hnumeral : numeral? token with
    | none => exact denotes_one.amount zero_le_one
    | some x => exact amount_of_numeral hnumeral
  case isFalse =>
    split at h <;> cases h

theorem amount_of_mem_meanings {text : List Char} (h : .weight value ∈ g.meanings text) : Amount value := by
  obtain ⟨t, -, ht⟩ := List.mem_map.mp h
  exact amount_of_classify ht

end Grammar

namespace Description
open Color
variable {s : Space} (table : Table s) {meanings : List Meaning}

def named (meanings : List Meaning) : List (Color s) := (meanings.filterMap Meaning.name?).map table.lookup

theorem entries_colors (meanings : List Meaning) : (entries table meanings).map (·.1) = named table meanings := by
  induction meanings with
  | nil => rfl
  | cons m later ih =>
    cases m with
    | adjective change => exact ih
    | weight value => exact ih
    | name text => exact congrArg (table.lookup text :: ·) ih

theorem amount_lastWeight {value : Float32} {later : List Meaning} (hvalue : Amount value)
    (h : ∀ w, .weight w ∈ later → Amount w) : Amount (lastWeight value later) := by
  induction later generalizing value with
  | nil => exact hvalue
  | cons m later ih =>
    have hlater : ∀ w, .weight w ∈ later → Amount w := fun w hw => h w (List.mem_cons_of_mem m hw)
    cases m with
    | adjective change => exact ih hvalue hlater
    | weight next =>
      rw [lastWeight_weight]
      exact ih (h next List.mem_cons_self) hlater
    | name text => exact hvalue

theorem amount_of_mem_entries (h : ∀ w, .weight w ∈ meanings → Amount w) :
    ∀ e ∈ entries table meanings, Amount e.2 := by
  induction meanings with
  | nil =>
    intro e he
    cases he
  | cons m later ih =>
    have hlater : ∀ w, .weight w ∈ later → Amount w := fun w hw => h w (List.mem_cons_of_mem m hw)
    cases m with
    | adjective change => exact ih hlater
    | weight value => exact ih hlater
    | name text =>
      rw [entries]
      exact List.forall_mem_cons.mpr ⟨amount_lastWeight (denotes_one.amount zero_le_one) hlater, ih hlater⟩

theorem alphaByte_colorOf (h : entries table meanings ≠ []) :
    (colorOf table meanings).alphaByte = (weightedMix (entries table meanings)).alphaByte := by
  simp only [colorOf]
  rw [if_neg h]
  split
  case isTrue => rfl
  case isFalse => rw [alphaByte_intoGamut, alphaByte_apply]

def FiniteShares (meanings : List Meaning) : Prop :=
  ∀ e ∈ (entries table meanings).tail, e.2.isFinite = true

instance (meanings : List Meaning) : Decidable (FiniteShares table meanings) :=
  inferInstanceAs (Decidable (∀ e ∈ _, _))

variable {table}

theorem FiniteShares.finiteWeight (h : FiniteShares table meanings)
    (hamount : ∀ e ∈ entries table meanings, Amount e.2) :
    ∀ e ∈ (entries table meanings).tail, FiniteWeight e.2 := by
  intro e he
  exact finiteWeight_of_amount (hamount e (List.mem_of_mem_tail he)) (h e he)

/-- As long as shares are finite, the mixture stays within the colors that are named. -/
theorem weightedMix_within_named (hne : entries table meanings ≠ [])
    (hamount : ∀ e ∈ entries table meanings, Amount e.2) (h : FiniteShares table meanings) :
    Within (named table meanings) (weightedMix (entries table meanings)) := by
  have hweights := h.finiteWeight hamount
  rw [← entries_colors]
  generalize entries table meanings = es at hne hamount hweights
  cases es with
  | nil => exact absurd rfl hne
  | cons first rest => exact weightedMix_within (hamount first List.mem_cons_self) hweights

theorem weightedMix_of_infinite (hamount : ∀ e ∈ entries table meanings, Amount e.2)
    (h : ¬ FiniteShares table meanings) : weightedMix (entries table meanings) = ⟨0⟩ := by
  rw [FiniteShares] at h
  push Not at h
  generalize entries table meanings = es at hamount h
  obtain ⟨e, he, hnot⟩ := h
  cases es with
  | nil => cases he
  | cons first rest =>
    obtain ⟨hfirst, hrest⟩ := List.forall_mem_cons.mp hamount
    exact weightedMix_infinite hfirst hrest ⟨e, he, (hrest e he).eq_infinity hnot⟩

theorem entries_ne_nil (h : named table meanings ≠ []) : entries table meanings ≠ [] := by
  rw [← entries_colors] at h
  exact fun hnil => h (by rw [hnil, List.map_nil])

theorem named_of_unknown (h : ∀ name, .name name ∈ meanings → table.get? name = none) :
    ∀ c ∈ named table meanings, c = .transparent := by
  intro c hc
  obtain ⟨name, hname, rfl⟩ := List.mem_map.mp hc
  obtain ⟨m, hm, hmeaning⟩ := List.mem_filterMap.mp hname
  have hmem : .name name ∈ meanings := by
    cases m with
    | name other =>
      obtain rfl := Option.some.inj hmeaning
      exact hm
    | adjective change => cases hmeaning
    | weight value => cases hmeaning
  rw [Table.lookup, h name hmem]
  rfl

/-- Copies of transparent mix to transparent, which is not adjusted. -/
theorem colorOf_unknown (hne : named table meanings ≠ []) (hwithin : Within (named table meanings)
    (weightedMix (entries table meanings))) (h : ∀ name, .name name ∈ meanings → table.get? name = none) :
    colorOf table meanings = .transparent := by
  have hcopies := named_of_unknown h
  have hmixture : weightedMix (entries table meanings) = .transparent := by
    refine hwithin.eq_of_forall (weightedMix_stored ?_) stored_transparent hcopies
    intro e he
    rw [hcopies e.1 (entries_colors table meanings ▸ List.mem_map_of_mem he)]
    exact stored_transparent
  simp only [colorOf]
  rw [if_neg (entries_ne_nil hne), if_pos hmixture, hmixture]

/-- Finite weights do not decide visibility: alpha lies between those of the named colors, and names
that are all unknown describe transparent. An infinite weight after the first name leaves no alpha. -/
theorem parse_visibility (table : Table s) (g : Grammar) (text : String)
    (hne : named table (g.meanings text.toList) ≠ []) :
    (FiniteShares table (g.meanings text.toList) →
      (∃ c ∈ named table (g.meanings text.toList), c.alphaByte ≤ (parse table g text).alphaByte) ∧
        (∃ c ∈ named table (g.meanings text.toList), (parse table g text).alphaByte ≤ c.alphaByte) ∧
        ((∀ c ∈ named table (g.meanings text.toList), c.Visible) → (parse table g text).Visible) ∧
        ((∀ name, .name name ∈ g.meanings text.toList → table.get? name = none) →
          parse table g text = .transparent)) ∧
      (¬ FiniteShares table (g.meanings text.toList) → (parse table g text).alphaByte = 0) := by
  have hamount : ∀ e ∈ entries table (g.meanings text.toList), Amount e.2 :=
    amount_of_mem_entries table fun w hw => Grammar.amount_of_mem_meanings hw
  have halpha := alphaByte_colorOf table (entries_ne_nil hne)
  rw [parse_eq]
  generalize g.meanings text.toList = meanings at hne hamount halpha
  constructor
  · intro hfinite
    have hwithin := weightedMix_within_named (entries_ne_nil hne) hamount hfinite
    obtain ⟨⟨lo, hlo, hlow⟩, ⟨hi, hhi, hhigh⟩⟩ := hwithin Layout.alphaShift (by decide)
    rw [← alphaByte_eq_storedByte, ← alphaByte_eq_storedByte, ← halpha] at hlow hhigh
    refine ⟨⟨lo, hlo, UInt32.le_iff_toNat_le.mpr hlow⟩, ⟨hi, hhi, UInt32.le_iff_toNat_le.mpr hhigh⟩, ?_, ?_⟩
    · intro hvisible
      have hmixture := hwithin.visible hvisible
      rwa [Visible, isTransparent, ← halpha] at hmixture
    · exact colorOf_unknown hne hwithin
  · intro hinfinite
    rw [halpha, weightedMix_of_infinite hamount hinfinite]
    change Layout.alphaByte 0 = 0
    decide

theorem parse_visibility_mint_sage :
    let table : Table .rgb := ⟨[("mint", ⟨0xFE98FB98⟩), ("sage", ⟨0x408DB89C⟩)], []⟩
    let meanings := Grammar.extended.meanings "darker mint 2 sage 1e38".toList
    named table meanings ≠ [] ∧ FiniteShares table meanings ∧ (∀ c ∈ named table meanings, c.Visible) ∧
      (parse table .extended "darker mint 2 sage 1e38").Visible := by
  intro table meanings
  have hne : named table meanings ≠ [] := by decide
  have hfinite : FiniteShares table meanings := by set_option maxRecDepth 2000 in decide
  have hvisible : ∀ c ∈ named table meanings, c.Visible := by decide
  exact ⟨hne, hfinite, hvisible, ((parse_visibility table .extended _ hne).1 hfinite).2.2.1 hvisible⟩

/-- Two visible colors are named and the description does not show; two unknown names are all there
is and the description is not transparent. -/
theorem invisible_of_infinite_weight :
    let table : Table .rgb := ⟨[("mint", ⟨0xFE98FB98⟩), ("sage", ⟨0x408DB89C⟩)], []⟩
    let empty : Table .oklab := ⟨[], []⟩
    let text := "light dull dullmost mint sage 1e39"
    table.Built ∧ empty.Built ∧
      named table (Grammar.extended.meanings text.toList) = [⟨0xFE98FB98⟩, ⟨0x408DB89C⟩] ∧
      ¬ (parse table .extended text).Visible ∧
      named empty (Grammar.extended.meanings text.toList) = [.transparent, .transparent] ∧
      parse empty .extended text ≠ .transparent := by
  intro table empty text
  have htable : table.Built := Table.built_of_increasing (by decide)
  have hempty : empty.Built := Table.built_of_increasing (by decide)
  have hnamed : named table (Grammar.extended.meanings text.toList) = [⟨0xFE98FB98⟩, ⟨0x408DB89C⟩] := by
    decide
  have hgone : ¬ (parse table .extended text).Visible := by set_option maxRecDepth 2000 in decide
  have hunknown : named empty (Grammar.extended.meanings text.toList) = [.transparent, .transparent] := by
    decide
  have hleft : parse empty .extended text ≠ .transparent := by set_option maxRecDepth 2000 in decide
  exact ⟨htable, hempty, hnamed, hgone, hunknown, hleft⟩

end Description
end ColorWords
