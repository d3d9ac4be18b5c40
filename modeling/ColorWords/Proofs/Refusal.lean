import ColorWords.Proofs.Building

/-! # What strict building refuses

Names must be new, and an alias must refer to a name or to an alias before it. Strict building
looks at the names first and then at the aliases in order, and at the target of an alias before its
name. It stops at the first declaration that does not fit; where all fit there is a table.
-/
namespace ColorWords.Builder
variable {s : Space} {b : Builder s} {entries aliases : Entries (Color s)} {declared before after : Entries String}
  {known : List String} {name target : String} {e : PaletteError}

/-- Aliases of which each refers to a known name or to one before it, and is itself neither. -/
def AliasesFit (known : List String) (declared : Entries String) : Prop :=
  ∀ before name target after, declared = before ++ (name, target) :: after →
    target ∈ known ++ Entries.keys before ∧ name ∉ known ++ Entries.keys before

inductive Misfit (known : List String) (name target : String) : PaletteError → Prop
  | unknown (htarget : target ∉ known) : Misfit known name target (.unknownTarget name target)
  | taken (htarget : target ∈ known) (hname : name ∈ known) : Misfit known name target (.duplicateName name)

structure Accepted (b : Builder s) : Prop where
  distinct : (Entries.keys b.entries).Nodup
  aliases : AliasesFit (Entries.keys b.entries) b.aliases

inductive Refused (b : Builder s) : PaletteError → Prop
  | entry {before after : Entries (Color s)} {name : String} {color : Color s}
      (hsplit : b.entries = before ++ (name, color) :: after) (hdistinct : (Entries.keys before).Nodup)
      (hold : name ∈ Entries.keys before) : Refused b (.duplicateName name)
  | aliasOf {before after : Entries String} {name target : String} {e : PaletteError}
      (hdistinct : (Entries.keys b.entries).Nodup)
      (hsplit : b.aliases = before ++ (name, target) :: after) (hfit : AliasesFit (Entries.keys b.entries) before)
      (hmisfit : Misfit (Entries.keys b.entries ++ Entries.keys before) name target e) : Refused b e

/-! ## Aliases -/

theorem aliasesFit_nil : AliasesFit known [] := by
  intro before name target after hsplit
  simp at hsplit

theorem aliasesFit_cons : AliasesFit known ((name, target) :: declared) ↔
    (target ∈ known ∧ name ∉ known) ∧ AliasesFit (known ++ [name]) declared := by
  constructor
  · intro h
    constructor
    · simpa [Entries.keys] using h [] name target declared rfl
    · rintro before other source after rfl
      simpa [Entries.keys] using h ((name, target) :: before) other source after rfl
  · rintro ⟨hfirst, hrest⟩ before other source after hsplit
    cases before with
    | nil =>
      obtain ⟨⟨rfl, rfl⟩, -⟩ : (name = other ∧ target = source) ∧ declared = after := by simpa using hsplit
      simpa [Entries.keys] using hfirst
    | cons d before =>
      obtain ⟨rfl, rfl⟩ := List.cons.inj hsplit
      simpa [Entries.keys] using hrest before other source after rfl

theorem misfit_or (known : List String) (name target : String) :
    (target ∈ known ∧ name ∉ known) ∨ ∃ e, Misfit known name target e := by
  by_cases htarget : target ∈ known
  · by_cases hname : name ∈ known
    · exact .inr ⟨_, .taken htarget hname⟩
    · exact .inl ⟨htarget, hname⟩
  · exact .inr ⟨_, .unknown htarget⟩

/-- Aliases that do not all fit have a first one that does not. -/
theorem aliasesFit_or (known : List String) (declared : Entries String) :
    AliasesFit known declared ∨ ∃ before name target after e, declared = before ++ (name, target) :: after ∧
      AliasesFit known before ∧ Misfit (known ++ Entries.keys before) name target e := by
  induction declared generalizing known with
  | nil => exact .inl aliasesFit_nil
  | cons d rest ih =>
    obtain ⟨name, target⟩ := d
    rcases misfit_or known name target with hfit | ⟨e, hmisfit⟩
    · rcases ih (known ++ [name]) with hrest | ⟨before, other, source, after, e, rfl, hbefore, hmisfit⟩
      · exact .inl (aliasesFit_cons.mpr ⟨hfit, hrest⟩)
      · refine .inr ⟨(name, target) :: before, other, source, after, e, rfl, aliasesFit_cons.mpr ⟨hfit, hbefore⟩, ?_⟩
        simpa [Entries.keys] using hmisfit
    · exact .inr ⟨[], name, target, rest, e, rfl, aliasesFit_nil, by simpa [Entries.keys] using hmisfit⟩

theorem contains_iff_mem :
    Table.contains ⟨entries, aliases⟩ name = true ↔ name ∈ Entries.keys entries ++ Entries.keys aliases := by
  rw [Table.contains_iff, List.mem_append]

theorem get?_eq_none_iff :
    Table.get? ⟨entries, aliases⟩ name = none ↔ name ∉ Entries.keys entries ++ Entries.keys aliases := by
  rw [← contains_iff_mem, Table.contains, Option.not_isSome_iff_eq_none]

theorem tryAliases_of_misfit (h : Misfit (Entries.keys entries ++ Entries.keys aliases) name target e) :
    tryAliases entries aliases ((name, target) :: declared) = .error e := by
  cases h with
  | unknown htarget => simp [tryAliases, get?_eq_none_iff.mpr htarget]
  | taken htarget hname =>
    obtain ⟨color, hcolor⟩ := Option.isSome_iff_exists.mp (contains_iff_mem.mpr htarget)
    simp [tryAliases, hcolor, contains_iff_mem.mpr hname]

/-- Aliases that fit are passed over, and their names are known from then on. -/
theorem tryAliases_append (h : AliasesFit (Entries.keys entries ++ Entries.keys aliases) before)
    (after : Entries String) :
    ∃ later, Entries.keys later = Entries.keys aliases ++ Entries.keys before ∧
      tryAliases entries aliases (before ++ after) = tryAliases entries later after := by
  induction before generalizing aliases with
  | nil => exact ⟨aliases, by simp [Entries.keys], rfl⟩
  | cons d rest ih =>
    obtain ⟨name, target⟩ := d
    obtain ⟨⟨htarget, hname⟩, hrest⟩ := aliasesFit_cons.mp h
    obtain ⟨color, hcolor⟩ := Option.isSome_iff_exists.mp (contains_iff_mem.mpr htarget)
    have hnew := mt contains_iff_mem.mp hname
    have hnext : AliasesFit (Entries.keys entries ++ Entries.keys (aliases ++ [(name, color)])) rest := by
      simpa [Entries.keys] using hrest
    obtain ⟨later, hkeys, hlater⟩ := ih hnext
    refine ⟨later, by simpa [Entries.keys] using hkeys, ?_⟩
    simp only [List.cons_append, tryAliases, hcolor, if_neg hnew]
    exact hlater

/-! ## Names -/

/-- The duplicate that is found is the first name with a namesake before it. -/
theorem firstDuplicate?_eq_some {before : Entries (Color s)} (hbefore : (Entries.keys before).Nodup) :
    firstDuplicate? before entries = some name ↔ ∃ earlier color later, entries = earlier ++ (name, color) :: later ∧
      (Entries.keys (before.reverse ++ earlier)).Nodup ∧ name ∈ Entries.keys (before.reverse ++ earlier) := by
  induction entries generalizing before with
  | nil => simp [firstDuplicate?]
  | cons d rest ih =>
    obtain ⟨other, color⟩ := d
    have hreverse : (Entries.keys before.reverse).Nodup := by
      simpa [Entries.keys, List.map_reverse] using hbefore
    have hmem : other ∈ Entries.keys before.reverse ↔ other ∈ Entries.keys before := by simp [Entries.keys]
    rw [firstDuplicate?]
    split
    case isTrue hold =>
      rw [Entries.has_iff] at hold
      constructor
      · rintro ⟨rfl⟩
        exact ⟨[], color, rest, rfl, by simpa using hreverse, by simpa using hmem.mpr hold⟩
      · rintro ⟨earlier, found, later, hsplit, hdistinct, -⟩
        cases earlier with
        | nil => simp_all
        | cons e earlier =>
          obtain ⟨rfl, rfl⟩ := List.cons.inj hsplit
          refine absurd hdistinct ?_
          simp only [Entries.keys, List.map_append, List.map_cons, List.nodup_append]
          exact fun h => h.2.2 other (hmem.mpr hold) other List.mem_cons_self rfl
    case isFalse hnew =>
      rw [Entries.has_iff] at hnew
      have hnext : (Entries.keys ((other, color) :: before)).Nodup := List.nodup_cons.mpr ⟨hnew, hbefore⟩
      rw [ih hnext]
      constructor
      · rintro ⟨earlier, found, later, rfl, hdistinct, hold⟩
        exact ⟨(other, color) :: earlier, found, later, rfl, by simpa using hdistinct, by simpa using hold⟩
      · rintro ⟨earlier, found, later, hsplit, hdistinct, hold⟩
        cases earlier with
        | nil => simp_all
        | cons e earlier =>
          obtain ⟨rfl, rfl⟩ := List.cons.inj hsplit
          exact ⟨earlier, found, later, rfl, by simpa using hdistinct, by simpa using hold⟩

/-! ## Strict building -/

theorem Accepted.exists_tryBuild (h : b.Accepted) : ∃ t, b.tryBuild = .ok t := by
  have hnone := (firstDuplicate_eq_none_iff Entries.nodup_nil).mpr h.distinct
  have hfit : AliasesFit (Entries.keys b.entries ++ Entries.keys ([] : Entries (Color s))) b.aliases := by
    simpa [Entries.keys] using h.aliases
  obtain ⟨kept, -, hkept⟩ := tryAliases_append hfit []
  rw [List.append_nil] at hkept
  exact ⟨_, tryBuild_eq_ok.mpr ⟨hnone, kept, hkept, rfl⟩⟩

theorem Refused.tryBuild (h : b.Refused e) : b.tryBuild = .error e := by
  cases h with
  | entry hsplit hdistinct hold =>
    have hsome := (firstDuplicate?_eq_some Entries.nodup_nil).mpr ⟨_, _, _, hsplit, hdistinct, hold⟩
    rw [Builder.tryBuild, hsome]
  | @aliasOf before after name target e hdistinct hsplit hfit hmisfit =>
    have hnone := (firstDuplicate_eq_none_iff Entries.nodup_nil).mpr hdistinct
    have hstart : AliasesFit (Entries.keys b.entries ++ Entries.keys ([] : Entries (Color s))) before := by
      simpa [Entries.keys] using hfit
    obtain ⟨later, hkeys, hlater⟩ := tryAliases_append hstart ((name, target) :: after)
    have hmisfit' : Misfit (Entries.keys b.entries ++ Entries.keys later) name target e := by
      rwa [hkeys]
    rw [Builder.tryBuild, hnone, hsplit, hlater, tryAliases_of_misfit hmisfit']

theorem accepted_or_refused (b : Builder s) : b.Accepted ∨ ∃ e, b.Refused e := by
  cases hfirst : firstDuplicate? [] b.entries with
  | some name =>
    obtain ⟨earlier, color, later, hsplit, hdistinct, hold⟩ := (firstDuplicate?_eq_some Entries.nodup_nil).mp hfirst
    exact .inr ⟨_, .entry hsplit hdistinct hold⟩
  | none =>
    have hdistinct := (firstDuplicate_eq_none_iff Entries.nodup_nil).mp hfirst
    rcases aliasesFit_or (Entries.keys b.entries) b.aliases with hfit | ⟨_, _, _, _, e, hsplit, hfit, hmisfit⟩
    · exact .inl ⟨hdistinct, hfit⟩
    · exact .inr ⟨e, .aliasOf hdistinct hsplit hfit hmisfit⟩

theorem exists_tryBuild_iff : (∃ t, b.tryBuild = .ok t) ↔ b.Accepted := by
  refine ⟨fun ⟨t, ht⟩ => ?_, Accepted.exists_tryBuild⟩
  refine b.accepted_or_refused.resolve_right fun ⟨e, he⟩ => ?_
  rw [he.tryBuild] at ht
  cases ht

theorem tryBuild_eq_error : b.tryBuild = .error e ↔ b.Refused e := by
  refine ⟨fun h => ?_, Refused.tryBuild⟩
  rcases b.accepted_or_refused with haccepted | ⟨e', he'⟩
  · obtain ⟨t, ht⟩ := haccepted.exists_tryBuild
    rw [ht] at h
    cases h
  · obtain rfl := Except.error.inj (he'.tryBuild.symm.trans h)
    exact he'

end ColorWords.Builder
