import ColorWords.Proofs.Building

/-! # What aliases resolve to

A builder copies the color of a target when it reads the alias. In a strict table this is
the color that the target has in the end. In a lenient one it is as long as the target is not
declared again: then the alias keeps the color that the target had before.
-/
namespace ColorWords.Builder
variable {s : Space} {b : Builder s} {t : Table s} {entries aliases kept : Entries (Color s)}
  {declared before after : Entries String} {name target : String} {color : Color s}

/-! ## Declarations that are kept -/

/-- The declarations of aliases that lenient building does not drop. -/
def keptFrom (entries : Entries (Color s)) : Entries (Color s) → Entries String → Entries String
  | _, [] => []
  | aliases, (name, target) :: rest =>
    match resolve entries aliases name target with
    | .ok color => (name, target) :: keptFrom entries (aliases.put name color) rest
    | .error _ => keptFrom entries aliases rest

def keptAliases (b : Builder s) : Entries String := keptFrom b.lastEntries [] b.aliases

theorem get?_build (b : Builder s) (name : String) :
    b.build.get? name = Table.get? ⟨b.lastEntries, keepAliases b.lastEntries [] b.aliases⟩ name :=
  (get?_perm b.nodup_lastEntries (Entries.sortBy_perm b.lastEntries fun _ => []).symm _ name).symm

/-- Only a declaration that is kept changes what a name resolves to. -/
theorem lookup_keepAliases (h : name ∉ Entries.keys (keptFrom entries aliases declared)) :
    (keepAliases entries aliases declared).lookup name = aliases.lookup name := by
  induction declared generalizing aliases with
  | nil => rfl
  | cons d rest ih =>
    obtain ⟨other, target⟩ := d
    rw [keptFrom] at h
    rw [keepAliases]
    cases hresolve : resolve entries aliases other target with
    | error report =>
      rw [hresolve] at h
      exact ih h
    | ok color =>
      rw [hresolve] at h
      obtain ⟨hname, hrest⟩ := not_or.mp (mt List.mem_cons.mpr h)
      dsimp only
      rw [ih hrest, Entries.lookup_put, if_neg hname]

/-- A kept declaration takes the color of its target from the kept ones before it, and the
ones after it go on from there. -/
theorem keepAliases_split (h : keptFrom entries aliases declared = before ++ (name, target) :: after) :
    ∃ color, resolve entries (keepAliases entries aliases before) name target = .ok color ∧
      ∃ later, keptFrom entries ((keepAliases entries aliases before).put name color) later = after ∧
        keepAliases entries aliases declared =
          keepAliases entries ((keepAliases entries aliases before).put name color) later := by
  induction declared generalizing aliases before with
  | nil => exact absurd h.symm (by simp [keptFrom])
  | cons d rest ih =>
    obtain ⟨other, source⟩ := d
    rw [keptFrom] at h
    cases hresolve : resolve entries aliases other source with
    | error report =>
      rw [hresolve] at h
      rw [keepAliases, hresolve]
      exact ih h
    | ok color =>
      rw [hresolve] at h
      rw [keepAliases, hresolve]
      cases before with
      | nil =>
        obtain ⟨hd, hafter⟩ := List.cons.inj h
        obtain ⟨rfl, rfl⟩ := Prod.mk.inj hd
        exact ⟨color, hresolve, rest, hafter, rfl⟩
      | cons e before =>
        obtain ⟨rfl, hrest⟩ := List.cons.inj h
        rw [keepAliases, hresolve]
        exact ih hrest

/-! ## Strict building -/

theorem get?_of_tryAliases (h : tryAliases entries aliases declared = .ok kept)
    (hname : Table.get? ⟨entries, aliases⟩ name = some color) : Table.get? ⟨entries, kept⟩ name = some color := by
  induction declared generalizing aliases with
  | nil =>
    obtain rfl := Except.ok.inj h
    exact hname
  | cons d rest ih =>
    obtain ⟨other, source⟩ := d
    simp only [tryAliases] at h
    split at h
    case h_1 => cases h
    case h_2 =>
      split at h
      case isTrue => cases h
      case isFalse =>
        refine ih h ?_
        rw [Table.get?, List.lookup_append, ← Option.or_assoc]
        exact Option.or_eq_some_iff.mpr (.inl hname)

theorem tryAliases_coherent (h : tryAliases entries aliases declared = .ok kept) :
    ∀ d ∈ declared, ∃ color,
      Table.get? ⟨entries, kept⟩ d.1 = some color ∧ Table.get? ⟨entries, kept⟩ d.2 = some color := by
  induction declared generalizing aliases with
  | nil => simp
  | cons d rest ih =>
    obtain ⟨name, target⟩ := d
    simp only [tryAliases] at h
    split at h
    case h_1 => cases h
    case h_2 color htarget =>
      split at h
      case isTrue => cases h
      case isFalse hnew =>
        refine List.forall_mem_cons.mpr ⟨⟨color, ?_, ?_⟩, ih h⟩
        · rw [Table.contains_iff, not_or] at hnew
          refine get?_of_tryAliases h ?_
          rw [Table.get?, Entries.lookup_eq_none_iff.mpr hnew.1, List.lookup_append,
            Entries.lookup_eq_none_iff.mpr hnew.2, Entries.lookup_cons_of_eq]
          rfl
        · refine get?_of_tryAliases h ?_
          rw [Table.get?, List.lookup_append, ← Option.or_assoc]
          exact Option.or_eq_some_iff.mpr (.inl htarget)

theorem keys_of_tryAliases (h : tryAliases entries aliases declared = .ok kept) :
    Entries.keys kept = Entries.keys aliases ++ Entries.keys declared := by
  induction declared generalizing aliases with
  | nil =>
    obtain rfl := Except.ok.inj h
    exact (List.append_nil _).symm
  | cons d rest ih =>
    simp only [tryAliases] at h
    split at h
    case h_1 => cases h
    case h_2 =>
      split at h
      case isTrue => cases h
      case isFalse => simpa [Entries.keys] using ih h

theorem tryBuild_coherent (h : b.tryBuild = .ok t) :
    ∀ d ∈ b.aliases, ∃ color, t.get? d.1 = some color ∧ t.get? d.2 = some color := by
  intro d hd
  obtain ⟨hnone, kept, hkept, rfl⟩ := tryBuild_eq_ok.mp h
  obtain ⟨color, hname, htarget⟩ := tryAliases_coherent hkept d hd
  have hnodup := (firstDuplicate_eq_none_iff Entries.nodup_nil).mp hnone
  have hsorted := (Entries.sortBy_perm b.entries fun _ => []).symm
  refine ⟨color, ?_, ?_⟩
  · rw [← hname]
    exact (get?_perm hnodup hsorted kept d.1).symm
  · rw [← htarget]
    exact (get?_perm hnodup hsorted kept d.2).symm

/-! ## Finished tables -/

theorem not_mem_keys_keptFrom (h : name ∈ Entries.keys entries) (aliases : Entries (Color s))
    (declared : Entries String) : name ∉ Entries.keys (keptFrom entries aliases declared) := by
  induction declared generalizing aliases with
  | nil => exact List.not_mem_nil
  | cons d rest ih =>
    obtain ⟨other, target⟩ := d
    rw [keptFrom]
    cases hresolve : resolve entries aliases other target with
    | error report => exact ih aliases
    | ok color =>
      refine mt List.mem_cons.mp (not_or.mpr ⟨?_, ih _⟩)
      rintro rfl
      exact (resolve_eq_ok.mp hresolve).2 h

theorem get?_keepAliases (hname : name ∉ Entries.keys (keptFrom entries aliases declared)) :
    Table.get? ⟨entries, keepAliases entries aliases declared⟩ name = Table.get? ⟨entries, aliases⟩ name := by
  rw [Table.get?, Table.get?, lookup_keepAliases hname]

theorem get?_put_of_resolve (h : resolve entries aliases name target = .ok color) :
    Table.get? ⟨entries, aliases.put name color⟩ name = some color ∧
      Table.get? ⟨entries, aliases.put name color⟩ target = some color := by
  obtain ⟨htarget, hnew⟩ := resolve_eq_ok.mp h
  have hname : entries.lookup name = none := Entries.lookup_eq_none_iff.mpr hnew
  constructor
  · rw [Table.get?, hname, Entries.lookup_put, if_pos rfl]
    rfl
  · by_cases hself : target = name
    · rw [hself, Table.get?, hname, Entries.lookup_put, if_pos rfl]
      rfl
    · rw [Table.get?, Entries.lookup_put, if_neg hself]
      exact htarget

theorem mem_keys_lastEntries : name ∈ Entries.keys b.lastEntries ↔ name ∈ Entries.keys b.entries := by
  rw [lastEntries, Entries.mem_keys_putAll]
  exact or_iff_right List.not_mem_nil

/-- The last kept declaration of an alias gives it the color that its target has among the
declarations before. The target still has that color in the finished table if it is a name or
is not declared again; a table built strictly always keeps the two together. -/
theorem alias_colors (b : Builder s) :
    (∀ before after name target, b.keptAliases = before ++ (name, target) :: after → name ∉ Entries.keys after →
      ∃ color, (build ⟨b.entries, before⟩).get? target = some color ∧ b.build.get? name = some color ∧
        (target ∈ Entries.keys b.entries ∨ target ∉ Entries.keys after → b.build.get? target = some color)) ∧
    ∀ t, b.tryBuild = .ok t → ∀ d ∈ b.aliases, ∃ color, t.get? d.1 = some color ∧ t.get? d.2 = some color := by
  constructor
  · intro before after name target hkept hlast
    obtain ⟨color, hresolve, later, hlater, hbuild⟩ := keepAliases_split hkept
    obtain ⟨hname, htarget⟩ := get?_put_of_resolve hresolve
    refine ⟨color, ?_, ?_, ?_⟩
    · rw [get?_build]
      exact (resolve_eq_ok.mp hresolve).1
    · rw [get?_build, hbuild, get?_keepAliases (hlater ▸ hlast), hname]
    · intro hor
      have hstays : target ∉ Entries.keys (keptFrom b.lastEntries
          ((keepAliases b.lastEntries [] before).put name color) later) := by
        rcases hor with hentry | hafter
        · exact not_mem_keys_keptFrom (mem_keys_lastEntries.mpr hentry) _ _
        · exact hlater ▸ hafter
      rw [get?_build, hbuild, get?_keepAliases hstays, htarget]
  · exact fun t => tryBuild_coherent

theorem alias_colors_rosy :
    let b : Builder .rgb :=
      ⟨[("red", ⟨0xFE0000FF⟩)], [("rose", "red"), ("rosy", "rose"), ("red", "rose"), ("pink", "rosy")]⟩
    let strict : Builder .rgb := ⟨[("red", ⟨0xFE0000FF⟩)], [("rose", "red"), ("rosy", "rose")]⟩
    b.keptAliases = [("rose", "red")] ++ ("rosy", "rose") :: [("pink", "rosy")] ∧
      "rosy" ∉ Entries.keys [("pink", "rosy")] ∧ "rose" ∉ Entries.keys [("pink", "rosy")] ∧
      b.build.get? "rosy" = b.build.get? "rose" ∧
      ∃ t, strict.tryBuild = .ok t ∧ ("rosy", "rose") ∈ strict.aliases ∧ t.get? "rosy" = t.get? "rose" := by
  intro b strict
  have hkept : b.keptAliases = [("rose", "red")] ++ ("rosy", "rose") :: [("pink", "rosy")] := by decide
  have hname : "rosy" ∉ Entries.keys [("pink", "rosy")] := by decide
  have htarget : "rose" ∉ Entries.keys [("pink", "rosy")] := by decide
  obtain ⟨color, -, hrosy, hrose⟩ := (alias_colors b).1 _ _ _ _ hkept hname
  have hmem : ("rosy", "rose") ∈ strict.aliases := by decide
  obtain ⟨strictColor, hstrict, hstrict'⟩ := (alias_colors strict).2 _ rfl _ hmem
  exact ⟨hkept, hname, htarget, hrosy.trans (hrose (.inr htarget)).symm,
    _, rfl, hmem, hstrict.trans hstrict'.symm⟩

/-- An alias of an alias keeps its color when its target is declared again. -/
theorem alias_outlives_target :
    let b : Builder .rgb := ⟨[("red", ⟨0xFE0000FF⟩), ("blue", ⟨0xFEFF0000⟩)],
      [("rose", "red"), ("rosy", "rose"), ("rose", "blue")]⟩
    b.keptAliases = b.aliases ∧ b.build.get? "rosy" = some ⟨0xFE0000FF⟩ ∧
      b.build.get? "rose" = some ⟨0xFEFF0000⟩ := by
  intro b
  rw [get?_build, get?_build]
  decide

end ColorWords.Builder
