import ColorWords.Proofs.Aliases
import ColorWords.Proofs.Faults

/-! # What becomes of a line

Lenient loading drops what it cannot use, and reports it. A line that says something is an
entry, an alias or one warning with the number of the line. When the table is built, an alias
sets its name or is reported itself.
-/
namespace ColorWords

def Event.paletteLine? : Event → Option ℕ
  | .lineSkipped line _ => some line
  | .colorSkipped line _ => some line
  | _ => none

/-! ## Aliases -/

namespace Builder
variable {s : Space} {entries aliases : Entries (Color s)} {name target : String} {report : Event}

def dropped (b : Builder s) : List Event := dropReports b.lastEntries [] b.aliases

/-- An alias that is declared next sets its name to the color that its target has now. -/
def Sets (b : Builder s) (name target : String) : Prop :=
  name ∉ Entries.keys b.entries ∧ ∃ color, b.build.get? target = some color ∧
    ∀ other, (b.addAlias name target).build.get? other = if other = name then some color else b.build.get? other

inductive Drops (b : Builder s) (name target : String) : Event → Prop
  | dangling (htarget : b.build.get? target = none) : Drops b name target (.aliasDangles name target)
  | shadowing (htarget : b.build.get? target ≠ none) (hname : name ∈ Entries.keys b.entries) :
      Drops b name target (.aliasShadows name)

theorem keepAliases_append (entries aliases : Entries (Color s)) (before after : Entries String) :
    keepAliases entries aliases (before ++ after) = keepAliases entries (keepAliases entries aliases before) after := by
  induction before generalizing aliases with
  | nil => rfl
  | cons d rest ih =>
    obtain ⟨name, target⟩ := d
    rw [List.cons_append, keepAliases, keepAliases]
    split
    · exact ih _
    · exact ih _

theorem dropReports_append (entries aliases : Entries (Color s)) (before after : Entries String) :
    dropReports entries aliases (before ++ after) =
      dropReports entries aliases before ++ dropReports entries (keepAliases entries aliases before) after := by
  induction before generalizing aliases with
  | nil => rfl
  | cons d rest ih =>
    obtain ⟨name, target⟩ := d
    rw [List.cons_append, dropReports, dropReports, keepAliases]
    split
    · exact ih _
    · rw [ih, List.cons_append]

theorem resolve_eq_error : resolve entries aliases name target = .error report ↔
    Table.get? ⟨entries, aliases⟩ target = none ∧ report = .aliasDangles name target ∨
      Table.get? ⟨entries, aliases⟩ target ≠ none ∧ name ∈ Entries.keys entries ∧ report = .aliasShadows name := by
  rw [resolve, ← Entries.has_iff]
  cases Table.get? ⟨entries, aliases⟩ target with
  | none => simp [@eq_comm _ report]
  | some color => cases Entries.has entries name <;> simp [@eq_comm _ report]

theorem severity_dropReports (aliases : Entries (Color s)) (declared : Entries String) :
    ∀ e ∈ dropReports entries aliases declared, e.severity = .debug := by
  induction declared generalizing aliases with
  | nil => exact List.forall_mem_nil _
  | cons d rest ih =>
    obtain ⟨name, target⟩ := d
    rw [dropReports]
    cases hresolve : resolve entries aliases name target with
    | ok color => exact ih _
    | error report =>
      refine List.forall_mem_cons.mpr ⟨?_, ih _⟩
      obtain ⟨-, rfl⟩ | ⟨-, -, rfl⟩ := resolve_eq_error.mp hresolve <;> rfl

theorem length_keptFrom_add_length_dropReports (aliases : Entries (Color s)) (declared : Entries String) :
    (keptFrom entries aliases declared).length + (dropReports entries aliases declared).length = declared.length := by
  induction declared generalizing aliases with
  | nil => rfl
  | cons d rest ih =>
    obtain ⟨name, target⟩ := d
    rw [keptFrom, dropReports, List.length_cons]
    cases resolve entries aliases name target with
    | ok color => rw [← ih (aliases.put name color), List.length_cons, Nat.add_right_comm]
    | error report => rw [← ih aliases, List.length_cons, Nat.add_assoc]

theorem length_kept_add_length_dropped (b : Builder s) :
    b.keptAliases.length + b.dropped.length = b.aliases.length :=
  length_keptFrom_add_length_dropReports _ _

/-- One more alias sets its name and is not reported, or is reported once and changes nothing. -/
theorem sets_or_drops (b : Builder s) (name target : String) :
    Xor (b.Sets name target ∧ (b.addAlias name target).dropped = b.dropped)
      (∃ report, b.Drops name target report ∧ (b.addAlias name target).build = b.build ∧
        (b.addAlias name target).dropped = b.dropped ++ [report]) := by
  have hentries : (b.addAlias name target).lastEntries = b.lastEntries := rfl
  have hkeep := keepAliases_append b.lastEntries [] b.aliases [(name, target)]
  have hdrop := dropReports_append b.lastEntries [] b.aliases [(name, target)]
  have hnow (other : String) : Table.get? ⟨b.lastEntries, keepAliases b.lastEntries [] b.aliases⟩ other =
      b.build.get? other := (get?_build b other).symm
  rw [keepAliases] at hkeep
  rw [dropReports] at hdrop
  cases hresolve : resolve b.lastEntries (keepAliases b.lastEntries [] b.aliases) name target with
  | ok color =>
    simp only [hresolve, keepAliases, dropReports, List.append_nil] at hkeep hdrop
    obtain ⟨htarget, hname⟩ := resolve_eq_ok.mp hresolve
    refine .inl ⟨⟨⟨mt mem_keys_lastEntries.mpr hname, color, hnow target ▸ htarget, fun other => ?_⟩, hdrop⟩, ?_⟩
    · rw [get?_build, hentries, addAlias, hkeep, ← hnow, Table.get?, Table.get?, Entries.lookup_put]
      by_cases hother : other = name
      · rw [if_pos hother, if_pos hother, hother, Entries.lookup_eq_none_iff.mpr hname]
        rfl
      · rw [if_neg hother, if_neg hother]
    · rintro ⟨report, -, -, hreported⟩
      exact List.cons_ne_nil report [] (List.self_eq_append_right.mp (hdrop.symm.trans hreported))
  | error report =>
    simp only [hresolve, keepAliases, dropReports] at hkeep hdrop
    refine .inr ⟨⟨report, ?_, ?_, hdrop⟩, ?_⟩
    · obtain ⟨htarget, rfl⟩ | ⟨htarget, hname, rfl⟩ := resolve_eq_error.mp hresolve
      · exact .dangling (hnow target ▸ htarget)
      · exact .shadowing (hnow target ▸ htarget) (mem_keys_lastEntries.mp hname)
    · rw [build, build, hentries, addAlias, hkeep]
    · rintro ⟨-, hsilent⟩
      exact List.cons_ne_nil report [] (List.self_eq_append_right.mp (hsilent.symm.trans hdrop))

theorem severity_buildJournal (b : Builder s) : ∀ e ∈ b.buildJournal, e.severity = .debug := by
  rw [buildJournal]
  exact List.forall_mem_append.mpr ⟨severity_dropReports _ _, by simp [Table.built, Event.severity]⟩

end Builder

/-! ## Lines -/

namespace Palette
open Text
variable {s : Space}

inductive Fate (s : Space) where
  | entry (name : String) (color : Color s)
  | aliasOf (name target : String)
  | reported (event : Event)

namespace Fate

@[simp]
def entry? : Fate s → Option (String × Color s)
  | .entry name color => some (name, color)
  | _ => none

@[simp]
def alias? : Fate s → Option (String × String)
  | .aliasOf name target => some (name, target)
  | _ => none

@[simp]
def report? : Fate s → Option Event
  | .reported event => some event
  | _ => none

end Fate

/-- The fate that the content of line `number` meets. -/
inductive Meets (number : ℕ) (body : List Char) : Fate s → Prop
  | entry {name literal : String} {color : Rgb} (hread : Line.read? body = some (.entry name literal))
      (hhex : Rgb.ofHex literal = .ok color) : Meets number body (.entry name (.ofRgba color.toRgba))
  | aliasOf {name target : String} (hread : Line.read? body = some (.aliasOf name target)) :
      Meets number body (.aliasOf name target)
  | line (hread : Line.read? body = none) : Meets number body (.reported (.lineSkipped number (.ofList body)))
  | color {name literal : String} {e : HexError} (hread : Line.read? body = some (.entry name literal))
      (hhex : Rgb.ofHex literal = .error e) : Meets number body (.reported (.colorSkipped number e))

variable {number : ℕ} {body : List Char} {fate : Fate s} {fates : List (Fate s)} {numbered : List (ℕ × List Char)}

theorem existsUnique_meets (s : Space) (number : ℕ) (body : List Char) : ∃! fate : Fate s, Meets number body fate := by
  have hunique {fate other : Fate s} (h : Meets number body fate) (hother : Meets number body other) :
      other = fate := by
    cases h <;> cases hother <;> simp_all
  have hmeets : ∃ fate : Fate s, Meets number body fate := by
    cases hread : Line.read? body with
    | none => exact ⟨_, .line hread⟩
    | some line =>
      cases line with
      | aliasOf name target => exact ⟨_, .aliasOf hread⟩
      | entry name literal =>
        cases hhex : Rgb.ofHex literal with
        | ok color => exact ⟨_, .entry hread hhex⟩
        | error e => exact ⟨_, .color hread hhex⟩
  obtain ⟨fate, hfate⟩ := hmeets
  exact ⟨fate, hfate, fun other => hunique hfate⟩

/-- One line adds what its fate is to the builder and to the reports. -/
theorem Meets.step (h : Meets number body fate) (b : Builder s) (rest : List (ℕ × List Char)) :
    readSound b ((number, body) :: rest) =
        readSound ⟨b.entries ++ fate.entry?.toList, b.aliases ++ fate.alias?.toList⟩ rest ∧
      faultReports s ((number, body) :: rest) = fate.report?.toList ++ faultReports s rest := by
  cases h with
  | entry hread hhex => simp [readSound, faultReports, declaration, hread, hhex, declare, Builder.insert]
  | aliasOf hread => simp [readSound, faultReports, declaration, hread, declare, Builder.addAlias]
  | line hread => simp [readSound, faultReports, declaration, hread, Fault.report]
  | color hread hhex => simp [readSound, faultReports, declaration, hread, hhex, Fault.report]

/-- A line is reported under its own number, as a warning. -/
theorem Meets.report (h : Meets number body fate) :
    ∀ e ∈ fate.report?, e.severity = .warn ∧ e.paletteLine? = some number := by
  cases h <;> simp [Event.severity, Event.paletteLine?]

theorem exists_fates (b : Builder s) (numbered : List (ℕ × List Char)) :
    ∃ fates : List (Fate s), List.Forall₂ (fun l fate => Meets l.1 l.2 fate) numbered fates ∧
      readSound b numbered = ⟨b.entries ++ fates.filterMap Fate.entry?, b.aliases ++ fates.filterMap Fate.alias?⟩ ∧
      faultReports s numbered = fates.filterMap Fate.report? := by
  induction numbered generalizing b with
  | nil => exact ⟨[], .nil, by simp [readSound], rfl⟩
  | cons l rest ih =>
    obtain ⟨number, body⟩ := l
    obtain ⟨fate, hfate, -⟩ := existsUnique_meets s number body
    obtain ⟨hread, hreport⟩ := hfate.step b rest
    obtain ⟨fates, hfates, hrest, hreports⟩ := ih ⟨b.entries ++ fate.entry?.toList, b.aliases ++ fate.alias?.toList⟩
    refine ⟨fate :: fates, .cons hfate hfates, ?_, ?_⟩
    · rw [hread, hrest]
      cases fate <;> simp [List.filterMap_cons]
    · rw [hreport, hreports]
      cases fate <;> simp [List.filterMap_cons]

theorem warnings_of_fates (h : List.Forall₂ (fun l fate => Meets l.1 l.2 fate) numbered fates) :
    (∀ e ∈ fates.filterMap Fate.report?, e.severity = .warn) ∧
      ∃ numbers : List ℕ, (fates.filterMap Fate.report?).map Event.paletteLine? = numbers.map some ∧
        numbers.Sublist (numbered.map (·.1)) := by
  induction h with
  | nil => exact ⟨by simp, [], rfl, .refl _⟩
  | @cons l fate rest fates hfate _ ih =>
    obtain ⟨hseverity, numbers, hnumbers, hsublist⟩ := ih
    cases hreport : fate.report? with
    | none =>
      rw [List.filterMap_cons_none hreport]
      exact ⟨hseverity, numbers, hnumbers, hsublist.cons _⟩
    | some e =>
      obtain ⟨hwarn, hline⟩ := hfate.report e hreport
      rw [List.filterMap_cons_some hreport]
      refine ⟨List.forall_mem_cons.mpr ⟨hwarn, hseverity⟩, l.1 :: numbers, ?_, hsublist.cons_cons _⟩
      rw [List.map_cons, hline, hnumbers, List.map_cons]

/-! ## Numbers of lines -/

theorem pairwise_numbered (first : ℕ) (ls : List (List Char)) :
    ((Palette.numbered first ls).map (·.1)).Pairwise (· < ·) := by
  have hall : (ls.zipIdx first).Pairwise fun l l' => l.2 < l'.2 := by
    rw [← List.pairwise_map (f := Prod.snd) (R := (· < ·)), List.zipIdx_map_snd]
    exact List.pairwise_lt_range'
  rw [List.pairwise_map, Palette.numbered, List.pairwise_filterMap]
  refine hall.imp fun {l l'} hlt => ?_
  rintro ⟨number, body⟩ hl ⟨number', body'⟩ hl'
  obtain ⟨-, hnumber, -⟩ : _ ∧ l.2 = number ∧ _ := by simpa using hl
  obtain ⟨-, hnumber', -⟩ : _ ∧ l'.2 = number' ∧ _ := by simpa using hl'
  exact hnumber ▸ hnumber' ▸ hlt

theorem mem_numbered {ls : List (List Char)} : (number, body) ∈ Palette.numbered 1 ls ↔
    body ≠ [] ∧ ∃ i line, ls[i]? = some line ∧ number = i + 1 ∧ content line = body := by
  rw [Palette.numbered, List.mem_filterMap]
  constructor
  · rintro ⟨⟨line, n⟩, hmem, hline⟩
    obtain ⟨hne, rfl, rfl⟩ : content line ≠ [] ∧ n = number ∧ content line = body := by simpa using hline
    obtain ⟨hle, hget⟩ := List.mk_mem_zipIdx_iff_le_and_getElem?_sub.mp hmem
    exact ⟨hne, n - 1, line, hget, by omega, rfl⟩
  · rintro ⟨hne, i, line, hget, rfl, rfl⟩
    refine ⟨(line, i + 1), List.mk_mem_zipIdx_iff_le_and_getElem?_sub.mpr ⟨by omega, ?_⟩, ?_⟩
    · rwa [Nat.add_sub_cancel]
    · simp [hne]

theorem filter_warnings (s : Space) (text : String) :
    (loadLenientJournal s text).filter (·.severity = .warn) = faultReports s (contents text.toList) := by
  obtain ⟨fates, hfates, -, hreports⟩ := exists_fates (Builder.empty : Builder s) (contents text.toList)
  have hwarn := (warnings_of_fates hfates).1
  have hdebug := Builder.severity_buildJournal (readSound .empty (contents text.toList) : Builder s)
  rw [loadLenientJournal, List.filter_append, List.filter_eq_self.mpr, List.filter_eq_nil_iff.mpr, List.append_nil]
  · intro e he
    rw [hdebug e he]
    decide
  · rw [hreports]
    exact fun e he => decide_eq_true (hwarn e he)

/-- Lenient loading accounts for every line that says something: it has one fate, which is an
entry, an alias or a warning with the number of the line, in the order of the lines, and no
other warning is reported. An alias then sets its name to the color that its target has when
its turn comes, or is reported once and changes nothing. -/
theorem lenient_accounts (s : Space) (text : String) :
    let b : Builder s := readSound .empty (contents text.toList)
    let warnings := (loadLenientJournal s text).filter (·.severity = .warn)
    (∀ number body, (number, body) ∈ contents text.toList ↔
      body ≠ [] ∧ ∃ i line, (lines text.toList)[i]? = some line ∧ number = i + 1 ∧ content line = body) ∧
    ((contents text.toList).map (·.1)).Pairwise (· < ·) ∧
    (∀ number body, ∃! fate : Fate s, Meets number body fate) ∧
    (∃ fates : List (Fate s), List.Forall₂ (fun l fate => Meets l.1 l.2 fate) (contents text.toList) fates ∧
      b = ⟨fates.filterMap Fate.entry?, fates.filterMap Fate.alias?⟩ ∧ warnings = fates.filterMap Fate.report?) ∧
    (∃ numbers : List ℕ, warnings.map Event.paletteLine? = numbers.map some ∧ numbers.Pairwise (· < ·)) ∧
    loadLenient text = b.build ∧ loadLenientJournal s text = warnings ++ b.dropped ++ [b.build.built] ∧
    (∀ e ∈ b.dropped, e.severity = .debug) ∧ b.keptAliases.length + b.dropped.length = b.aliases.length ∧
    ∀ before name target,
      let known : Builder s := ⟨b.entries, before⟩
      Xor (known.Sets name target ∧ (known.addAlias name target).dropped = known.dropped)
        (∃ report, known.Drops name target report ∧ (known.addAlias name target).build = known.build ∧
          (known.addAlias name target).dropped = known.dropped ++ [report]) := by
  intro b warnings
  obtain ⟨fates, hfates, hbuilder, hreports⟩ := exists_fates (Builder.empty : Builder s) (contents text.toList)
  have hwarnings : warnings = fates.filterMap Fate.report? := (filter_warnings s text).trans hreports
  have hincreasing : ((contents text.toList).map (·.1)).Pairwise (· < ·) := pairwise_numbered 1 _
  obtain ⟨-, numbers, hnumbers, hsublist⟩ := warnings_of_fates hfates
  refine ⟨fun number body => ?_, hincreasing, existsUnique_meets s, ⟨fates, hfates, hbuilder, hwarnings⟩,
    ⟨numbers, hwarnings ▸ hnumbers, hincreasing.sublist hsublist⟩, rfl, ?_,
    Builder.severity_dropReports _ _, Builder.length_kept_add_length_dropped b,
    fun before => Builder.sets_or_drops ⟨b.entries, before⟩⟩
  · rw [contents_eq, mem_numbered]
  · rw [hwarnings, ← hreports, loadLenientJournal, Builder.buildJournal, Builder.dropped, List.append_assoc]

end Palette
end ColorWords
