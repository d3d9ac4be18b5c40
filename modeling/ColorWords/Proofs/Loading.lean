import ColorWords.Palette.Load
import ColorWords.Proofs.Building

/-! # Strict and lenient loading

Loading skips faulty lines or stops at the first one, so the two ways read the same
declarations from a palette without faults, and build the same table of them.
-/
namespace ColorWords.Palette
variable {s : Space} {b b' : Builder s} {t : Table s} {lines : List (ℕ × List Char)} {text : String}

/-- Lines that are all read are read leniently to the same declarations, and none is reported. -/
theorem readSound_of_readAll (h : readAll b lines = .ok b') :
    readSound b lines = b' ∧ faultReports s lines = [] := by
  induction lines generalizing b with
  | nil => exact ⟨Except.ok.inj h, rfl⟩
  | cons l rest ih =>
    obtain ⟨number, content⟩ := l
    rw [readAll] at h
    split at h
    case h_1 => cases h
    case h_2 d hd =>
      obtain ⟨hsound, hfaults⟩ := ih h
      rw [readSound, faultReports, hd]
      refine ⟨hsound, ?_⟩
      rw [List.filterMap_cons_none (by simp only [hd])]
      exact hfaults

theorem load_eq_ok : load text = .ok t ↔
    ∃ b : Builder s, readAll .empty (contents text.toList) = .ok b ∧ b.tryBuild = .ok t := by
  rw [load]
  cases (readAll .empty (contents text.toList) : Except PaletteError (Builder s)) <;> simp

theorem loadJournal_of_load (h : load text = .ok t) : loadJournal s text = [t.built] := by
  obtain ⟨b, hread, hbuild⟩ := load_eq_ok.mp h
  rw [loadJournal, hread]
  exact Builder.tryBuildJournal_of_ok hbuild

theorem loadLenient_of_load (h : load text = .ok t) :
    loadLenient text = t ∧ loadLenientJournal s text = [t.built] := by
  obtain ⟨b, hread, hbuild⟩ := load_eq_ok.mp h
  obtain ⟨hsound, hfaults⟩ := readSound_of_readAll hread
  obtain ⟨htable, hjournal⟩ := Builder.build_of_tryBuild hbuild
  constructor
  · rw [loadLenient, hsound, htable]
  · rw [loadLenientJournal, hsound, hfaults, hjournal, List.nil_append]

/-- What is accepted strictly gives the same table leniently: all declarations of a builder, and every
palette. Nothing is warned of then. -/
theorem lenient_of_strict :
    (∀ (b : Builder s) (t : Table s), b.tryBuild = .ok t → b.build = t ∧ b.buildJournal = b.tryBuildJournal) ∧
      ∀ (text : String) (t : Table s), load text = .ok t → loadLenient text = t ∧
        loadLenientJournal s text = loadJournal s text ∧
        journalLines (some .warn) (loadLenientJournal s text) = [] := by
  constructor
  · intro b t h
    obtain ⟨htable, hjournal⟩ := Builder.build_of_tryBuild h
    exact ⟨htable, hjournal.trans (Builder.tryBuildJournal_of_ok h).symm⟩
  · intro text t h
    obtain ⟨htable, hjournal⟩ := loadLenient_of_load h
    refine ⟨htable, hjournal.trans (loadJournal_of_load h).symm, ?_⟩
    rw [hjournal]
    rfl

theorem lenient_of_strict_scarlet :
    let text := "scarlet = red\nred #ff0000 // first\nlime #0f0"
    let b : Builder .rgb := ⟨[("red", ⟨0xFE0000FF⟩), ("lime", ⟨0xFE00FF00⟩)], [("scarlet", "red")]⟩
    let t : Table .rgb := .ofEntries b.entries [("scarlet", ⟨0xFE0000FF⟩)]
    b.tryBuild = .ok t ∧ load text = .ok t ∧ b.build = t ∧ loadLenient text = t := by
  intro text b t
  have hbuild : b.tryBuild = .ok t := by rfl
  have hread : readAll .empty (contents text.toList) = .ok b := by decide
  have hload : load text = .ok t := load_eq_ok.mpr ⟨b, hread, hbuild⟩
  exact ⟨hbuild, hload, (lenient_of_strict.1 b t hbuild).1, (lenient_of_strict.2 text t hload).1⟩

end ColorWords.Palette
