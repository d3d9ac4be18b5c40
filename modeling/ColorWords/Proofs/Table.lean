import ColorWords.Proofs.Building
import ColorWords.Proofs.Mixing

/-! # Tables that builders make

The names of a built table are distinct, so each name listed by hue has the color that it
is listed with, and the listed colors are the visible ones.
-/
namespace ColorWords

namespace Table
variable {s : Space} {t : Table s}

def Built (t : Table s) : Prop := ∃ b : Builder s, t = b.build ∨ b.tryBuild = .ok t

theorem nodup_ofEntries {entries : Entries (Color s)} (h : (Entries.keys entries).Nodup)
    (aliases : Entries (Color s)) : (Entries.keys (ofEntries entries aliases).entries).Nodup :=
  (Entries.keys_perm (Entries.sortBy_perm entries fun _ => [])).nodup_iff.mpr h

theorem Built.nodup (h : t.Built) : (Entries.keys t.entries).Nodup := by
  obtain ⟨b, h⟩ := h
  obtain rfl : t = b.build := Builder.eq_build h
  exact nodup_ofEntries b.nodup_lastEntries _

/-- Entries in the order of their names are a built table. -/
theorem built_of_increasing {entries : Entries (Color s)} (h : (Entries.keys entries).Pairwise (· < ·)) :
    (⟨entries, []⟩ : Table s).Built := by
  let b : Builder s := ⟨entries, []⟩
  refine ⟨b, .inl ?_⟩
  rw [Builder.build, b.lastEntries_of_nodup (h.imp ne_of_lt)]
  exact (ofEntries_of_increasing h []).symm

theorem mem_colorsByHue {e : String × Color s} :
    e ∈ t.colorsByHue ↔ e ∈ t.entries ∧ e.2.Visible := by
  rw [colorsByHue, (Entries.sortBy_perm _ _).mem_iff, List.mem_filter, Bool.not_eq_true']
  rfl

theorem mem_keys_of_mem_namesByHue {b : Builder s} {name : String} (h : name ∈ b.build.namesByHue) :
    name ∈ Entries.keys b.lastEntries := by
  obtain ⟨e, he, rfl⟩ := List.mem_map.mp h
  have hperm := Entries.sortBy_perm b.lastEntries fun _ => []
  exact List.mem_map_of_mem (hperm.mem_iff.mp (mem_colorsByHue.mp he).1)

theorem lookup_of_mem (h : (Entries.keys t.entries).Nodup) {name : String} {c : Color s}
    (hmem : (name, c) ∈ t.entries) : t.lookup name = c := by
  rw [lookup, get?, Entries.lookup_of_mem h hmem]
  rfl

/-- A name listed by hue looks up the color that it is listed with. -/
theorem Built.lookup_of_mem (h : t.Built) {name : String} {c : Color s} (hmem : (name, c) ∈ t.colorsByHue) :
    t.lookup name = c :=
  Table.lookup_of_mem h.nodup (mem_colorsByHue.mp hmem).1

end Table
end ColorWords
