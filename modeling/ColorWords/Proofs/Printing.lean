import ColorWords.Proofs.Aliases
import ColorWords.Proofs.Exchange
import ColorWords.Proofs.Line
import ColorWords.Proofs.Lines
import ColorWords.Proofs.Refusal
import ColorWords.Proofs.Views

/-! # Printed palettes

A palette is printed with one declaration a line, and blank lines and comments between them.
Nothing of a printed line is taken for a comment, and its literal is read as the color it
was written from, so loading gives back what was printed.
-/
namespace ColorWords.Palette
open Text

/-! ## Items -/

inductive Item where
  | entry (name : String) (color : Rgb)
  | aliasOf (name target : String)
  | silent (line : List Char)

namespace Item

def line : Item → List Char
  | .entry name color => name.toList ++ ' ' :: color.toHex.toList
  | .aliasOf name target => name.toList ++ [' ', '=', ' '] ++ target.toList
  | .silent line => line

def entryOf? : Item → Option (String × Rgb)
  | .entry name color => some (name, color)
  | _ => none

def aliasOf? : Item → Option (String × String)
  | .aliasOf name target => some (name, target)
  | _ => none

end Item

def entriesOf (items : List Item) : Entries Rgb := items.filterMap Item.entryOf?

def aliasesOf (items : List Item) : Entries String := items.filterMap Item.aliasOf?

def Silent (line : List Char) : Prop :=
  '\n' ∉ line ∧ ∃ blanks, (∀ c ∈ blanks, isBlank c = true) ∧
    (line = blanks ∨ ∃ comment, line = blanks ++ '/' :: '/' :: comment)

/-- Items that can be printed: stored colors of distinct names, and aliases of names before them. -/
structure Printable (items : List Item) : Prop where
  silent : ∀ line, .silent line ∈ items → Silent line
  stored : ∀ e ∈ entriesOf items, e.2.Stored
  names : ∀ name ∈ Entries.keys (entriesOf items) ++ Entries.keys (aliasesOf items), Line.Name name.toList
  distinct : (Entries.keys (entriesOf items) ++ Entries.keys (aliasesOf items)).Nodup
  targets : ∀ k (h : k < (aliasesOf items).length),
    (aliasesOf items)[k].2 ∈ Entries.keys (entriesOf items) ++ Entries.keys ((aliasesOf items).take k)

def print (items : List Item) : String := .ofList ((items.map Item.line).flatMap (· ++ ['\n']))

/-! ## Contents of lines -/

section Contents
variable {line before : List Char}

theorem dropComment_of_not_mem (h : '/' ∉ line) : dropComment line = line := by
  induction line with
  | nil => rfl
  | cons c rest ih =>
    obtain ⟨hc, hrest⟩ := not_or.mp (mt List.mem_cons.mpr h)
    rw [dropComment, if_neg fun hslash => hc hslash.1.symm, ih hrest]

theorem dropComment_comment (h : '/' ∉ before) (comment : List Char) :
    dropComment (before ++ '/' :: '/' :: comment) = before := by
  induction before with
  | nil => simp [dropComment]
  | cons c rest ih =>
    obtain ⟨hc, hrest⟩ := not_or.mp (mt List.mem_cons.mpr h)
    rw [List.cons_append, dropComment, if_neg fun hslash => hc hslash.1.symm, ih hrest]

theorem Silent.content (h : Silent line) : content line = [] := by
  obtain ⟨-, blanks, hblanks, hline⟩ := h
  have hslash : '/' ∉ blanks := fun hmem => absurd (hblanks _ hmem) (by decide)
  have hdrop : dropComment line = blanks := by
    rcases hline with rfl | ⟨comment, rfl⟩
    · exact dropComment_of_not_mem hslash
    · exact dropComment_comment hslash comment
  rw [Palette.content, hdrop, trim_eq_nil hblanks]

def Ink (c : Char) : Prop := isBlank c = false ∧ c ≠ '/'

def Inked (text : List Char) : Prop := text ≠ [] ∧ ∀ c ∈ text, Ink c

theorem ink_of_range {c : Char} (h : 48 ≤ c.toNat ∧ c.toNat ≤ 122) : Ink c := by
  constructor
  · simp only [isBlank, wideBlanks, List.contains_eq_mem, List.mem_cons, List.not_mem_nil, or_false,
      Bool.or_eq_false_iff, Bool.and_eq_false_iff, decide_eq_false_iff_not]
    omega
  · rintro rfl
    exact absurd h.1 (by decide)

theorem ink_of_hexDigit {c : Char} (h : Line.HexDigit c) : Ink c := by
  apply ink_of_range
  simp only [Line.HexDigit, Line.Digit, Char.le_def, UInt32.le_iff_toNat_le] at h
  change 48 ≤ c.toNat ∧ c.toNat ≤ 57 ∨ 97 ≤ c.toNat ∧ c.toNat ≤ 102 ∨ 65 ≤ c.toNat ∧ c.toNat ≤ 70 at h
  omega

theorem ink_of_letter {c : Char} (h : Line.Letter c) : Ink c := by
  apply ink_of_range
  simp only [Line.Letter, Char.le_def, UInt32.le_iff_toNat_le] at h
  change 97 ≤ c.toNat ∧ c.toNat ≤ 122 ∨ 65 ≤ c.toNat ∧ c.toNat ≤ 90 at h
  omega

theorem inked_of_name {name : List Char} (h : Line.Name name) : Inked name := by
  obtain ⟨first, rest, rfl, hfirst, hrest⟩ := h
  refine ⟨List.cons_ne_nil first rest, List.forall_mem_cons.mpr ⟨ink_of_letter hfirst, fun c hc => ?_⟩⟩
  rcases hrest c hc with hletter | hdigit | rfl
  · exact ink_of_letter hletter
  · exact ink_of_hexDigit (.inl hdigit)
  · exact ink_of_range (by decide)

theorem content_inked {first last : List Char} (hfirst : Inked first) (hlast : Inked last) {gap : List Char}
    (hgap : '/' ∉ gap) : content (first ++ gap ++ last) = first ++ gap ++ last := by
  have hslash {text : List Char} (h : Inked text) : '/' ∉ text := fun hmem => (h.2 _ hmem).2 rfl
  have hdrop : '/' ∉ first ++ gap ++ last := by simp [hslash hfirst, hgap, hslash hlast]
  rw [content, dropComment_of_not_mem hdrop]
  obtain ⟨c, rest, rfl⟩ := List.exists_cons_of_ne_nil hfirst.1
  obtain ⟨before, d, rfl⟩ := (List.eq_nil_or_concat' last).resolve_left hlast.1
  refine trim_eq_self ?_ ?_
  · rintro _ ⟨⟩
    exact (hfirst.2 c List.mem_cons_self).1
  · intro _ h
    rw [← List.append_assoc, List.getLast?_concat] at h
    obtain rfl := Option.some.inj h
    exact (hlast.2 d (by simp)).1

end Contents

/-! ## Printed lines -/

theorem literal_toHex (c : Rgb) : Line.Literal c.toHex.toList := by
  rw [Rgb.toHex, String.toList_ofList]
  refine ⟨_, rfl, by simp [Hex.wordDigits], fun d hd => ?_⟩
  obtain ⟨shift, -, rfl⟩ := List.mem_map.mp hd
  exact Line.isHexDigit_iff.mp (Hex.forall_digitChar (p := fun d => Line.isHexDigit d = true) (by decide) _)

theorem inked_of_literal {literal : List Char} (h : Line.Literal literal) : Inked literal := by
  obtain ⟨digits, rfl, -, hdigits⟩ := h
  have hsign : Ink '#' := ⟨by decide, by decide⟩
  exact ⟨List.cons_ne_nil _ _, List.forall_mem_cons.mpr ⟨hsign, fun c hc => ink_of_hexDigit (hdigits c hc)⟩⟩

section Lines
variable {name target : String} {color : Rgb}

theorem blanks_nil : Line.Blanks [] := by simp [Line.Blanks]

theorem blanks_space : Line.Blanks [' '] := by simp [Line.Blanks]

theorem declaration_entry (hname : Line.Name name.toList) (hcolor : color.Stored) :
    declaration (content (Item.entry name color).line) = .ok (.entry name color) := by
  have hliteral := literal_toHex color
  have hgap : '/' ∉ [' '] := by decide
  have hcontent := content_inked (inked_of_name hname) (inked_of_literal hliteral) hgap
  have hread := Line.read?_of_written (.entry blanks_nil hname blanks_space (by simp) hliteral blanks_nil)
  simp only [List.nil_append, List.append_nil, List.append_assoc, List.cons_append, String.ofList_toList]
    at hcontent hread
  simp only [Item.line, hcontent, declaration, hread, Rgb.ofHex_toHex hcolor, Rgb.ofRgba_toRgba hcolor]

theorem declaration_aliasOf (s : Space) (hname : Line.Name name.toList) (htarget : Line.Name target.toList) :
    declaration (content (Item.aliasOf name target).line) = .ok (.aliasOf name target : Declaration s) := by
  have hgap : '/' ∉ [' ', '=', ' '] := by decide
  have hcontent := content_inked (inked_of_name hname) (inked_of_name htarget) hgap
  have hread := Line.read?_of_written (.aliasOf blanks_nil hname blanks_space blanks_space htarget blanks_nil)
  simp only [List.nil_append, List.append_nil, List.append_assoc, List.cons_append, String.ofList_toList]
    at hcontent hread
  simp only [Item.line, List.append_assoc, List.cons_append, List.nil_append, hcontent, declaration, hread]

end Lines

/-! ## Printed palettes -/

variable {items : List Item} {item : Item} {name target : String} {color : Rgb} {t : Table .rgb}

theorem mem_entriesOf : (name, color) ∈ entriesOf items ↔ .entry name color ∈ items := by
  rw [entriesOf, List.mem_filterMap]
  constructor
  · rintro ⟨item, hmem, hitem⟩
    cases item <;> cases hitem
    exact hmem
  · exact fun h => ⟨_, h, rfl⟩

theorem mem_aliasesOf : (name, target) ∈ aliasesOf items ↔ .aliasOf name target ∈ items := by
  rw [aliasesOf, List.mem_filterMap]
  constructor
  · rintro ⟨item, hmem, hitem⟩
    cases item <;> cases hitem
    exact hmem
  · exact fun h => ⟨_, h, rfl⟩

namespace Printable

theorem target_mem (h : Printable items) {before after : Entries String}
    (hsplit : aliasesOf items = before ++ (name, target) :: after) :
    target ∈ Entries.keys (entriesOf items) ++ Entries.keys before := by
  have htarget := h.targets before.length (by simp [hsplit])
  simpa [hsplit] using htarget

theorem name_of_entry (h : Printable items) (hmem : .entry name color ∈ items) : Line.Name name.toList :=
  h.names name (List.mem_append_left _ (Entries.mem_keys_of_mem (mem_entriesOf.mpr hmem)))

/-- Targets are declared names, so they have the form of one. -/
theorem names_of_aliasOf (h : Printable items) (hmem : .aliasOf name target ∈ items) :
    Line.Name name.toList ∧ Line.Name target.toList := by
  have halias := mem_aliasesOf.mpr hmem
  obtain ⟨before, after, hsplit⟩ := List.append_of_mem halias
  have hbefore := h.target_mem hsplit
  have htarget : target ∈ Entries.keys (entriesOf items) ++ Entries.keys (aliasesOf items) := by
    rw [hsplit]
    simp only [Entries.keys, List.map_append, List.mem_append] at hbefore ⊢
    exact hbefore.imp id .inl
  exact ⟨h.names name (List.mem_append_right _ (Entries.mem_keys_of_mem halias)), h.names target htarget⟩

/-- What a printed line declares is its item. -/
theorem reads (h : Printable items) (hmem : item ∈ items) :
    entryOf? (content item.line) = item.entryOf? ∧ aliasOf? (content item.line) = item.aliasOf? ∧
      (content item.line ≠ [] → ∃ d : Declaration .rgb, declaration (content item.line) = .ok d) := by
  cases item with
  | entry name color =>
    have hd := declaration_entry (h.name_of_entry hmem) (h.stored _ (mem_entriesOf.mpr hmem))
    exact ⟨entryOf?_eq_some.mpr hd, aliasOf?_of_entry hd, fun _ => ⟨_, hd⟩⟩
  | aliasOf name target =>
    have hd := declaration_aliasOf .rgb (h.names_of_aliasOf hmem).1 (h.names_of_aliasOf hmem).2
    exact ⟨by simp [entryOf?, hd, Item.entryOf?], aliasOf?_eq_some.mpr (declaration_eq_aliasOf.mp hd), fun _ => ⟨_, hd⟩⟩
  | silent line =>
    have hcontent : content (Item.silent line).line = [] := (h.silent line hmem).content
    rw [hcontent]
    exact ⟨by rfl, by rfl, fun hne => absurd rfl hne⟩

theorem collected (h : Printable items) :
    collected (said (items.map Item.line)) = ⟨entriesOf items, aliasesOf items⟩ := by
  rw [Palette.collected, filterMap_said (by rfl), filterMap_said (by rfl), List.filterMap_map, List.filterMap_map]
  have hentries := List.filterMap_congr fun (item : Item) (hmem : item ∈ items) => (h.reads hmem).1
  have haliases := List.filterMap_congr fun (item : Item) (hmem : item ∈ items) => (h.reads hmem).2.1
  exact congrArg₂ Builder.mk hentries haliases

theorem sound (h : Printable items) :
    ∀ c ∈ said (items.map Item.line), ∃ d : Declaration .rgb, declaration c = .ok d := by
  intro c hc
  obtain ⟨hmem, hne⟩ := List.mem_filter.mp hc
  obtain ⟨line, hline, rfl⟩ := List.mem_map.mp hmem
  obtain ⟨item, hitem, rfl⟩ := List.mem_map.mp hline
  exact (h.reads hitem).2.2 (by simpa using hne)

end Printable

structure Holds (t : Table .rgb) (items : List Item) : Prop where
  names_increasing : t.names.Pairwise (· < ·)
  mem_names : ∀ name, name ∈ t.names ↔ name ∈ Entries.keys (entriesOf items)
  colors : ∀ name color, .entry name color ∈ items → t.get? name = some color
  aliases : ∀ name target, .aliasOf name target ∈ items →
    ∃ color, t.get? name = some color ∧ t.get? target = some color
  absent : ∀ key, key ∉ Entries.keys (entriesOf items) → key ∉ Entries.keys (aliasesOf items) → t.get? key = none

theorem Printable.exists_table (h : Printable items) :
    ∃ t, Builder.tryBuild ⟨entriesOf items, aliasesOf items⟩ = .ok t ∧ Holds t items := by
  have hdistinct : (Entries.keys (entriesOf items)).Nodup := (List.nodup_append.mp h.distinct).1
  have hfit : Builder.AliasesFit (Entries.keys (entriesOf items)) (aliasesOf items) := by
    intro before name target after hsplit
    refine ⟨h.target_mem hsplit, fun hmem => ?_⟩
    have hnodup := h.distinct
    rw [hsplit, Entries.keys, Entries.keys, List.map_append, List.map_cons, ← List.append_assoc] at hnodup
    exact (List.nodup_append.mp hnodup).2.2 name hmem name List.mem_cons_self rfl
  obtain ⟨t, hbuild⟩ := Builder.Accepted.exists_tryBuild (b := ⟨entriesOf items, aliasesOf items⟩) ⟨hdistinct, hfit⟩
  obtain ⟨-, kept, hkept, rfl⟩ := Builder.tryBuild_eq_ok.mp hbuild
  have hrepresents := Table.represents_build (⟨entriesOf items, aliasesOf items⟩ : Builder .rgb)
  rw [← Builder.eq_build (.inr hbuild)] at hrepresents
  refine ⟨_, hbuild, hrepresents.names_increasing, hrepresents.mem_names, ?_, ?_, ?_⟩
  · intro name color hmem
    have hreverse : (Entries.keys (entriesOf items).reverse).Nodup := by
      rw [Entries.keys, List.map_reverse, List.nodup_reverse]
      exact hdistinct
    exact hrepresents.get?_last
      (Entries.lookup_of_mem hreverse (List.mem_reverse.mpr (mem_entriesOf.mpr hmem)))
  · intro name target hmem
    exact Builder.tryBuild_coherent hbuild (name, target) (mem_aliasesOf.mpr hmem)
  · intro key hentry halias
    rw [← Option.not_isSome_iff_eq_none]
    intro hsome
    rcases Table.contains_iff.mp hsome with hmem | hmem
    · exact hentry ((hrepresents.mem_names key).mp hmem)
    · rw [Table.ofEntries, Builder.keys_of_tryAliases hkept] at hmem
      exact halias hmem

/-! ## Printing and loading -/

theorem Printable.not_mem_line (h : Printable items) (hmem : item ∈ items) : '\n' ∉ item.line := by
  have hinked {text : List Char} (htext : Inked text) : '\n' ∉ text := fun hline =>
    absurd (htext.2 _ hline).1 (by decide)
  cases item with
  | entry name color =>
    have hname := hinked (inked_of_name (h.name_of_entry hmem))
    have hliteral := hinked (inked_of_literal (literal_toHex color))
    simp [Item.line, hname, hliteral]
  | aliasOf name target =>
    obtain ⟨hname, htarget⟩ := h.names_of_aliasOf hmem
    simp [Item.line, hinked (inked_of_name hname), hinked (inked_of_name htarget)]
  | silent line => exact (h.silent line hmem).1

/-- What is printed is loaded again. The line feeds may be written in another way, and the last one left out. -/
theorem load_print (items : List Item) (h : Printable items) :
    ∃ t : Table .rgb, Holds t items ∧ load (print items) = .ok t ∧
      ∀ text : String, lines text.toList = items.map Item.line → load text = .ok t := by
  obtain ⟨t, hbuild, hholds⟩ := h.exists_table
  have hload {text : String} (hsaid : said (lines text.toList) = said (items.map Item.line)) :
      load text = .ok t := by
    rw [load_eq_tryBuild, hsaid, h.collected]
    exact ⟨h.sound, hbuild⟩
  refine ⟨t, hholds, hload ?_, fun text hlines => hload (congrArg said hlines)⟩
  have hnewline : ∀ line ∈ items.map Item.line, '\n' ∉ line := by
    intro line hline
    obtain ⟨item, hitem, rfl⟩ := List.mem_map.mp hline
    exact h.not_mem_line hitem
  rw [said_lines, print, String.toList_ofList, splitLines_flatMap hnewline, said_append]
  exact List.append_nil _

theorem load_print_scarlet :
    let items : List Item := [.silent "// reds".toList, .aliasOf "scarlet" "red", .silent [],
      .entry "red" ⟨0xFE0000FF⟩, .aliasOf "rose_2" "scarlet", .entry "glass" ⟨0x40FFFFFF⟩]
    let text := "// reds\r\nscarlet = red\r\n\r\nred #ff0000ff\r\nrose_2 = scarlet\r\nglass #ffffff40"
    Printable items ∧ lines text.toList = items.map Item.line ∧
      ∃ t : Table .rgb, Holds t items ∧ load (print items) = .ok t ∧ load text = .ok t := by
  intro items text
  have hnames : ∀ name ∈ Entries.keys (entriesOf items) ++ Entries.keys (aliasesOf items),
      Line.spanName? name.toList = some (name.toList, []) := by decide
  have hprintable : Printable items := {
    silent := by
      intro line hline
      have hlines : line ∈ ["// reds".toList, []] := by simpa [items] using hline
      rcases List.mem_pair.mp hlines with rfl | rfl
      · exact ⟨by decide, [], by simp, .inr ⟨" reds".toList, by rfl⟩⟩
      · exact ⟨by decide, [], by simp, .inl rfl⟩
    stored := by decide
    names := fun name hname => (Line.spanName?_eq_some_iff.mp (hnames name hname)).2.1
    distinct := by decide
    targets := by decide }
  have hlines : lines text.toList = items.map Item.line := by decide
  obtain ⟨t, hholds, hprint, hload⟩ := load_print items hprintable
  exact ⟨hprintable, hlines, t, hholds, hprint, hload text hlines⟩

end ColorWords.Palette
