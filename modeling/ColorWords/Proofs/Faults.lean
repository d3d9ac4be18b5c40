import ColorWords.Proofs.Lines
import ColorWords.Proofs.Refusal

/-! # The error of a palette

A line counts if something is left of it without its comment and the white space around. Loading
stops at the first such line that is no declaration or whose color literal is not one, with the
number that the line has among all lines. Only without such a line does it matter which names are
declared, and then the declarations are built strictly.
-/
namespace ColorWords.Palette
open Text
variable {s : Space} {ls : List (List Char)} {body : List Char} {number : ℕ} {e : PaletteError}

def Sound (body : List Char) : Prop :=
  ∃ line, Line.read? body = some line ∧
    ∀ name literal, line = .entry name literal → ∃ color, Rgb.ofHex literal = .ok color

inductive Faulty (number : ℕ) (body : List Char) : PaletteError → Prop
  | line (hread : Line.read? body = none) : Faulty number body (.badLine number (.ofList body))
  | color {name literal : String} {e : HexError} (hread : Line.read? body = some (.entry name literal))
      (hhex : Rgb.ofHex literal = .error e) : Faulty number body (.badColor e)

/-- The error of the first line that says something and is not sound, numbered from one. -/
def FirstFault (ls : List (List Char)) (e : PaletteError) : Prop :=
  ∃ before line after, ls = before ++ line :: after ∧ (∀ c ∈ said before, Sound c) ∧
    content line ≠ [] ∧ Faulty (before.length + 1) (content line) e

/-! ## One line -/

theorem sound_iff : Sound body ↔ ∃ d : Declaration s, declaration body = .ok d := by
  rw [declaration]
  cases hread : Line.read? body with
  | none => simp [Sound, hread]
  | some line =>
    cases line with
    | aliasOf name target => simp [Sound, hread]
    | entry name literal => cases hhex : Rgb.ofHex literal <;> simp [Sound, hread, hhex]

instance (body : List Char) : Decidable (Sound body) :=
  decidable_of_iff ((declaration body : Except Fault (Declaration .rgb)).toBool = true) <| by
    rw [sound_iff (s := .rgb)]
    cases (declaration body : Except Fault (Declaration .rgb)) <;> simp [Except.toBool]

theorem Faulty.declaration (h : Faulty number body e) :
    ∃ fault, (Palette.declaration body : Except Fault (Declaration s)) = .error fault ∧
      fault.error number body = e := by
  cases h with
  | line hread => exact ⟨.notDeclaration, by simp [Palette.declaration, hread], rfl⟩
  | color hread hhex => exact ⟨.badColor _, by simp [Palette.declaration, hread, hhex], rfl⟩

theorem sound_or_faulty (number : ℕ) (body : List Char) : Sound body ∨ ∃ e, Faulty number body e := by
  cases hread : Line.read? body with
  | none => exact .inr ⟨_, .line hread⟩
  | some line =>
    cases line with
    | aliasOf name target => exact .inl (by simp [Sound, hread])
    | entry name literal =>
      cases hhex : Rgb.ofHex literal with
      | error e => exact .inr ⟨_, .color hread hhex⟩
      | ok color => exact .inl (by simp [Sound, hread, hhex])

theorem Faulty.not_sound (h : Faulty number body e) : ¬ Sound body := by
  rw [sound_iff (s := .rgb)]
  rintro ⟨d, hd⟩
  obtain ⟨fault, hfault, -⟩ := h.declaration (s := .rgb)
  rw [hfault] at hd
  cases hd

/-! ## All lines -/

theorem said_cons (line : List Char) (rest : List (List Char)) :
    said (line :: rest) = if content line = [] then said rest else content line :: said rest := by
  by_cases h : content line = [] <;> simp [said, h]

theorem sound_or_firstFault (ls : List (List Char)) : (∀ c ∈ said ls, Sound c) ∨ ∃ e, FirstFault ls e := by
  have hsplit : (∀ c ∈ said ls, Sound c) ∨ ∃ before line after, ls = before ++ line :: after ∧
      (∀ c ∈ said before, Sound c) ∧ content line ≠ [] ∧ ¬ Sound (content line) := by
    induction ls with
    | nil => exact .inl (by simp [said])
    | cons first rest ih =>
      by_cases hempty : content first = []
      · rcases ih with hsound | ⟨before, line, after, rfl, hsound, hline⟩
        · exact .inl (by simpa [said_cons, hempty] using hsound)
        · exact .inr ⟨first :: before, line, after, rfl, by simpa [said_cons, hempty] using hsound, hline⟩
      · by_cases hfirst : Sound (content first)
        · rcases ih with hsound | ⟨before, line, after, rfl, hsound, hline⟩
          · exact .inl (by simpa [said_cons, hempty, hfirst] using hsound)
          · exact .inr ⟨first :: before, line, after, rfl, by simpa [said_cons, hempty, hfirst] using hsound, hline⟩
        · exact .inr ⟨[], first, rest, rfl, by simp [said], hempty, hfirst⟩
  rcases hsplit with hsound | ⟨before, line, after, hls, hsound, hne, hline⟩
  · exact .inl hsound
  · obtain ⟨e, he⟩ := (sound_or_faulty (before.length + 1) (content line)).resolve_left hline
    exact .inr ⟨e, before, line, after, hls, hsound, hne, he⟩

theorem FirstFault.not_sound (h : FirstFault ls e) : ¬ ∀ c ∈ said ls, Sound c := by
  obtain ⟨before, line, after, rfl, -, hne, hfault⟩ := h
  intro hsound
  refine hfault.not_sound (hsound _ ?_)
  simp [said_append, said_cons, hne]

theorem numbered_append (first : ℕ) (before after : List (List Char)) :
    numbered first (before ++ after) = numbered first before ++ numbered (first + before.length) after := by
  rw [numbered, List.zipIdx_append, List.filterMap_append, numbered, numbered]

theorem numbered_cons {line : List Char} (h : content line ≠ []) (first : ℕ) (rest : List (List Char)) :
    numbered first (line :: rest) = (first, content line) :: numbered (first + 1) rest := by
  simp [numbered, h]

/-- Neither the carriage return before a line feed nor the empty line after the last one changes
what is numbered. -/
theorem numbered_lines (first : ℕ) (text : List Char) :
    numbered first (lines text) = numbered first (splitLines text) := by
  have hreturn (pieces : List (List Char)) : numbered first (pieces.map dropReturn) = numbered first pieces := by
    simp only [numbered, List.zipIdx_map, List.filterMap_map]
    refine List.filterMap_congr fun piece _ => ?_
    simp [content_dropReturn]
  have hlast (piece : List Char) (last : ℕ) : numbered last ([piece].filter (· ≠ [])) = numbered last [piece] := by
    cases piece with
    | nil => rfl
    | cons c rest => rfl
  conv_rhs => rw [← List.dropLast_append_getLast (splitLines_ne_nil text), numbered_append]
  rw [lines, numbered_append, hreturn, List.length_map, List.getLast?_eq_some_getLast (splitLines_ne_nil text),
    Option.toList_some, hlast]

theorem readAll_append (b : Builder s) (before after : List (ℕ × List Char)) :
    readAll b (before ++ after) = (readAll b before).bind (readAll · after) := by
  induction before generalizing b with
  | nil => rfl
  | cons l rest ih =>
    obtain ⟨number, content⟩ := l
    rw [List.cons_append, readAll, readAll]
    split
    · rfl
    · exact ih _

/-! ## Loading -/

/-- The lines before the first fault are read, the others are not looked at. -/
theorem FirstFault.readAll (h : FirstFault ls e) (b : Builder s) : Palette.readAll b (numbered 1 ls) = .error e := by
  obtain ⟨before, line, after, rfl, hsound, hne, hfault⟩ := h
  obtain ⟨fault, hdeclaration, rfl⟩ := hfault.declaration (s := s)
  obtain ⟨b', hread⟩ : ∃ b', Palette.readAll b (numbered 1 before) = .ok b' := by
    refine ⟨_, readAll_eq_ok.mpr ⟨?_, rfl⟩⟩
    rw [map_snd_numbered]
    exact fun c hc => sound_iff.mp (hsound c hc)
  rw [numbered_append, numbered_cons hne, Nat.add_comm, readAll_append, hread]
  simp [Except.bind, Palette.readAll, hdeclaration]

theorem contents_eq (text : List Char) : contents text = numbered 1 (lines text) := (numbered_lines 1 text).symm

theorem FirstFault.load {text : String} (h : FirstFault (lines text.toList) e) :
    (Palette.load text : Except PaletteError (Table s)) = .error e := by
  rw [Palette.load, contents_eq, h.readAll]

theorem load_of_sound {text : String} (h : ∀ c ∈ said (lines text.toList), Sound c) :
    load text = (collected (said (lines text.toList)) : Builder s).tryBuild := by
  have hread : readAll .empty (contents text.toList) = .ok (collected (said (lines text.toList)) : Builder s) := by
    rw [readAll_eq_ok, contents_eq, map_snd_numbered]
    exact ⟨fun c hc => sound_iff.mp (h c hc), rfl⟩
  rw [load, hread]

/-- Strict building accepts just what fits, and its error is that of the first declaration that does
not; strict loading has the error of the first faulty line, and without one it builds strictly
what the lines declare. -/
theorem strict_errors (s : Space) :
    (∀ b : Builder s, ((∃ t, b.tryBuild = .ok t) ↔ b.Accepted) ∧ ∀ e, b.tryBuild = .error e ↔ b.Refused e) ∧
      ∀ text : String,
        (∀ e, FirstFault (lines text.toList) e → (load text : Except PaletteError (Table s)) = .error e) ∧
          ((∀ e, ¬ FirstFault (lines text.toList) e) →
            load text = (collected (said (lines text.toList)) : Builder s).tryBuild) := by
  refine ⟨fun b => ⟨Builder.exists_tryBuild_iff, fun e => Builder.tryBuild_eq_error⟩, fun text => ⟨fun e => ?_, ?_⟩⟩
  · exact FirstFault.load
  · intro hnone
    exact load_of_sound ((sound_or_firstFault _).resolve_right fun ⟨e, he⟩ => hnone e he)

theorem strict_errors_scarlet :
    let text := "red #ff0000 // first\n\n// note\n scarlet : red\nlime #0f0f0"
    let sound := "red #ff0000\nred = crimson\nred = red"
    FirstFault (lines text.toList) (.badLine 4 "scarlet : red") ∧
      (load text : Except PaletteError (Table .rgb)) = .error (.badLine 4 "scarlet : red") ∧
      (∀ e, ¬ FirstFault (lines sound.toList) e) ∧
      (load sound : Except PaletteError (Table .rgb)) = .error (.unknownTarget "red" "crimson") := by
  intro text sound
  obtain ⟨hbuild, hload⟩ := strict_errors .rgb
  have hfault : FirstFault (lines text.toList) (.badLine 4 "scarlet : red") := by
    have hlines : lines text.toList =
        ["red #ff0000 // first".toList, [], "// note".toList] ++ " scarlet : red".toList :: ["lime #0f0f0".toList] := by
      decide
    have hcontent : content " scarlet : red".toList = "scarlet : red".toList := by decide
    have hline : Faulty 4 "scarlet : red".toList (.badLine 4 (.ofList "scarlet : red".toList)) :=
      .line (by decide)
    rw [String.ofList_toList, ← hcontent] at hline
    exact ⟨_, _, _, hlines, by decide, by decide, hline⟩
  have hnone (e : PaletteError) : ¬ FirstFault (lines sound.toList) e := by
    have hsound : ∀ c ∈ said (lines sound.toList), Sound c := by decide
    exact fun h => h.not_sound hsound
  refine ⟨hfault, (hload text).1 _ hfault, hnone, ?_⟩
  rw [(hload sound).2 hnone, (hbuild _).2]
  have hcollected : (collected (said (lines sound.toList)) : Builder .rgb) =
      ⟨[("red", ⟨0xFE0000FF⟩)], [("red", "crimson"), ("red", "red")]⟩ := by decide
  rw [hcollected]
  have hfirst : [("red", "crimson"), ("red", "red")] = [] ++ ("red", "crimson") :: [("red", "red")] := rfl
  exact .aliasOf (by decide) hfirst Builder.aliasesFit_nil (.unknown (by decide))

end ColorWords.Palette
