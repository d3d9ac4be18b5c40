import ColorWords.Token
import Mathlib.Data.List.Basic

/-! # Tokens of composed texts

A character that no token has splits the tokens of a text, and a text of token characters
is one token. Words put together with spaces are therefore the tokens of the result.
-/
namespace ColorWords

namespace Token
variable {isPart : Char → Bool} {c : Char}

theorem extendFirst_ne_nil (offset : ℕ) (tokens : List Token) : extendFirst c offset tokens ≠ [] := by
  cases tokens with
  | nil => simp [extendFirst]
  | cons t rest => simp [extendFirst]

theorem extendFirst_append (offset : ℕ) {tokens : List Token} (h : tokens ≠ []) (rest : List Token) :
    extendFirst c offset (tokens ++ rest) = extendFirst c offset tokens ++ rest := by
  cases tokens with
  | nil => exact absurd rfl h
  | cons t later => rfl

theorem scan_ne_nil (offset : ℕ) {text : List Char} (h : text.head?.any isPart = true) :
    scan isPart offset text ≠ [] := by
  cases text with
  | nil => cases h
  | cons c rest =>
    change isPart c = true at h
    rw [scan, h]
    by_cases hnext : rest.head?.any isPart = true
    · simp only [hnext, Bool.not_true, Bool.false_eq_true, if_true, if_false]
      exact extendFirst_ne_nil _ _
    · simp [hnext]

/-- A separator ends the tokens before it and leaves those after it alone. -/
theorem scan_append (hc : isPart c = false) (offset : ℕ) (before after : List Char) :
    scan isPart offset (before ++ c :: after) =
      scan isPart offset before ++ scan isPart (offset + Text.byteSize before + c.utf8Size) after := by
  induction before generalizing offset with
  | nil => simp [scan, hc, Text.byteSize]
  | cons d before ih =>
    have hhead : (before ++ c :: after).head?.any isPart = before.head?.any isPart := by
      cases before with
      | nil => simp [hc]
      | cons e rest => rfl
    have hoffset : offset + d.utf8Size + Text.byteSize before + c.utf8Size =
        offset + Text.byteSize (d :: before) + c.utf8Size := by
      rw [Text.byteSize, Nat.add_assoc offset]
    rw [List.cons_append, scan, hhead, ih, hoffset, scan]
    by_cases hd : isPart d = true
    · by_cases hnext : before.head?.any isPart = true
      · simp only [hd, hnext, Bool.not_true, Bool.false_eq_true, if_true, if_false]
        exact extendFirst_append _ (scan_ne_nil _ hnext) _
      · simp [hd, hnext]
    · simp [hd]

theorem mem_extendFirst {t : Token} {offset : ℕ} {tokens : List Token} (h : t ∈ extendFirst c offset tokens) :
    t.chars = [c] ∨ (∃ u ∈ tokens, t.chars = c :: u.chars) ∨ t ∈ tokens := by
  cases tokens with
  | nil =>
    obtain rfl := List.mem_singleton.mp h
    exact .inl rfl
  | cons u rest =>
    rcases List.mem_cons.mp h with rfl | h
    · exact .inr (.inl ⟨u, List.mem_cons_self, rfl⟩)
    · exact .inr (.inr (List.mem_cons_of_mem u h))

theorem isPart_of_mem_scan {offset : ℕ} {text : List Char} {t : Token} (h : t ∈ scan isPart offset text) :
    t.chars ≠ [] ∧ ∀ c ∈ t.chars, isPart c = true := by
  induction text generalizing offset t with
  | nil => cases h
  | cons c rest ih =>
    have hone (hc : isPart c = true) : [c] ≠ [] ∧ ∀ d ∈ [c], isPart d = true := by
      simp [hc]
    rw [scan] at h
    by_cases hc : isPart c = true
    · by_cases hnext : rest.head?.any isPart = true
      · simp only [hc, hnext, Bool.not_true, Bool.false_eq_true, if_true, if_false] at h
        rcases mem_extendFirst h with heq | ⟨u, hu, heq⟩ | hmem
        · rw [heq]
          exact hone hc
        · rw [heq]
          exact ⟨List.cons_ne_nil c _, List.forall_mem_cons.mpr ⟨hc, (ih hu).2⟩⟩
        · exact ih hmem
      · simp only [hc, hnext, Bool.not_true, Bool.false_eq_true, if_false] at h
        rcases List.mem_cons.mp h with rfl | h
        · exact hone hc
        · exact ih h
    · simp only [hc, Bool.not_false, if_true] at h
      exact ih h

theorem scan_eq_singleton {text : List Char} (hne : text ≠ []) (h : ∀ c ∈ text, isPart c = true) (offset : ℕ) :
    scan isPart offset text = [⟨text, offset⟩] := by
  induction text generalizing offset with
  | nil => exact absurd rfl hne
  | cons c rest ih =>
    obtain ⟨hc, hrest⟩ := List.forall_mem_cons.mp h
    cases rest with
    | nil => simp [scan, hc]
    | cons d later =>
      have hd : (d :: later).head?.any isPart = true := hrest d List.mem_cons_self
      rw [scan, ih (List.cons_ne_nil d later) hrest, hc, hd]
      rfl

theorem chars_extendFirst (offset offset' : ℕ) {tokens tokens' : List Token}
    (h : tokens.map chars = tokens'.map chars) :
    (extendFirst c offset tokens).map chars = (extendFirst c offset' tokens').map chars := by
  cases tokens with
  | nil =>
    obtain rfl := List.map_eq_nil_iff.mp h.symm
    rfl
  | cons t rest =>
    cases tokens' with
    | nil => cases h
    | cons u later =>
      obtain ⟨hhead, htail⟩ := List.cons.inj h
      simp only [extendFirst, List.map_cons, hhead, htail]

/-- Offsets do not show in the characters of tokens. -/
theorem chars_scan (offset offset' : ℕ) (text : List Char) :
    (scan isPart offset text).map chars = (scan isPart offset' text).map chars := by
  induction text generalizing offset offset' with
  | nil => rfl
  | cons c rest ih =>
    have hlater := ih (offset + c.utf8Size) (offset' + c.utf8Size)
    rw [scan, scan]
    by_cases hc : isPart c = true
    · by_cases hnext : rest.head?.any isPart = true
      · simp only [hc, hnext, Bool.not_true, Bool.false_eq_true, if_true, if_false]
        exact chars_extendFirst _ _ hlater
      · simp only [hc, hnext, Bool.not_true, Bool.false_eq_true, if_false, List.map_cons, hlater]
    · simp only [hc, Bool.not_false, if_true, hlater]

end Token

namespace Grammar
variable (g : Grammar)

def words (text : List Char) : List (List Char) := (g.tokens text).map Token.chars

theorem meanings_eq (text : List Char) : g.meanings text = (g.words text).map g.classify := by
  rw [meanings, words, List.map_map]
  rfl

def IsWord (word : List Char) : Prop := word ≠ [] ∧ ∀ c ∈ word, g.isTokenChar c = true

variable {g}

theorem isWord_of_tokens {word : List Char} {offset : ℕ} (h : g.tokens word = [⟨word, offset⟩]) :
    g.IsWord word := by
  have hmem : (⟨word, offset⟩ : Token) ∈ g.tokens word := by
    rw [h]
    exact List.mem_singleton_self _
  exact Token.isPart_of_mem_scan hmem

theorem words_of_isWord {word : List Char} (h : g.IsWord word) : g.words word = [word] := by
  rw [words, tokens, Token.scan_eq_singleton h.1 h.2]
  rfl

theorem isTokenChar_space : g.isTokenChar ' ' = false := by
  obtain ⟨⟨compounds, weights, decimals⟩, _, _⟩ := g
  cases weights <;> cases decimals <;> rfl

theorem words_append_cons {c : Char} (hc : g.isTokenChar c = false) (before after : List Char) :
    g.words (before ++ c :: after) = g.words before ++ g.words after := by
  rw [words, tokens, Token.scan_append hc, List.map_append]
  exact congrArg (g.words before ++ ·) (Token.chars_scan _ 0 after)

theorem words_append_space (before after : List Char) :
    g.words (before ++ ' ' :: after) = g.words before ++ g.words after := words_append_cons isTokenChar_space before after

/-- Words before a text are tokens before those of the text. -/
theorem words_intercalate_append {texts : List String} (h : ∀ t ∈ texts, g.IsWord t.toList) (last : String) :
    g.words (" ".intercalate (texts ++ [last])).toList = texts.map String.toList ++ g.words last.toList := by
  induction texts with
  | nil => rw [List.nil_append, String.intercalate_singleton, List.map_nil, List.nil_append]
  | cons t rest ih =>
    obtain ⟨ht, hrest⟩ := List.forall_mem_cons.mp h
    obtain ⟨u, later, hlater⟩ := List.exists_cons_of_ne_nil (List.append_ne_nil_of_right_ne_nil rest (List.cons_ne_nil last []))
    have hjoin : (" ".intercalate (t :: u :: later)).toList =
        t.toList ++ ' ' :: (" ".intercalate (u :: later)).toList := by
      rw [String.intercalate_cons_cons, String.toList_append, String.toList_append, List.append_assoc]
      rfl
    rw [List.cons_append, hlater, hjoin, words_append_space, words_of_isWord ht, ← hlater, ih hrest]
    rfl

/-- Words put together with spaces are the tokens of the result. -/
theorem words_intercalate {texts : List String} (h : ∀ t ∈ texts, g.IsWord t.toList) :
    g.words (" ".intercalate texts).toList = texts.map String.toList := by
  obtain rfl | ⟨init, last, rfl⟩ := List.eq_nil_or_concat texts
  · rfl
  · rw [List.concat_eq_append] at h ⊢
    obtain ⟨hinit, hlast⟩ := List.forall_mem_append.mp h
    rw [words_intercalate_append hinit, words_of_isWord (hlast last List.mem_cons_self), List.map_append]
    rfl

end Grammar
end ColorWords
