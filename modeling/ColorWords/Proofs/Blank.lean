import ColorWords.Text.Blank
import Mathlib.Data.List.DropRight

/-! # Trimmed text

White space at the end goes as a run from the right. A text that starts and ends without
white space is its own trimmed form, and every text has one, whatever stands around it.
-/
namespace ColorWords.Text
variable {text inner : List Char} {c : Char}

theorem trimEnd_eq_rdropWhile (text : List Char) : trimEnd text = text.rdropWhile isBlank := by
  induction text with
  | nil => rfl
  | cons c rest ih =>
    rw [trimEnd, ih, List.rdropWhile, List.rdropWhile, List.reverse_cons, List.dropWhile_append]
    cases hrest : rest.reverse.dropWhile isBlank with
    | nil =>
      cases hc : isBlank c <;> simp [hc]
    | cons d kept => simp

theorem trim_eq_self (hfirst : ∀ c ∈ text.head?, isBlank c = false)
    (hlast : ∀ c ∈ text.getLast?, isBlank c = false) : trim text = text := by
  have hstart : text.dropWhile isBlank = text := by
    cases text with
    | nil => rfl
    | cons c rest => exact List.dropWhile_cons_of_neg (Bool.eq_false_iff.mp (hfirst c rfl))
  rw [trim, hstart, trimEnd_eq_rdropWhile, List.rdropWhile_eq_self_iff]
  intro hne
  exact Bool.eq_false_iff.mp (hlast _ (List.getLast?_eq_some_getLast hne))

theorem trim_append_blank (h : isBlank c = true) (text : List Char) : trim (text ++ [c]) = trim text := by
  rw [trim, trim, trimEnd_eq_rdropWhile, trimEnd_eq_rdropWhile, List.dropWhile_append]
  cases htext : text.dropWhile isBlank with
  | nil => simp [h]
  | cons d rest =>
    rw [if_neg (by simp)]
    exact List.rdropWhile_concat_pos _ _ _ h

theorem trim_eq_nil (h : ∀ c ∈ text, isBlank c = true) : trim text = [] := by
  rw [trim, List.dropWhile_eq_nil_iff.mpr h, trimEnd]

structure Trimmed (text inner : List Char) : Prop where
  split : ∃ before after, text = before ++ inner ++ after ∧ (∀ c ∈ before, isBlank c = true) ∧
    ∀ c ∈ after, isBlank c = true
  first : ∀ c ∈ inner.head?, isBlank c = false
  last : ∀ c ∈ inner.getLast?, isBlank c = false

theorem trimmed_trim (text : List Char) : Trimmed text (trim text) := by
  rw [trim, trimEnd_eq_rdropWhile]
  refine ⟨⟨text.takeWhile isBlank, (text.dropWhile isBlank).rtakeWhile isBlank, ?_, ?_, ?_⟩, ?_, ?_⟩
  · rw [List.append_assoc, List.rdropWhile_append_rtakeWhile, List.takeWhile_append_dropWhile]
  · exact fun c hc => List.mem_takeWhile_imp hc
  · exact fun c hc => List.mem_rtakeWhile_imp hc
  · intro c hc
    obtain ⟨rest, hrest⟩ := List.rdropWhile_prefix isBlank (l := text.dropWhile isBlank)
    have hhead := List.head?_dropWhile_not isBlank text
    rw [← hrest, List.head?_append, Option.mem_def.mp hc] at hhead
    exact hhead
  · intro c hc
    obtain ⟨hne, rfl⟩ := List.mem_getLast?_eq_getLast hc
    exact Bool.eq_false_iff.mpr (List.rdropWhile_last_not isBlank _ hne)

/-- White space at both ends does not matter. -/
theorem trim_append_blanks {before after : List Char} (hbefore : ∀ c ∈ before, isBlank c = true)
    (hafter : ∀ c ∈ after, isBlank c = true) (text : List Char) : trim (before ++ text ++ after) = trim text := by
  induction after using List.reverseRecOn with
  | nil => rw [List.append_nil, trim, List.dropWhile_append_of_pos hbefore, trim]
  | append_singleton rest c ih =>
    rw [← List.append_assoc, trim_append_blank (hafter c (by simp))]
    exact ih fun d hd => hafter d (List.mem_append_left [c] hd)

theorem Trimmed.eq_trim (h : Trimmed text inner) : inner = trim text := by
  obtain ⟨before, after, rfl, hbefore, hafter⟩ := h.split
  rw [trim_append_blanks hbefore hafter, trim_eq_self h.first h.last]

end ColorWords.Text
