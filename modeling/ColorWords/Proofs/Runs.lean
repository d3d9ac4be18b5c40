import ColorWords.Proofs.Line
import ColorWords.Proofs.Token

/-! # Tokens as maximal runs

Scanning is a loop that skips what no token has and then takes all that a token has. Its
tokens are the maximal runs of token characters, every one of them once and in order. So
they are those of the parts of a text cut at a separator, and they are found again in any
text that has them with other gaps in between.
-/
namespace ColorWords

namespace Token
open Text Line
variable {isPart : Char → Bool} {offset : ℕ} {text : List Char} {t u : Token} {tokens : List Token}

def stop (t : Token) : ℕ := t.offset + byteSize t.chars

def shift (k : ℕ) (t : Token) : Token := ⟨t.chars, k + t.offset⟩

/-- A token is a run of characters of the class, written in the text at its offset, that no character
of the class precedes or follows. -/
structure IsRun (isPart : Char → Bool) (offset : ℕ) (text : List Char) (t : Token) : Prop where
  ne_nil : t.chars ≠ []
  parts : ∀ c ∈ t.chars, isPart c = true
  maximal : ∃ before after, text = before ++ t.chars ++ after ∧ offset + byteSize before = t.offset ∧
    (∀ c ∈ before.getLast?, isPart c = false) ∧ ∀ c ∈ after.head?, isPart c = false

/-! ## The loop -/

/-- The rounds of the loop: all that is left is a gap, or there is a gap before a run. -/
inductive Split (isPart : Char → Bool) : ℕ → List Char → List Token → Prop where
  | gap {offset : ℕ} {gap : List Char} (hgap : ∀ c ∈ gap, isPart c = false) : Split isPart offset gap []
  | run {offset : ℕ} {gap run rest : List Char} {later : List Token} (hgap : ∀ c ∈ gap, isPart c = false)
      (hne : run ≠ []) (hrun : ∀ c ∈ run, isPart c = true) (hrest : StartsWithout isPart rest)
      (hlater : Split isPart (offset + byteSize gap + byteSize run) rest later) :
      Split isPart offset (gap ++ run ++ rest) (⟨run, offset + byteSize gap⟩ :: later)

theorem scan_gap {gap : List Char} (hgap : ∀ c ∈ gap, isPart c = false) (offset : ℕ) (rest : List Char) :
    scan isPart offset (gap ++ rest) = scan isPart (offset + byteSize gap) rest := by
  induction gap generalizing offset with
  | nil => rfl
  | cons c gap ih =>
    obtain ⟨hc, hgap⟩ := List.forall_mem_cons.mp hgap
    simp [scan, hc, ih hgap, byteSize, Nat.add_assoc]

theorem scan_run {run rest : List Char} (hne : run ≠ []) (hrun : ∀ c ∈ run, isPart c = true)
    (hrest : StartsWithout isPart rest) (offset : ℕ) :
    scan isPart offset (run ++ rest) = ⟨run, offset⟩ :: scan isPart (offset + byteSize run) rest := by
  cases rest with
  | nil => simpa [scan] using scan_eq_singleton hne hrun offset
  | cons c rest =>
    have hc := startsWithout_cons.mp hrest
    simp [scan_append hc, scan_eq_singleton hne hrun, scan, hc]

theorem Split.scan_eq (h : Split isPart offset text tokens) : scan isPart offset text = tokens := by
  induction h with
  | @gap offset gap hgap => simpa [scan] using scan_gap hgap offset []
  | run hgap hne hrun hrest _ ih => rw [List.append_assoc, scan_gap hgap, scan_run hne hrun hrest, ih]

/-- One round: what stands before the first character of the class, and the run that it starts. -/
theorem exists_round (isPart : Char → Bool) (text : List Char) :
    (∀ c ∈ text, isPart c = false) ∨
      ∃ gap run rest, text = gap ++ run ++ rest ∧ (∀ c ∈ gap, isPart c = false) ∧ run ≠ [] ∧
        (∀ c ∈ run, isPart c = true) ∧ StartsWithout isPart rest := by
  induction text with
  | nil => exact .inl (by simp)
  | cons c text ih =>
    by_cases hc : isPart c = true
    · refine .inr ⟨[], c :: text.takeWhile isPart, text.dropWhile isPart, by simp, by simp, by simp, ?_,
        startsWithout_dropWhile _ _⟩
      exact List.forall_mem_cons.mpr ⟨hc, fun d hd => List.mem_takeWhile_imp hd⟩
    · have hc : isPart c = false := by simpa using hc
      rcases ih with hgap | ⟨gap, run, rest, rfl, hgap, hrun⟩
      · exact .inl (List.forall_mem_cons.mpr ⟨hc, hgap⟩)
      · exact .inr ⟨c :: gap, run, rest, by simp, List.forall_mem_cons.mpr ⟨hc, hgap⟩, hrun⟩

theorem exists_split (isPart : Char → Bool) (offset : ℕ) (text : List Char) :
    ∃ tokens, Split isPart offset text tokens := by
  induction hlength : text.length using Nat.strong_induction_on generalizing offset text with
  | _ n ih =>
    rcases exists_round isPart text with hgap | ⟨gap, run, rest, rfl, hgap, hne, hrun, hrest⟩
    · exact ⟨[], .gap hgap⟩
    · have hshorter : rest.length < n := by
        have := List.length_pos_iff.mpr hne
        simp only [List.length_append] at hlength
        omega
      obtain ⟨later, hlater⟩ := ih rest.length hshorter (offset + byteSize gap + byteSize run) rest rfl
      exact ⟨_, .run hgap hne hrun hrest hlater⟩

/-- Scanning is the loop. -/
theorem split_scan (isPart : Char → Bool) (offset : ℕ) (text : List Char) :
    Split isPart offset text (scan isPart offset text) := by
  obtain ⟨tokens, h⟩ := exists_split isPart offset text
  rwa [h.scan_eq]

/-! ## Its tokens -/

/-- A gap stands before a run of what follows a run. -/
theorem IsRun.exists_gap (h : IsRun isPart offset text t) (htext : StartsWithout isPart text) :
    ∃ before after, before ≠ [] ∧ text = before ++ t.chars ++ after ∧ offset + byteSize before = t.offset ∧
      (∀ c ∈ before.getLast?, isPart c = false) ∧ ∀ c ∈ after.head?, isPart c = false := by
  obtain ⟨before, after, rfl, hoffset, hbefore, hafter⟩ := h.maximal
  refine ⟨before, after, ?_, rfl, hoffset, hbefore, hafter⟩
  rintro rfl
  obtain ⟨c, chars, hchars⟩ := List.exists_cons_of_ne_nil h.ne_nil
  rw [hchars] at htext
  have hpart := h.parts c (by simp [hchars])
  rw [startsWithout_cons.mp htext] at hpart
  cases hpart

theorem getLast?_gap {gap : List Char} (hgap : ∀ c ∈ gap, isPart c = false) : ∀ c ∈ gap.getLast?, isPart c = false :=
  fun c hc => hgap c (List.mem_of_getLast? hc)

theorem IsRun.append_left {gap run rest : List Char} (hrest : StartsWithout isPart rest)
    (h : IsRun isPart (offset + byteSize gap + byteSize run) rest t) : IsRun isPart offset (gap ++ run ++ rest) t := by
  obtain ⟨before, after, hne, rfl, hoffset, hbefore, hafter⟩ := h.exists_gap hrest
  refine ⟨h.ne_nil, h.parts, gap ++ run ++ before, after, by simp, ?_, ?_, hafter⟩
  · rw [← hoffset, byteSize_append, byteSize_append]
    omega
  · rwa [List.getLast?_append_of_ne_nil _ hne]

theorem Split.isRun (h : Split isPart offset text tokens) : ∀ t ∈ tokens, IsRun isPart offset text t := by
  induction h with
  | gap => simp
  | run hgap hne hrun hrest _ ih =>
    refine List.forall_mem_cons.mpr ⟨⟨hne, hrun, _, _, rfl, rfl, getLast?_gap hgap, hrest⟩, ?_⟩
    exact fun t ht => (ih t ht).append_left hrest

theorem Split.increasing (h : Split isPart offset text tokens) : tokens.Pairwise fun t u => t.stop < u.offset := by
  induction h with
  | gap => exact .nil
  | run hgap hne hrun hrest hlater ih =>
    refine List.pairwise_cons.mpr ⟨fun u hu => ?_, ih⟩
    obtain ⟨before, _, hne, -, hoffset, -⟩ := (hlater.isRun u hu).exists_gap hrest
    have hpos := Nat.pos_of_ne_zero (mt byteSize_eq_zero.mp hne)
    simp only [stop]
    omega

/-- A character of two texts put together stands in the first of them or in the second. -/
theorem append_cases {a b before after : List Char} {c : Char} (h : a ++ b = before ++ c :: after) :
    (∃ m, a = before ++ c :: m) ∨ ∃ m, before = a ++ m ∧ b = m ++ c :: after := by
  rcases List.append_eq_append_iff.mp h with ⟨m, hbefore, hb⟩ | ⟨m, ha, hafter⟩
  · exact .inr ⟨m, hbefore, hb⟩
  · cases m with
    | nil => exact .inr ⟨[], by simpa using ha.symm, hafter.symm⟩
    | cons d m =>
      obtain ⟨rfl, -⟩ := List.cons.inj hafter
      exact .inl ⟨m, ha⟩

/-- Every character of the class stands in a token. -/
theorem Split.covers (h : Split isPart offset text tokens) {before after : List Char} {c : Char}
    (htext : text = before ++ c :: after) (hc : isPart c = true) :
    ∃ t ∈ tokens, t.offset ≤ offset + byteSize before ∧ offset + byteSize before < t.stop := by
  have hmem : ∀ {gap before m : List Char}, gap = before ++ c :: m → ¬ ∀ d ∈ gap, isPart d = false := by
    rintro _ before m rfl hgap
    rw [hgap c (by simp)] at hc
    cases hc
  induction h generalizing before with
  | gap hgap => exact absurd hgap (hmem htext)
  | @run offset gap run rest later hgap hne hrun hrest _ ih =>
    rcases append_cases htext with ⟨m, hround⟩ | ⟨m, rfl, hlater⟩
    · rcases append_cases hround with ⟨k, hgap'⟩ | ⟨k, rfl, hrun'⟩
      · exact absurd hgap (hmem hgap')
      · have hpos := c.utf8Size_pos
        refine ⟨_, List.mem_cons_self, ?_⟩
        simp only [stop, hrun', byteSize_append, byteSize]
        omega
    · obtain ⟨t, ht, hle, hlt⟩ := ih hlater
      refine ⟨t, List.mem_cons_of_mem _ ht, ?_, ?_⟩
      · simpa only [byteSize_append, Nat.add_assoc] using hle
      · simpa only [byteSize_append, Nat.add_assoc] using hlt

/-- Of two maximal runs one does not start within the other. -/
theorem IsRun.eq_of_overlap (h : IsRun isPart offset text t) (h' : IsRun isPart offset text u)
    (hle : t.offset ≤ u.offset) (hlt : u.offset < t.stop) : t = u := by
  obtain ⟨before, after, htext, hoffset, -, hafter⟩ := h.maximal
  obtain ⟨before', after', htext', hoffset', hbefore', hafter'⟩ := h'.maximal
  simp only [List.append_assoc] at htext htext'
  obtain ⟨m, rfl, hrest⟩ := exists_append_of_byteSize_le (htext.symm.trans htext') (by omega)
  rw [byteSize_append] at hoffset'
  obtain rfl : m = [] := by
    by_contra hm
    obtain ⟨k, hk, -⟩ := exists_append_of_byteSize_le hrest.symm (by rw [stop] at hlt; omega)
    have hlast := hbefore' (m.getLast hm) (by simp [List.getLast?_append, List.getLast?_eq_some_getLast hm])
    rw [h.parts _ (by simp [hk])] at hlast
    cases hlast
  rw [List.nil_append] at hrest
  have hchars : t.chars = u.chars := by
    rw [← (takeWhile_run h.parts hafter).1, hrest, (takeWhile_run h'.parts hafter').1]
  obtain ⟨chars, offset⟩ := t
  obtain ⟨chars', offset'⟩ := u
  simp only [byteSize, Nat.add_zero] at hoffset' hoffset hchars
  rw [hchars, ← hoffset, ← hoffset']

theorem mem_scan_iff : t ∈ scan isPart offset text ↔ IsRun isPart offset text t := by
  have hsplit := split_scan isPart offset text
  refine ⟨hsplit.isRun t, fun h => ?_⟩
  obtain ⟨before, after, htext, hoffset, -⟩ := h.maximal
  obtain ⟨c, chars, hchars⟩ := List.exists_cons_of_ne_nil h.ne_nil
  obtain ⟨u, hu, hle, hlt⟩ := hsplit.covers (show text = before ++ c :: (chars ++ after) by simp [htext, hchars])
    (h.parts c (by simp [hchars]))
  rwa [← (hsplit.isRun u hu).eq_of_overlap h (by omega) (by omega)]

/-! ## Texts put together -/

theorem Split.shift (h : Split isPart offset text tokens) (k : ℕ) :
    Split isPart (k + offset) text (tokens.map (Token.shift k)) := by
  induction h with
  | gap hgap => exact .gap hgap
  | run hgap hne hrun hrest _ ih =>
    rw [← Nat.add_assoc, ← Nat.add_assoc] at ih
    simpa only [List.map_cons, Token.shift, Nat.add_assoc] using Split.run hgap hne hrun hrest ih

theorem scan_shift (isPart : Char → Bool) (k offset : ℕ) (text : List Char) :
    scan isPart (k + offset) text = (scan isPart offset text).map (shift k) :=
  ((split_scan isPart offset text).shift k).scan_eq

end Token

namespace Grammar
open Text
variable {g : Grammar}

def joined (gap : ℕ → List Char) : List (List Char) → List Char
  | [] => []
  | [word] => word
  | word :: next :: rest => word ++ gap rest.length ++ joined gap (next :: rest)

theorem words_gap_append {gap : List Char} (hgap : ∀ c ∈ gap, g.isTokenChar c = false) (text : List Char) :
    g.words (gap ++ text) = g.words text := by
  rw [words, tokens, Token.scan_gap hgap]
  exact Token.chars_scan _ 0 text

theorem words_append_gap {word gap : List Char} (hword : g.IsWord word) (hne : gap ≠ [])
    (hgap : ∀ c ∈ gap, g.isTokenChar c = false) (text : List Char) :
    g.words (word ++ gap ++ text) = word :: g.words text := by
  obtain ⟨c, rest, rfl⟩ := List.exists_cons_of_ne_nil hne
  obtain ⟨hc, hrest⟩ := List.forall_mem_cons.mp hgap
  rw [List.append_assoc, List.cons_append, words_append_cons hc, words_of_isWord hword, words_gap_append hrest]
  rfl

theorem words_joined {gap : ℕ → List Char} (hgap : ∀ i, gap i ≠ [] ∧ ∀ c ∈ gap i, g.isTokenChar c = false)
    {words : List (List Char)} (h : ∀ word ∈ words, g.IsWord word) : g.words (joined gap words) = words := by
  induction words using joined.induct with
  | case1 => rfl
  | case2 word => exact words_of_isWord (h word (by simp))
  | case3 word next rest ih =>
    obtain ⟨hword, hrest⟩ := List.forall_mem_cons.mp h
    rw [joined, words_append_gap hword (hgap _).1 (hgap _).2, ih hrest]

/-- The tokens of a text are its maximal runs of token characters, in order and with a gap between each
two of them, and they have all of its token characters. A separator splits them, and other gaps
leave them as they are. -/
theorem tokens_maximal (g : Grammar) (text : List Char) :
    (∀ t, t ∈ g.tokens text ↔ Token.IsRun g.isTokenChar 0 text t) ∧
    (g.tokens text).Pairwise (fun t u => t.stop < u.offset) ∧
    (∀ before c after, text = before ++ c :: after → g.isTokenChar c = true →
      ∃ t ∈ g.tokens text, t.offset ≤ byteSize before ∧ byteSize before < t.stop) ∧
    (∀ c after, g.isTokenChar c = false →
      g.tokens (text ++ c :: after) = g.tokens text ++ (g.tokens after).map (.shift (byteSize (text ++ [c])))) ∧
    ∀ gap : ℕ → List Char, (∀ i, gap i ≠ [] ∧ ∀ c ∈ gap i, g.isTokenChar c = false) →
      g.words (joined gap (g.words text)) = g.words text := by
  have hsplit := Token.split_scan g.isTokenChar 0 text
  refine ⟨fun t => Token.mem_scan_iff, hsplit.increasing, ?_, ?_, ?_⟩
  · intro before c after htext hc
    simpa only [tokens, Nat.zero_add] using hsplit.covers htext hc
  · intro c after hc
    have hshift := Token.scan_shift g.isTokenChar (byteSize (text ++ [c])) 0 after
    simp only [byteSize_append, byteSize, Nat.add_zero] at hshift ⊢
    rw [tokens, Token.scan_append hc, Nat.zero_add, hshift]
    rfl
  · intro gap hgap
    refine words_joined hgap fun word hword => ?_
    obtain ⟨t, ht, rfl⟩ := List.mem_map.mp hword
    exact Token.isPart_of_mem_scan ht

theorem tokens_maximal_accented :
    let text := "ré∂ blue".toList
    let gap : ℕ → List Char := fun i => List.replicate (i + 1) '→'
    extended.tokens text = [⟨['r'], 0⟩, ⟨"blue".toList, 7⟩] ∧
      Token.IsRun extended.isTokenChar 0 text ⟨"blue".toList, 7⟩ ∧
      extended.isTokenChar 'é' = false ∧
      extended.tokens (text ++ 'é' :: "2 red".toList) =
        extended.tokens text ++ (extended.tokens "2 red".toList).map (.shift (byteSize (text ++ ['é']))) ∧
      (∀ i, gap i ≠ [] ∧ ∀ c ∈ gap i, extended.isTokenChar c = false) ∧
      extended.words (joined gap (extended.words text)) = extended.words text := by
  intro text gap
  obtain ⟨hmem, -, -, happend, hjoined⟩ := tokens_maximal extended text
  have htokens : extended.tokens text = [⟨['r'], 0⟩, ⟨"blue".toList, 7⟩] := by decide
  have hseparator : extended.isTokenChar 'é' = false := by decide
  have hgap : ∀ i, gap i ≠ [] ∧ ∀ c ∈ gap i, extended.isTokenChar c = false := by
    intro i
    refine ⟨by simp [gap], fun c hc => ?_⟩
    rw [List.eq_of_mem_replicate hc]
    decide
  exact ⟨htokens, (hmem _).mp (by simp [htokens]), hseparator, happend _ _ hseparator, hgap, hjoined _ hgap⟩

end Grammar
end ColorWords
