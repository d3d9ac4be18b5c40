import ColorWords.Proofs.Exchange
import ColorWords.Proofs.Line

/-! # What a literal may be

The grammar of literals is given apart from the reader: the values of digits, the long form
of a short literal, and the bytes that pairs of digits spell. The reader accepts just that,
and looks for a bad digit before it counts the digits.
-/
namespace ColorWords.Hex
open Layout Line Text

/-! ## The grammar -/

def alphabet : List Char := "0123456789abcdef".toList

def digitValue (c : Char) : ℕ := alphabet.idxOf c.toLower

def lengths : List ℕ := [3, 4, 6, 8]

def doubled (digits : List Char) : List Char := digits.flatMap fun c => [c, c]

def inPairs (digits : List Char) : List Char := if digits.length ≤ 4 then doubled digits else digits

/-- The eight digits that a literal stands for; one without digits for alpha is opaque. -/
def longForm (digits : List Char) : List Char :=
  if (inPairs digits).length ≤ 6 then inPairs digits ++ ['f', 'e'] else inPairs digits

def pairValues : List Char → List ℕ
  | high :: low :: rest => (16 * digitValue high + digitValue low) :: pairValues rest
  | _ => []

structure Spells (digits : List Char) (c : Rgb) : Prop where
  stored : c.Stored
  pairs : ∃ a, pairValues (longForm digits) =
    [(c.byte .first).toNat, (c.byte .second).toNat, (c.byte .third).toNat, a] ∧ c.alphaByte.toNat = a - a % 2

/-! ## Digits -/

variable {c : Char} {digits : List Char} {color : Rgb}

set_option maxRecDepth 2000

def digitByte (c : Char) : UInt8 := (digitValue c).toUInt8

theorem toNat_lt_of_hexDigit (h : HexDigit c) : c.toNat < 128 := by
  have hbound {last : Char} (hlast : last.toNat < 128) (hle : c ≤ last) : c.toNat < 128 :=
    lt_of_le_of_lt (show c.toNat ≤ last.toNat from hle) hlast
  rcases h with ⟨-, h⟩ | ⟨-, h⟩ | ⟨-, h⟩ <;> exact hbound (by decide) h

theorem forall_ascii {p : Char → Prop} (h : ∀ n : Fin 128, p (Char.ofNat n)) (hc : c.toNat < 128) : p c := by
  have hp := h ⟨c.toNat, hc⟩
  rwa [Char.ofNat_toNat] at hp

theorem digit?_eq (c : Char) : digit? c = if isHexDigit c then some (digitByte c) else none := by
  by_cases hc : c.toNat < 128
  · exact forall_ascii (p := fun c => digit? c = if isHexDigit c then some (digitByte c) else none)
      (by decide) hc
  · have hrange {first last : Char} (hdigit : first ≤ c ∧ c ≤ last → HexDigit c) : ¬ (first ≤ c ∧ c ≤ last) :=
      fun h => hc (toNat_lt_of_hexDigit (hdigit h))
    rw [if_neg (mt (toNat_lt_of_hexDigit ∘ isHexDigit_iff.mp) hc), digit?, if_neg (hrange .inl),
      if_neg (hrange (.inr ∘ .inl)), if_neg (hrange (.inr ∘ .inr))]

theorem digitValue_lt (h : HexDigit c) : digitValue c < 16 :=
  forall_ascii (p := fun c => isHexDigit c = true → digitValue c < 16) (by decide) (toNat_lt_of_hexDigit h)
    (isHexDigit_iff.mpr h)

theorem mapM_digit? (digits : List Char) :
    digits.mapM digit? = if digits.all isHexDigit then some (digits.map digitByte) else none := by
  induction digits with
  | nil => rfl
  | cons c rest ih =>
    rw [List.mapM_cons, ih, digit?_eq, List.all_cons]
    cases isHexDigit c <;> cases rest.all isHexDigit <;> rfl

/-! ## Colors of digits -/

theorem isSome_ofDigits? (values : List UInt8) : (ofDigits? values).isSome = true ↔ values.length ∈ lengths := by
  rcases values with _ | ⟨_, _ | ⟨_, _ | ⟨_, _ | ⟨_, _ | ⟨_, _ | ⟨_, _ | ⟨_, _ | ⟨_, _ | ⟨_, rest⟩⟩⟩⟩⟩⟩⟩⟩⟩ <;>
    simp [ofDigits?, lengths]

/-- A literal is read as its long form. -/
theorem ofDigits?_longForm (h : digits.length ∈ lengths) :
    ofDigits? ((longForm digits).map digitByte) = ofDigits? (digits.map digitByte) := by
  rcases digits with _ | ⟨_, _ | ⟨_, _ | ⟨_, _ | ⟨_, _ | ⟨_, _ | ⟨_, _ | ⟨_, _ | ⟨_, _ | ⟨_, rest⟩⟩⟩⟩⟩⟩⟩⟩⟩ <;>
    first | rfl | simp [lengths] at h

theorem length_longForm (h : digits.length ∈ lengths) : (longForm digits).length = 8 := by
  simp only [lengths, List.mem_cons, List.not_mem_nil, or_false] at h
  rcases h with h | h | h | h <;> simp [longForm, inPairs, doubled, h]

theorem hexDigit_inPairs (h : ∀ c ∈ digits, HexDigit c) : ∀ c ∈ inPairs digits, HexDigit c := by
  rw [inPairs]
  split
  case isTrue =>
    intro c hc
    obtain ⟨d, hd, hcd⟩ := List.mem_flatMap.mp hc
    obtain rfl : c = d := by simpa using hcd
    exact h c hd
  case isFalse => exact h

theorem hexDigit_longForm (h : ∀ c ∈ digits, HexDigit c) : ∀ c ∈ longForm digits, HexDigit c := by
  rw [longForm]
  split
  case isTrue =>
    have halpha : ∀ c ∈ ['f', 'e'], HexDigit c := by simp [← isHexDigit_iff, isHexDigit]
    exact List.forall_mem_append.mpr ⟨hexDigit_inPairs h, halpha⟩
  case isFalse => exact hexDigit_inPairs h

theorem pair_digitByte {high low : Char} (hhigh : HexDigit high) (hlow : HexDigit low) :
    (pair (digitByte high) (digitByte low)).toNat = 16 * digitValue high + digitValue low :=
  pair_toNat (digitValue_lt hhigh) (digitValue_lt hlow)

/-- Literals with good digits and as many as needed are read as the color that they spell. -/
theorem exists_spells (hdigits : ∀ c ∈ digits, HexDigit c) (hlength : digits.length ∈ lengths) :
    ∃ color, ofDigits? (digits.map digitByte) = some color ∧ Spells digits color := by
  rw [← ofDigits?_longForm hlength]
  have hlongDigits := hexDigit_longForm hdigits
  match hlong : longForm digits, length_longForm hlength with
  | [r, r', g, g', b, b', a, a'], _ =>
    simp only [hlong, List.forall_mem_cons] at hlongDigits
    obtain ⟨hr, hr', hg, hg', hb, hb', ha, ha', -⟩ := hlongDigits
    obtain ⟨hred, hgreen, hblue, halpha⟩ := Rgb.byteAt_ofBytes (pair (digitByte r) (digitByte r'))
      (pair (digitByte g) (digitByte g')) (pair (digitByte b) (digitByte b')) (pair (digitByte a) (digitByte a'))
    refine ⟨_, rfl, Rgb.stored_ofBytes _ _ _ _, 16 * digitValue a + digitValue a', ?_, ?_⟩
    · simp only [hlong, pairValues, Color.byte, Channel.shift, hred, hgreen, hblue, UInt8.toNat_toUInt32,
        pair_digitByte hr hr', pair_digitByte hg hg', pair_digitByte hb hb']
    · rw [← pair_digitByte ha ha', Color.alphaByte, alphaByte_eq, halpha, UInt32.and_assoc, UInt32.and_self,
        and_opaqueByte_toNat (by rw [UInt8.toNat_toUInt32]; exact UInt8.toNat_lt _), UInt8.toNat_toUInt32]

theorem Spells.unique {other : Rgb} (h : Spells digits color) (hother : Spells digits other) : color = other := by
  obtain ⟨a, hpairs, halpha⟩ := h.pairs
  obtain ⟨a', hpairs', halpha'⟩ := hother.pairs
  rw [hpairs] at hpairs'
  simp only [List.cons.injEq, and_true, UInt32.toNat_inj] at hpairs'
  obtain ⟨hfirst, hsecond, hthird, rfl⟩ := hpairs'
  refine h.stored.eq_of_storedByte hother.stored fun shift hshift => ?_
  rw [h.stored.storedByte_eq, hother.stored.storedByte_eq]
  simp only [byteShifts, List.mem_cons, List.not_mem_nil, or_false] at hshift
  rcases hshift with rfl | rfl | rfl | rfl
  · exact congrArg _ hfirst
  · exact congrArg _ hsecond
  · exact congrArg _ hthird
  · rw [Color.stored_iff.mp h.stored, Color.stored_iff.mp hother.stored, halpha, halpha']

theorem ofDigits?_eq_some_iff (hdigits : ∀ c ∈ digits, HexDigit c) :
    ofDigits? (digits.map digitByte) = some color ↔ digits.length ∈ lengths ∧ Spells digits color := by
  constructor
  · intro h
    have hlength : digits.length ∈ lengths := by
      have hsome := (isSome_ofDigits? (digits.map digitByte)).mp (by rw [h]; rfl)
      rwa [List.length_map] at hsome
    obtain ⟨found, hfound, hspells⟩ := exists_spells hdigits hlength
    obtain rfl := Option.some.inj (hfound.symm.trans h)
    exact ⟨hlength, hspells⟩
  · rintro ⟨hlength, hspells⟩
    obtain ⟨found, hfound, hfoundSpells⟩ := exists_spells hdigits hlength
    rw [hfound, hfoundSpells.unique hspells]

/-! ## Reading -/

variable {text inner : List Char}

/-- The outcome of reading a text that is `inner` without the white space at its ends. -/
inductive Outcome (inner : List Char) : Except HexError Rgb → Prop
  | empty (h : inner = []) : Outcome inner (.error .empty)
  | badDigit (hne : inner ≠ []) (hbad : ∃ c ∈ dropSign inner, ¬ HexDigit c) :
      Outcome inner (.error (.badDigit (.ofList inner)))
  | badLength (hne : inner ≠ []) (hdigits : ∀ c ∈ dropSign inner, HexDigit c)
      (hlength : (dropSign inner).length ∉ lengths) : Outcome inner (.error (.badLength (dropSign inner).length))
  | color {color : Rgb} (hdigits : ∀ c ∈ dropSign inner, HexDigit c) (hlength : (dropSign inner).length ∈ lengths)
      (hspells : Spells (dropSign inner) color) : Outcome inner (.ok color)

theorem outcome_ofChars (h : Trimmed text inner) : Outcome inner (ofChars text) := by
  obtain rfl := h.eq_trim
  simp only [ofChars, mapM_digit?, List.isEmpty_iff]
  split
  case isTrue hempty => exact .empty hempty
  case isFalse hne =>
    by_cases hall : (dropSign (trim text)).all isHexDigit = true
    · have hdigits : ∀ c ∈ dropSign (trim text), HexDigit c := fun c hc =>
        isHexDigit_iff.mp (List.all_eq_true.mp hall c hc)
      simp only [if_pos hall]
      split
      case h_1 color hcolor =>
        obtain ⟨hlength, hspells⟩ := (ofDigits?_eq_some_iff hdigits).mp hcolor
        exact .color hdigits hlength hspells
      case h_2 hnone =>
        rw [List.length_map]
        refine .badLength hne hdigits fun hlength => ?_
        rw [← List.length_map digitByte, ← isSome_ofDigits?, hnone] at hlength
        exact Bool.false_ne_true hlength
    · simp only [if_neg hall]
      refine .badDigit hne ?_
      simpa [isHexDigit_iff] using hall

/-- The outcomes by the conditions that decide between them. -/
theorem Outcome.conditions {r : Except HexError Rgb} (h : Outcome inner r) :
    (r = .error .empty ↔ inner = []) ∧
      (∀ literal, r = .error (.badDigit literal) ↔
        inner ≠ [] ∧ (∃ c ∈ dropSign inner, ¬ HexDigit c) ∧ literal = .ofList inner) ∧
      (∀ n, r = .error (.badLength n) ↔ inner ≠ [] ∧ (∀ c ∈ dropSign inner, HexDigit c) ∧
        n = (dropSign inner).length ∧ n ∉ lengths) ∧
      ∀ color, r = .ok color ↔ (∀ c ∈ dropSign inner, HexDigit c) ∧ (dropSign inner).length ∈ lengths ∧
        Spells (dropSign inner) color := by
  have hempty : (dropSign []).length ∉ lengths := by decide
  cases h with
  | empty h => grind
  | badDigit hne hbad => grind
  | badLength hne hdigits hlength => grind
  | color hdigits hlength hspells => grind [Spells.unique]

/-! ## Case -/

theorem toLower_of_not_ascii (h : ¬ c.toNat < 128) : c.toLower = c := by
  rw [Char.toLower, dif_neg]
  rintro ⟨-, hle⟩
  have hnat : c.toNat ≤ 'Z'.toNat := hle
  exact h (hnat.trans_lt (by decide))

/-- What is so for every ASCII character in place of its lower case is so for every character. -/
theorem apply_toLower {α : Type} {f : Char → α} (h : ∀ n : Fin 128, f (Char.ofNat n).toLower = f (Char.ofNat n))
    (c : Char) : f c.toLower = f c := by
  by_cases hc : c.toNat < 128
  · exact forall_ascii (p := fun c => f c.toLower = f c) h hc
  · rw [toLower_of_not_ascii hc]

theorem trimmed_map_toLower (h : Trimmed text inner) : Trimmed (text.map Char.toLower) (inner.map Char.toLower) := by
  have hblank := apply_toLower (f := isBlank) (by decide)
  obtain ⟨before, after, rfl, hbefore, hafter⟩ := h.split
  refine ⟨⟨before.map Char.toLower, after.map Char.toLower, by simp, ?_, ?_⟩, ?_, ?_⟩
  · simpa [hblank] using hbefore
  · simpa [hblank] using hafter
  · simpa [hblank, List.head?_map] using h.first
  · simpa [hblank, List.getLast?_map] using h.last

theorem dropSign_cons (hc : c ≠ '#') (rest : List Char) : dropSign (c :: rest) = c :: rest :=
  dropSign.eq_2 _ fun _ h => hc (List.cons.inj h).1

theorem dropSign_map_toLower (text : List Char) :
    dropSign (text.map Char.toLower) = (dropSign text).map Char.toLower := by
  have hsign := apply_toLower (f := fun c => decide (c = '#')) (by decide)
  simp only [decide_eq_decide] at hsign
  cases text with
  | nil => rfl
  | cons c rest =>
    by_cases hc : c = '#'
    · subst hc
      rfl
    · rw [dropSign_cons hc, List.map_cons, dropSign_cons (mt (hsign c).mp hc)]

theorem hexDigit_map_toLower (digits : List Char) :
    (∀ c ∈ digits.map Char.toLower, HexDigit c) ↔ ∀ c ∈ digits, HexDigit c := by
  have hdigit := apply_toLower (f := isHexDigit) (by decide)
  simp [← isHexDigit_iff, hdigit]

theorem pairValues_map_toLower (digits : List Char) : pairValues (digits.map Char.toLower) = pairValues digits := by
  have hvalue := apply_toLower (f := digitValue) (by decide)
  fun_induction pairValues digits with
  | case1 high low rest ih => simp [pairValues, hvalue, ih]
  | case2 digits hshort =>
    rcases digits with _ | ⟨_, _ | ⟨high, rest⟩⟩
    · rfl
    · rfl
    · exact (hshort _ _ _ rfl).elim

theorem longForm_map_toLower (digits : List Char) :
    longForm (digits.map Char.toLower) = (longForm digits).map Char.toLower := by
  have hpairs : inPairs (digits.map Char.toLower) = (inPairs digits).map Char.toLower := by
    simp only [inPairs, List.length_map]
    split
    · simp [doubled, List.flatMap_map, List.map_flatMap]
    · rfl
  simp only [longForm, hpairs, List.length_map]
  split
  · rw [List.map_append]
    rfl
  · rfl

theorem spells_map_toLower : Spells (digits.map Char.toLower) color ↔ Spells digits color := by
  have hvalues : pairValues (longForm (digits.map Char.toLower)) = pairValues (longForm digits) := by
    rw [longForm_map_toLower, pairValues_map_toLower]
  constructor
  · rintro ⟨hstored, hpairs⟩
    exact ⟨hstored, by rwa [hvalues] at hpairs⟩
  · rintro ⟨hstored, hpairs⟩
    exact ⟨hstored, by rwa [hvalues]⟩

/-- In lower case a text is read as it is, but for the literal that an error shows. -/
theorem ofChars_map_toLower {r : Except HexError Rgb} (hr : ∀ literal, r ≠ .error (.badDigit literal))
    (text : List Char) : ofChars (text.map Char.toLower) = r ↔ ofChars text = r := by
  have htrimmed := trimmed_trim text
  obtain ⟨hempty, -, hlength, hok⟩ := (outcome_ofChars htrimmed).conditions
  obtain ⟨hempty', -, hlength', hok'⟩ := (outcome_ofChars (trimmed_map_toLower htrimmed)).conditions
  simp only [dropSign_map_toLower, hexDigit_map_toLower, spells_map_toLower, List.length_map, ne_eq,
    List.map_eq_nil_iff] at hempty' hlength' hok'
  match r with
  | .error .empty => rw [hempty, hempty']
  | .error (.badDigit literal) => exact (hr literal rfl).elim
  | .error (.badLength n) => rw [hlength, hlength']
  | .ok color => rw [hok, hok']

/-! ## Short literals -/

theorem length_doubled (digits : List Char) : (doubled digits).length = 2 * digits.length := by
  simp [doubled]
  omega

/-- A short literal spells the same color as its digits doubled. -/
theorem spells_doubled (h : digits.length = 3 ∨ digits.length = 4) :
    Spells (doubled digits) color ↔ Spells digits color := by
  have hlength := length_doubled digits
  have hlong : longForm (doubled digits) = longForm digits := by
    have hshort : inPairs digits = doubled digits := if_pos (by omega)
    have hpairs : inPairs (doubled digits) = doubled digits := if_neg (by omega)
    rw [longForm, longForm, hpairs, hshort]
  constructor
  · rintro ⟨hstored, hpairs⟩
    exact ⟨hstored, by rwa [hlong] at hpairs⟩
  · rintro ⟨hstored, hpairs⟩
    exact ⟨hstored, by rwa [hlong]⟩

theorem hexDigit_doubled (digits : List Char) : (∀ c ∈ doubled digits, HexDigit c) ↔ ∀ c ∈ digits, HexDigit c := by
  simp [doubled]

theorem ofChars_doubled {text' inner' : List Char} (h : Trimmed text inner) (h' : Trimmed text' inner')
    (hshort : (dropSign inner).length = 3 ∨ (dropSign inner).length = 4)
    (hdoubled : dropSign inner' = doubled (dropSign inner)) (color : Rgb) :
    ofChars text = .ok color ↔ ofChars text' = .ok color := by
  have hlengths : (dropSign inner).length ∈ lengths ∧ (dropSign inner').length ∈ lengths := by
    have hlength : (dropSign inner').length = 2 * (dropSign inner).length := by rw [hdoubled, length_doubled]
    rcases hshort with h | h <;> simp [hlength, h, lengths]
  obtain ⟨-, -, -, hok⟩ := (outcome_ofChars h).conditions
  obtain ⟨-, -, -, hok'⟩ := (outcome_ofChars h').conditions
  rw [hok, hok', and_iff_right hlengths.1, and_iff_right hlengths.2, hdoubled, hexDigit_doubled,
    spells_doubled hshort]

end ColorWords.Hex

namespace ColorWords
open Hex Layout Line Text

/-- A literal is read by its grammar. Without the white space at its ends it is `inner`: it is
empty, or has a bad digit, or as many digits as no literal has, or spells the color that is
read, and this is decided in that order. Case does not matter but for the text of a bad
literal in the error, and a short literal spells the color of its digits doubled. -/
theorem Rgb.ofHex_grammar :
    (∀ text : String, ∃ inner, Trimmed text.toList inner ∧
      (Rgb.ofHex text = .error .empty ↔ inner = []) ∧
      (∀ literal, Rgb.ofHex text = .error (.badDigit literal) ↔
        inner ≠ [] ∧ (∃ c ∈ dropSign inner, ¬ HexDigit c) ∧ literal = .ofList inner) ∧
      (∀ n, Rgb.ofHex text = .error (.badLength n) ↔ inner ≠ [] ∧ (∀ c ∈ dropSign inner, HexDigit c) ∧
        n = (dropSign inner).length ∧ n ∉ lengths) ∧
      (∀ color, Rgb.ofHex text = .ok color ↔ (∀ c ∈ dropSign inner, HexDigit c) ∧
        (dropSign inner).length ∈ lengths ∧ Spells (dropSign inner) color) ∧
      ((∀ c ∈ dropSign inner, HexDigit c) → (dropSign inner).length ∈ lengths →
        ∃ color, Rgb.ofHex text = .ok color)) ∧
    (∀ text text' : String, text.toList.map Char.toLower = text'.toList.map Char.toLower →
      ∀ r, (∀ literal, r ≠ .error (.badDigit literal)) → (Rgb.ofHex text = r ↔ Rgb.ofHex text' = r)) ∧
    ∀ (text text' : String) (inner inner' : List Char), Trimmed text.toList inner → Trimmed text'.toList inner' →
      (dropSign inner).length = 3 ∨ (dropSign inner).length = 4 → dropSign inner' = doubled (dropSign inner) →
      ∀ color, Rgb.ofHex text = .ok color ↔ Rgb.ofHex text' = .ok color := by
  refine ⟨fun text => ?_, fun text text' hcase r hr => ?_, fun text text' inner inner' h h' => ofChars_doubled h h'⟩
  · have htrimmed := trimmed_trim text.toList
    obtain ⟨hempty, hdigit, hlength, hok⟩ := (outcome_ofChars htrimmed).conditions
    refine ⟨_, htrimmed, hempty, hdigit, hlength, hok, fun hdigits hlengths => ?_⟩
    obtain ⟨color, -, hspells⟩ := exists_spells hdigits hlengths
    exact ⟨color, (hok color).mpr ⟨hdigits, hlengths, hspells⟩⟩
  · rw [Rgb.ofHex, Rgb.ofHex, ← ofChars_map_toLower hr, hcase, ofChars_map_toLower hr]

theorem Rgb.ofHex_grammar_green : Rgb.ofHex " #0F8 " = .ok ⟨0xFE88FF00⟩ ∧
    (Rgb.ofHex " #0f8 " = .ok ⟨0xFE88FF00⟩ ↔ Rgb.ofHex " #0F8 " = .ok ⟨0xFE88FF00⟩) ∧
    (Rgb.ofHex " #0F8 " = .ok ⟨0xFE88FF00⟩ ↔ Rgb.ofHex "00FF88" = .ok ⟨0xFE88FF00⟩) :=
  ⟨by decide, Rgb.ofHex_grammar.2.1 _ _ (by decide) _ (by simp),
    Rgb.ofHex_grammar.2.2 _ _ _ _ (trimmed_trim _) (trimmed_trim _) (by decide) (by decide) _⟩

end ColorWords
