import ColorWords.Description
import ColorWords.Proofs.Table
import Mathlib.Order.Bounds.Basic

/-! # Ranges of descriptions

A slice of a text between two bytes is the longest run of whole characters there. Reading a
range moves its start to the next character first and measures the length from there. So it
reads the longest slice of the range that was asked for when that starts with a character,
and may go on behind the range when it does not.
-/
namespace ColorWords

namespace Text
variable {text part other : List Char} {lo hi n i : ℕ}

/-! ## Slices -/

def Boundary (text : List Char) (i : ℕ) : Prop := ∃ before after, text = before ++ after ∧ byteSize before = i

def IsSlice (text part : List Char) (start stop : ℕ) : Prop :=
  ∃ before after, text = before ++ part ++ after ∧ byteSize before = start ∧ start + byteSize part = stop

/-- The longest slice of whole characters within the bytes from `lo` up to `hi`; it is empty where
no character fits in. -/
structure Longest (text : List Char) (lo hi : ℕ) (part : List Char) : Prop where
  inside : part = [] ∨ ∃ start stop, IsSlice text part start stop ∧ lo ≤ start ∧ stop ≤ hi
  longest : ∀ other start stop, IsSlice text other start stop → lo ≤ start → stop ≤ hi →
    byteSize other ≤ byteSize part

theorem Longest.byteSize_le (h : Longest text lo hi part) (h' : Longest text lo hi other) :
    byteSize part ≤ byteSize other := by
  rcases h.inside with rfl | ⟨start, stop, hslice, hlo, hhi⟩
  · exact Nat.zero_le _
  · exact h'.longest part start stop hslice hlo hhi

/-- No slice of the range that is as long starts later: it would make a longer one together with
the longest. -/
theorem Longest.start_le (h : Longest text lo hi part) {i j k l : ℕ} (hpart : IsSlice text part i j)
    (hother : IsSlice text other k l) (hi' : lo ≤ i) (hl : l ≤ hi) (hsize : byteSize part ≤ byteSize other) :
    k ≤ i := by
  by_contra hlt
  obtain ⟨before, after, htext, hbefore, -⟩ := hpart
  obtain ⟨before', after', htext', hbefore', hstop'⟩ := hother
  have hsame : before ++ (part ++ after) = (before' ++ other) ++ after' := by
    rw [← List.append_assoc, ← htext, htext']
  obtain ⟨m, hm, -⟩ := exists_append_of_byteSize_le hsame (by rw [byteSize_append]; omega)
  have hbytes := congrArg byteSize hm
  rw [byteSize_append, byteSize_append] at hbytes
  have hunion := h.longest m i l ⟨before, after', by rw [htext', hm], hbefore, by omega⟩ hi' hl
  omega

theorem Longest.unique (h : Longest text lo hi part) (h' : Longest text lo hi other) : part = other := by
  have hsize := (h.byteSize_le h').antisymm (h'.byteSize_le h)
  rcases h.inside with rfl | ⟨i, j, hslice, hlo, hhi⟩
  · exact (byteSize_eq_zero.mp hsize.symm).symm
  rcases h'.inside with rfl | ⟨k, l, hslice', hlo', hhi'⟩
  · exact byteSize_eq_zero.mp hsize
  obtain rfl : i = k :=
    (h'.start_le hslice' hslice hlo' hhi hsize.ge).antisymm (h.start_le hslice hslice' hlo hhi' hsize.le)
  obtain ⟨before, after, htext, hbefore, -⟩ := hslice
  obtain ⟨before', after', htext', hbefore', -⟩ := hslice'
  rw [htext, List.append_assoc, List.append_assoc] at htext'
  obtain ⟨-, hrest⟩ := append_inj_of_byteSize htext' (hbefore.trans hbefore'.symm)
  exact (append_inj_of_byteSize hrest hsize).1

/-! ## Cutting texts -/

def firstBoundary (text : List Char) (n : ℕ) : ℕ := byteSize text - byteSize (dropBytes n text)

/-- What is dropped are the characters that start before byte `n`. -/
theorem dropBytes_spec (n : ℕ) (text : List Char) :
    ∃ skipped, text = skipped ++ dropBytes n text ∧ min n (byteSize text) ≤ byteSize skipped ∧
      byteSize skipped < n + 4 ∧
      ∀ before after, text = before ++ after → min n (byteSize text) ≤ byteSize before →
        byteSize skipped ≤ byteSize before := by
  induction text generalizing n with
  | nil => exact ⟨[], by simp [dropBytes], by simp [byteSize], by simp [byteSize], fun _ _ _ _ => Nat.zero_le _⟩
  | cons c rest ih =>
    cases n with
    | zero => exact ⟨[], by simp [dropBytes], by simp, by simp [byteSize], fun _ _ _ _ => Nat.zero_le _⟩
    | succ n =>
      have hpos := c.utf8Size_pos
      have hfour := c.utf8Size_le_four
      obtain ⟨skipped, hrest, hlow, hhigh, hleast⟩ := ih (n + 1 - c.utf8Size)
      refine ⟨c :: skipped, by rw [dropBytes, List.cons_append, ← hrest], ?_, ?_, ?_⟩
      · rw [byteSize, byteSize]
        omega
      · rw [byteSize]
        by_cases hle : n + 1 ≤ c.utf8Size
        · have hnil := hleast [] rest rfl (by simp [hle])
          rw [byteSize] at hnil
          omega
        · omega
      · intro before after htext hbefore
        cases before with
        | nil =>
          rw [byteSize, byteSize] at hbefore
          omega
        | cons d before =>
          obtain ⟨rfl, htail⟩ := List.cons.inj htext
          simp only [byteSize] at hbefore ⊢
          have := hleast before after htail (by omega)
          omega

theorem byteSize_eq_firstBoundary {skipped : List Char} (h : text = skipped ++ dropBytes n text) :
    byteSize skipped = firstBoundary text n := by
  have hsize := congrArg byteSize h
  rw [byteSize_append] at hsize
  rw [firstBoundary]
  omega

theorem isLeast_firstBoundary (n : ℕ) (text : List Char) :
    IsLeast {i | Boundary text i ∧ min n (byteSize text) ≤ i} (firstBoundary text n) ∧ firstBoundary text n < n + 4 := by
  obtain ⟨skipped, htext, hlow, hhigh, hleast⟩ := dropBytes_spec n text
  rw [← byteSize_eq_firstBoundary htext]
  refine ⟨⟨⟨⟨skipped, _, htext, rfl⟩, hlow⟩, ?_⟩, hhigh⟩
  rintro i ⟨⟨before, after, hbefore, rfl⟩, hi⟩
  exact hleast before after hbefore hi

theorem firstBoundary_eq (h : Boundary text (min n (byteSize text))) : firstBoundary text n = min n (byteSize text) :=
  (isLeast_firstBoundary n text).1.unique ⟨⟨h, le_rfl⟩, fun _ hi => hi.2⟩

/-- What is taken is the longest beginning that has no more bytes. -/
theorem takeBytes_spec (n : ℕ) (text : List Char) :
    ∃ rest, text = takeBytes n text ++ rest ∧ byteSize (takeBytes n text) ≤ n ∧
      ∀ before after, text = before ++ after → byteSize before ≤ n →
        byteSize before ≤ byteSize (takeBytes n text) := by
  induction text generalizing n with
  | nil =>
    refine ⟨[], rfl, Nat.zero_le _, fun before after h _ => ?_⟩
    rw [(List.append_eq_nil_iff.mp h.symm).1]
    exact Nat.zero_le _
  | cons c rest ih =>
    by_cases hfits : c.utf8Size ≤ n
    · obtain ⟨tail, hrest, hsize, hlongest⟩ := ih (n - c.utf8Size)
      rw [takeBytes, if_pos hfits]
      refine ⟨tail, by rw [List.cons_append, ← hrest], by rw [byteSize]; omega, fun before after h hn => ?_⟩
      cases before with
      | nil => exact Nat.zero_le _
      | cons d before =>
        obtain ⟨rfl, htail⟩ := List.cons.inj h
        simp only [byteSize] at hn ⊢
        have := hlongest before after htail (by omega)
        omega
    · rw [takeBytes, if_neg hfits]
      refine ⟨c :: rest, rfl, Nat.zero_le _, fun before after h hn => ?_⟩
      cases before with
      | nil => exact Nat.zero_le _
      | cons d before =>
        obtain ⟨rfl, -⟩ := List.cons.inj h
        rw [byteSize] at hn
        omega

theorem takeBytes_of_le (h : byteSize text ≤ n) : takeBytes n text = text := by
  obtain ⟨rest, htext, -, hlongest⟩ := takeBytes_spec n text
  have hall := hlongest text [] (List.append_nil text).symm h
  have hsize := congrArg byteSize htext
  rw [byteSize_append] at hsize
  obtain rfl := byteSize_eq_zero.mp (by omega : byteSize rest = 0)
  rw [List.append_nil] at htext
  exact htext.symm

theorem takeBytes_min (n : ℕ) (text : List Char) : takeBytes (min n (byteSize text)) text = takeBytes n text := by
  rcases le_total n (byteSize text) with hle | hle
  · rw [min_eq_left hle]
  · rw [min_eq_right hle, takeBytes_of_le le_rfl, takeBytes_of_le hle]

theorem isSlice_takeBytes (text : List Char) (n m : ℕ) :
    IsSlice text (takeBytes m (dropBytes n text)) (firstBoundary text n)
      (firstBoundary text n + byteSize (takeBytes m (dropBytes n text))) := by
  obtain ⟨skipped, htext, -⟩ := dropBytes_spec n text
  obtain ⟨rest, hdrop, -⟩ := takeBytes_spec m (dropBytes n text)
  refine ⟨skipped, rest, ?_, byteSize_eq_firstBoundary htext, rfl⟩
  rw [List.append_assoc, ← hdrop, ← htext]

/-- From the first boundary on, as many whole characters as end within the range. -/
theorem longest_takeBytes (hi : ℕ) (hn : min n (byteSize text) ≤ lo) (hlo : lo ≤ firstBoundary text n) :
    Longest text lo hi (takeBytes (hi - firstBoundary text n) (dropBytes n text)) := by
  obtain ⟨skipped, htext, -, -, hleast⟩ := dropBytes_spec n text
  have hskipped := byteSize_eq_firstBoundary htext
  obtain ⟨rest, hdrop, hsize, hlongest⟩ := takeBytes_spec (hi - firstBoundary text n) (dropBytes n text)
  constructor
  · by_cases hfits : firstBoundary text n ≤ hi
    · exact .inr ⟨_, _, isSlice_takeBytes text n _, by omega, by omega⟩
    · exact .inl (byteSize_eq_zero.mp (by omega))
  · rintro other start stop ⟨before, after, hslice, rfl, rfl⟩ hstart hstop
    have hbefore := hleast before (other ++ after) (by rw [hslice, List.append_assoc]) (hn.trans hstart)
    obtain ⟨m, hm, hrest⟩ := exists_append_of_byteSize_le
      (htext.symm.trans (hslice.trans (List.append_assoc _ _ _))) hbefore
    have hbytes := congrArg byteSize hm
    have hlong := hlongest (m ++ other) after (by rw [hrest, List.append_assoc])
    rw [byteSize_append] at hbytes hlong
    omega

def rangeEnd (size start : ℕ) : Option ℕ → ℕ
  | none => size
  | some length => min (start + length) size

theorem slice_eq_takeBytes (text : List Char) (start : ℕ) (length : Option ℕ) :
    slice text start length =
      takeBytes (rangeEnd (byteSize text) (firstBoundary text start) length - firstBoundary text start)
        (dropBytes start text) := by
  obtain ⟨skipped, htext, -⟩ := dropBytes_spec start text
  have hskipped := byteSize_eq_firstBoundary htext
  have hsize := congrArg byteSize htext
  rw [byteSize_append] at hsize
  cases length with
  | none =>
    rw [slice, rangeEnd, takeBytes_of_le]
    omega
  | some n =>
    rw [slice, rangeEnd, ← takeBytes_min n]
    congr 1
    omega

theorem existsUnique_longest (hi : ℕ) (hlo : lo ≤ byteSize text) : ∃! part, Longest text lo hi part := by
  have hfirst := (isLeast_firstBoundary lo text).1.1.2
  rw [min_eq_left hlo] at hfirst
  have hlongest := longest_takeBytes hi (min_le_left lo (byteSize text)) hfirst
  exact ⟨_, hlongest, fun _ h => h.unique hlongest⟩

/-- Moving the start comes first and the length counts from there. -/
theorem longest_slice (text : List Char) (start : ℕ) (length : Option ℕ) :
    Longest text (firstBoundary text start) (rangeEnd (byteSize text) (firstBoundary text start) length)
      (slice text start length) := by
  rw [slice_eq_takeBytes]
  exact longest_takeBytes _ (isLeast_firstBoundary start text).1.1.2 le_rfl

/-- Nothing is moved when the range starts with a character, and without a length it makes no
difference. -/
theorem longest_slice_of_boundary {start : ℕ} {length : Option ℕ}
    (h : Boundary text (min start (byteSize text)) ∨ length = none) :
    Longest text (min start (byteSize text)) (rangeEnd (byteSize text) start length) (slice text start length) := by
  have hsame : rangeEnd (byteSize text) start length = rangeEnd (byteSize text) (firstBoundary text start) length := by
    rcases h with h | rfl
    · rw [firstBoundary_eq h]
      cases length with
      | none => rfl
      | some n =>
        simp only [rangeEnd]
        omega
    · rfl
  rw [slice_eq_takeBytes, hsame]
  exact longest_takeBytes _ le_rfl (isLeast_firstBoundary start text).1.1.2

end Text

namespace Description
open Text
variable {s : Space}

/-- A range is read as the description in its longest slice, if it starts with a character or has no
length. Otherwise its start moves behind the character there, which is by less than four bytes, and its
end moves along. -/
theorem parseRange_longest (table : Table s) (g : Grammar) (text : String) (start : ℕ) (length : Option ℕ) :
    (∀ lo hi, lo ≤ text.utf8ByteSize → ∃! part, Longest text.toList lo hi part) ∧
    (Boundary text.toList (min start text.utf8ByteSize) ∨ length = none →
      ∃ part, Longest text.toList (min start text.utf8ByteSize) (rangeEnd text.utf8ByteSize start length) part ∧
        parseRange table g text start length = parse table g (String.ofList part)) ∧
    ∃ moved part, IsLeast {i | Boundary text.toList i ∧ min start text.utf8ByteSize ≤ i} moved ∧ moved < start + 4 ∧
      Longest text.toList moved (rangeEnd text.utf8ByteSize moved length) part ∧
      parseRange table g text start length = parse table g (String.ofList part) := by
  simp only [← byteSize_toList]
  have hparse : parseRange table g text start length =
      parse table g (String.ofList (slice text.toList start length)) := by
    rw [parseRange, parse, String.toList_ofList]
  refine ⟨fun lo hi hlo => existsUnique_longest hi hlo, fun h => ⟨_, longest_slice_of_boundary h, hparse⟩, ?_⟩
  obtain ⟨hleast, hmoved⟩ := isLeast_firstBoundary start text.toList
  exact ⟨_, _, hleast, hmoved, longest_slice text.toList start length, hparse⟩

theorem parseRange_longest_red :
    let table : Table .rgb := ⟨[("red", ⟨0xFE0000FF⟩)], []⟩
    let text := "é red é"
    Boundary text.toList (min 2 text.utf8ByteSize) ∧
      ∃ part, Longest text.toList (min 2 text.utf8ByteSize) (rangeEnd text.utf8ByteSize 2 (some 6)) part ∧
        parseRange table .extended text 2 (some 6) = parse table .extended (String.ofList part) := by
  intro table text
  have hboundary : Boundary text.toList (min 2 text.utf8ByteSize) := ⟨"é".toList, " red é".toList, by decide, by decide⟩
  exact ⟨hboundary, (parseRange_longest table .extended text 2 (some 6)).2.1 (.inl hboundary)⟩

/-- The range ends before the "d", which is read all the same. -/
theorem parseRange_past_end :
    let table : Table .rgb := ⟨[("red", ⟨0xFE0000FF⟩)], []⟩
    table.Built ∧ Longest "éred".toList 1 (rangeEnd "éred".utf8ByteSize 1 (some 3)) "re".toList ∧
      parse table .extended "re" = .transparent ∧
      parseRange table .extended "éred" 1 (some 3) = ⟨0xFE0000FF⟩ := by
  intro table
  have htable : table.Built := Table.built_of_increasing (by decide)
  have hfirst : firstBoundary "éred".toList 1 = 2 := by decide
  have hlongest : Longest "éred".toList 1 4 "re".toList := by
    have h := longest_takeBytes 4 (by decide : min 1 (byteSize "éred".toList) ≤ 1) (by rw [hfirst]; decide)
    rwa [hfirst, show takeBytes (4 - 2) (dropBytes 1 "éred".toList) = "re".toList by decide] at h
  have hasked : parse table .extended "re" = .transparent := by decide
  have hread : parseRange table .extended "éred" 1 (some 3) = ⟨0xFE0000FF⟩ := by decide
  exact ⟨htable, hlongest, hasked, hread⟩

end Description
end ColorWords
