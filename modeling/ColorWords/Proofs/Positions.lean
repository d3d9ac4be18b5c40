import ColorWords.Proofs.Ranges

/-! # Positions in a text

The bytes of a range, found one position after the other. Positions are 64-bit words. A move out of
the words has no result, nor has a loop that makes one or a cut between positions that are out of
order or within a character. Every range has a result all the same: the loops end between the
first byte and the end of the text, and what they cut out is the slice of whole characters.
-/
namespace ColorWords.Text

/-! ## Moving positions -/

def isBoundary (text : String) (i : UInt64) : Bool := String.Pos.Raw.isValid text ⟨i.toNat⟩

def next? (i : UInt64) : Option UInt64 := if i = -1 then none else some (i + 1)

def previous? (i : UInt64) : Option UInt64 := if i = 0 then none else some (i - 1)

theorem next?_eq_some {i j : UInt64} : next? i = some j ↔ j.toNat = i.toNat + 1 := by
  have hlt := i.toNat_lt
  have hlt' := j.toNat_lt
  have hone : (1 : UInt64).toNat = 1 := rfl
  have hlast : i = -1 ↔ i.toNat = 2 ^ 64 - 1 := UInt64.toNat_inj.symm
  rw [next?, Option.ite_none_left_eq_some, Option.some_inj, hlast, ← UInt64.toNat_inj, UInt64.toNat_add, hone]
  omega

theorem previous?_eq_some {i j : UInt64} : previous? i = some j ↔ i.toNat = j.toNat + 1 := by
  have hlt := i.toNat_lt
  have hone : (1 : UInt64).toNat = 1 := rfl
  have hfirst : i = 0 ↔ i.toNat = 0 := UInt64.toNat_inj.symm
  rw [previous?, Option.ite_none_left_eq_some, Option.some_inj, hfirst, ← UInt64.toNat_inj, UInt64.toNat_sub, hone]
  omega

structure Direction where
  move? : UInt64 → Option UInt64
  room : UInt64 → ℕ
  room_lt : ∀ {i j}, move? i = some j → room j < room i

def forward : Direction where
  move? := next?
  room i := 2 ^ 64 - i.toNat
  room_lt {i j} h := by
    have hlt := j.toNat_lt
    have hmove := next?_eq_some.mp h
    omega

def backward : Direction where
  move? := previous?
  room i := i.toNat
  room_lt {i j} h := by
    have hmove := previous?_eq_some.mp h
    omega

def snap? (d : Direction) (text : String) (i : UInt64) : Option UInt64 :=
  if isBoundary text i then some i
  else
    match _ : d.move? i with
    | none => none
    | some j => snap? d text j
termination_by d.room i
decreasing_by exact d.room_lt ‹_›

def saturatingAdd (a b : UInt64) : UInt64 := if a + b < a then -1 else a + b

def size (text : String) : UInt64 := .ofNat text.utf8ByteSize

def limit (text : String) (first : UInt64) : (length : Option UInt64) → UInt64
  | none => size text
  | some n => min (saturatingAdd first n) (size text)

def range? (text : String) (start : UInt64) (length : Option UInt64) : Option (UInt64 × UInt64) := do
  let first ← snap? forward text (min start (size text))
  let last ← snap? backward text (limit text first length)
  return (first, max last first)

def cut? (text : String) (first last : UInt64) : Option ByteArray :=
  if first ≤ last ∧ isBoundary text first ∧ isBoundary text last then
    some (text.toByteArray.extract first.toNat last.toNat)
  else none

variable {text : String} {i k start first last : UInt64} {length : Option UInt64} {d : Direction}

theorem isBoundary_iff : isBoundary text i = true ↔ Boundary text.toList i.toNat := by
  rw [isBoundary, String.Pos.Raw.isValid_eq_true_iff, String.Pos.Raw.isValid_iff_exists_append]
  constructor
  · rintro ⟨before, after, rfl, hi⟩
    refine ⟨before.toList, after.toList, String.toList_append, ?_⟩
    rw [byteSize_toList]
    exact (congrArg String.Pos.Raw.byteIdx hi).symm
  · rintro ⟨before, after, htext, hi⟩
    refine ⟨String.ofList before, String.ofList after, ?_, ?_⟩
    · rw [← String.ofList_append, ← htext, String.ofList_toList]
    · rw [← hi, byteSize_ofList]
      rfl

/-! ## Loops -/

theorem snap?_of_boundary (h : isBoundary text i = true) : snap? d text i = some i := by
  rw [snap?, if_pos h]

theorem snap?_of_move (h : isBoundary text i = false) {j : UInt64} (hmove : d.move? i = some j) :
    snap? d text i = snap? d text j := by
  rw [snap?, if_neg (Bool.eq_false_iff.mp h)]
  split
  case h_1 hnone =>
    rw [hmove] at hnone
    cases hnone
  case h_2 j' hsome =>
    rw [hmove] at hsome
    cases hsome
    rfl

/-- A loop ends at the first boundary on its path. -/
theorem snap?_eq_some (text : String) (d : Direction) (path : ℕ → UInt64) (n : ℕ)
    (hend : isBoundary text (path n) = true)
    (hpath : ∀ m < n, isBoundary text (path m) = false ∧ d.move? (path m) = some (path (m + 1))) :
    snap? d text (path 0) = some (path n) := by
  induction n generalizing path with
  | zero => exact snap?_of_boundary hend
  | succ n ih =>
    obtain ⟨hnot, hmove⟩ := hpath 0 n.succ_pos
    rw [snap?_of_move hnot hmove]
    exact ih (fun m => path (m + 1)) hend fun m hm => hpath (m + 1) (by omega)

theorem snap?_forward (h : IsLeast {j | Boundary text.toList j ∧ i.toNat ≤ j} k.toNat) :
    snap? forward text i = some k := by
  obtain ⟨⟨hk, hik⟩, hleast⟩ := h
  have hword {m : ℕ} (hm : m ≤ k.toNat) : (UInt64.ofNat m).toNat = m :=
    UInt64.toNat_ofNat_of_lt' (hm.trans_lt k.toNat_lt)
  have hrun := snap?_eq_some text forward (fun m => .ofNat (i.toNat + m)) (k.toNat - i.toNat)
  simp only [Nat.add_zero, Nat.add_sub_cancel' hik, UInt64.ofNat_toNat] at hrun
  refine hrun (isBoundary_iff.mpr hk) fun m hm => ⟨?_, next?_eq_some.mpr ?_⟩
  · rw [Bool.eq_false_iff, ne_eq, isBoundary_iff, hword (by omega)]
    intro hboundary
    have := hleast ⟨hboundary, Nat.le_add_right _ m⟩
    omega
  · rw [hword (by omega), hword (by omega), Nat.add_assoc]

theorem snap?_backward (h : IsGreatest {j | Boundary text.toList j ∧ j ≤ i.toNat} k.toNat) :
    snap? backward text i = some k := by
  obtain ⟨⟨hk, hki⟩, hgreatest⟩ := h
  have hword {m : ℕ} (hm : m ≤ i.toNat) : (UInt64.ofNat m).toNat = m :=
    UInt64.toNat_ofNat_of_lt' (hm.trans_lt i.toNat_lt)
  have hrun := snap?_eq_some text backward (fun m => .ofNat (i.toNat - m)) (i.toNat - k.toNat)
  simp only [Nat.sub_zero, Nat.sub_sub_self hki, UInt64.ofNat_toNat] at hrun
  refine hrun (isBoundary_iff.mpr hk) fun m hm => ⟨?_, previous?_eq_some.mpr ?_⟩
  · rw [Bool.eq_false_iff, ne_eq, isBoundary_iff, hword (by omega)]
    intro hboundary
    have := hgreatest ⟨hboundary, Nat.sub_le _ m⟩
    omega
  · rw [hword (by omega), hword (by omega)]
    omega

/-! ## Where a range is cut -/

/-- The range from `start` is cut at `first` and `last`: the loops end there, in order and within the
text, and the limit between them is the one that numbers without bound give. -/
structure Cut (text : String) (start : UInt64) (length : Option UInt64) (first last : UInt64) : Prop where
  start_moved : snap? forward text (min start (size text)) = some first
  limit_exact : (limit text first length).toNat =
    rangeEnd text.utf8ByteSize first.toNat (length.map UInt64.toNat)
  end_moved : snap? backward text (limit text first length) = some last
  range : range? text start length = some (first, last)
  first_boundary : Boundary text.toList first.toNat
  last_boundary : Boundary text.toList last.toNat
  ordered : first ≤ last
  last_le : last ≤ size text

theorem saturatingAdd_toNat (a b : UInt64) : (saturatingAdd a b).toNat = min (a.toNat + b.toNat) (2 ^ 64 - 1) := by
  have ha := a.toNat_lt
  have hb := b.toNat_lt
  have hsum := UInt64.toNat_add a b
  rw [saturatingAdd]
  split_ifs with h
  · have hlt := UInt64.lt_iff_toNat_lt.mp h
    change 2 ^ 64 - 1 = _
    omega
  · have hle := mt UInt64.lt_iff_toNat_lt.mpr h
    omega

theorem size_toNat (htext : text.utf8ByteSize < 2 ^ 64) : (size text).toNat = text.utf8ByteSize :=
  UInt64.toNat_ofNat_of_lt' htext

theorem exists_position (htext : text.utf8ByteSize < 2 ^ 64) {n : ℕ} (h : n ≤ text.utf8ByteSize) :
    ∃ position : UInt64, position.toNat = n :=
  ⟨.ofNat n, UInt64.toNat_ofNat_of_lt' (h.trans_lt htext)⟩

/-- The end of the text is a word, so that a sum that is none is beyond it. -/
theorem limit_toNat (htext : text.utf8ByteSize < 2 ^ 64) (first : UInt64) (length : Option UInt64) :
    (limit text first length).toNat = rangeEnd text.utf8ByteSize first.toNat (length.map UInt64.toNat) := by
  cases length with
  | none => exact size_toNat htext
  | some n =>
    rw [limit, UInt64.toNat_min, saturatingAdd_toNat, size_toNat htext]
    simp only [Option.map_some, rangeEnd]
    omega

section Slices
variable {text part : List Char} {i j : ℕ}

theorem Boundary.le_byteSize (h : Boundary text i) : i ≤ byteSize text := by
  obtain ⟨before, after, rfl, rfl⟩ := h
  rw [byteSize_append]
  exact Nat.le_add_right _ _

theorem IsSlice.boundaries (h : IsSlice text part i j) : Boundary text i ∧ Boundary text j := by
  obtain ⟨before, after, rfl, rfl, rfl⟩ := h
  exact ⟨⟨before, part ++ after, List.append_assoc _ _ _, rfl⟩, ⟨before ++ part, after, rfl, byteSize_append _ _⟩⟩

theorem exists_isSlice (hi : Boundary text i) (hj : Boundary text j) (h : i ≤ j) : ∃ part, IsSlice text part i j := by
  obtain ⟨before, rest, hrest, rfl⟩ := hi
  obtain ⟨upto, after, hafter, rfl⟩ := hj
  obtain ⟨part, rfl, -⟩ := exists_append_of_byteSize_le (hrest.symm.trans hafter) h
  exact ⟨part, before, after, hafter, rfl, (byteSize_append _ _).symm⟩

theorem isSlice_slice (text : List Char) (start : ℕ) (length : Option ℕ) :
    IsSlice text (slice text start length) (firstBoundary text start)
      (firstBoundary text start + byteSize (slice text start length)) := by
  rw [slice_eq_takeBytes]
  exact isSlice_takeBytes text start _

/-- A slice ends at the last boundary of its range. -/
theorem isGreatest_slice (text : List Char) (start : ℕ) (length : Option ℕ) :
    IsGreatest {i | Boundary text i ∧ i ≤ rangeEnd (byteSize text) (firstBoundary text start) length}
      (firstBoundary text start + byteSize (slice text start length)) := by
  have hslice := isSlice_slice text start length
  have hlongest := longest_slice text start length
  have hfirst := hslice.boundaries.1.le_byteSize
  set first := firstBoundary text start
  have hlimit : first ≤ rangeEnd (byteSize text) first length := by
    cases length with
    | none => exact hfirst
    | some n => exact le_min (Nat.le_add_right first n) hfirst
  refine ⟨⟨hslice.boundaries.2, ?_⟩, ?_⟩
  · obtain ⟨rest, -, hsize, -⟩ := takeBytes_spec (rangeEnd (byteSize text) first length - first) (dropBytes start text)
    rw [← slice_eq_takeBytes] at hsize
    omega
  · rintro j ⟨hj, hle⟩
    rcases le_total first j with hfj | hjf
    · obtain ⟨part, hpart⟩ := exists_isSlice hslice.boundaries.1 hj hfj
      have := hlongest.longest part first j hpart le_rfl hle
      obtain ⟨-, -, -, -, rfl⟩ := hpart
      omega
    · exact hjf.trans (Nat.le_add_right _ _)

end Slices

theorem extract_middle {a b c : ByteArray} {i j : ℕ} (hi : i = a.size) (hj : j = a.size + b.size) :
    (a ++ b ++ c).extract i j = b := by
  have hbehind : c.extract (i - (a ++ b).size) (j - (a ++ b).size) = ByteArray.empty := by
    rw [ByteArray.extract_eq_empty_iff, ByteArray.size_append]
    omega
  rw [ByteArray.extract_append, hbehind, ByteArray.append_empty, ByteArray.extract_append_eq_right hi hj]

/-- Between boundaries there are the bytes of whole characters. -/
theorem extract_of_isSlice {part : List Char} {i j : ℕ} (h : IsSlice text.toList part i j) :
    text.toByteArray.extract i j = (String.ofList part).toByteArray := by
  obtain ⟨before, after, htext, hbefore, hpart⟩ := h
  have hparts : text = String.ofList before ++ String.ofList part ++ String.ofList after := by
    rw [← String.ofList_append, ← String.ofList_append, ← htext, String.ofList_toList]
  rw [byteSize_ofList] at hbefore hpart
  rw [hparts, String.toByteArray_append, String.toByteArray_append]
  refine extract_middle ?_ ?_
  · rw [String.size_toByteArray, hbefore]
  · rw [String.size_toByteArray, String.size_toByteArray, hbefore, hpart]

theorem cut?_of_isSlice {part : List Char} (h : IsSlice text.toList part first.toNat last.toNat) :
    cut? text first last = some (String.ofList part).toByteArray := by
  obtain ⟨hfirst, hlast⟩ := h.boundaries
  have hle : first ≤ last := by
    obtain ⟨-, -, -, -, hlast⟩ := h
    exact UInt64.le_iff_toNat_le.mpr (by omega)
  rw [cut?, if_pos ⟨hle, isBoundary_iff.mpr hfirst, isBoundary_iff.mpr hlast⟩, extract_of_isSlice h]

/-- The loops find the ends of the slice, and the last boundary is not before the first. -/
theorem exists_cut (htext : text.utf8ByteSize < 2 ^ 64) (start : UInt64) (length : Option UInt64) :
    ∃ first last, Cut text start length first last ∧
      IsSlice text.toList (slice text.toList start.toNat (length.map UInt64.toNat)) first.toNat last.toNat := by
  have hslice := isSlice_slice text.toList start.toNat (length.map UInt64.toNat)
  have hleast := (isLeast_firstBoundary start.toNat text.toList).1
  have hgreatest := isGreatest_slice text.toList start.toNat (length.map UInt64.toNat)
  have hend := hslice.boundaries.2.le_byteSize
  have hsize := size_toNat htext
  rw [byteSize_toList] at hleast hgreatest hend
  obtain ⟨first, hfirstWord⟩ := exists_position htext ((Nat.le_add_right _ _).trans hend)
  obtain ⟨last, hlastWord⟩ := exists_position htext hend
  rw [← hlastWord, ← hfirstWord] at hslice hgreatest
  rw [← hfirstWord] at hleast
  have hforward : snap? forward text (min start (size text)) = some first := by
    apply snap?_forward
    rwa [UInt64.toNat_min, hsize]
  have hlimit := limit_toNat htext first length
  have hback : snap? backward text (limit text first length) = some last := by
    apply snap?_backward
    rwa [hlimit]
  have hle : first ≤ last := UInt64.le_iff_toNat_le.mpr (by omega)
  have hmax : max last first = last := by
    apply UInt64.toNat_inj.mp
    rw [UInt64.toNat_max]
    omega
  have hrange : range? text start length = some (first, last) := by
    simp only [range?, hforward, Option.bind_eq_bind, Option.bind_some, hback, hmax, Option.pure_def]
  exact ⟨first, last, ⟨hforward, hlimit, hback, hrange, hslice.boundaries.1, hslice.boundaries.2, hle,
    UInt64.le_iff_toNat_le.mpr (by omega)⟩, hslice⟩

/-- A range between boundaries is cut there. -/
theorem Cut.eq_of_boundary (htext : text.utf8ByteSize < 2 ^ 64) (h : Cut text start length first last)
    {n : UInt64} (hlength : length = some n) (hstart : Boundary text.toList start.toNat)
    (hstop : Boundary text.toList (start.toNat + n.toNat)) :
    first.toNat = start.toNat ∧ last.toNat = start.toNat + n.toNat := by
  subst hlength
  have hstartLe := hstart.le_byteSize
  have hstopLe := hstop.le_byteSize
  rw [byteSize_toList] at hstartLe hstopLe
  have hmin : min start (size text) = start := by
    apply UInt64.toNat_inj.mp
    rw [UInt64.toNat_min, size_toNat htext]
    omega
  have hforward := h.start_moved
  rw [hmin, snap?_of_boundary (isBoundary_iff.mpr hstart), Option.some_inj] at hforward
  subst hforward
  have hlimit : (limit text start (some n)).toNat = start.toNat + n.toNat := by
    rw [h.limit_exact, Option.map_some, rangeEnd]
    omega
  have hback := h.end_moved
  rw [snap?_of_boundary (isBoundary_iff.mpr (hlimit ▸ hstop)), Option.some_inj] at hback
  exact ⟨rfl, hback ▸ hlimit⟩

end ColorWords.Text

namespace ColorWords.Description
open Text
variable {s : Space}

/-- Every range of a text whose size is a word is cut somewhere, and what is read are the bytes there.
Between boundaries the range is read byte for byte. -/
theorem parseRange_cut (table : Table s) (g : Grammar) (text : String) (htext : text.utf8ByteSize < 2 ^ 64)
    (start : UInt64) (length : Option UInt64) :
    ∃ first last part, Cut text start length first last ∧ cut? text first last = some part.toByteArray ∧
      parseRange table g text start.toNat (length.map UInt64.toNat) = parse table g part ∧
      ∀ n, length = some n → Boundary text.toList start.toNat → Boundary text.toList (start.toNat + n.toNat) →
        part.utf8ByteSize = n.toNat ∧
          part.toByteArray = text.toByteArray.extract start.toNat (start.toNat + n.toNat) := by
  obtain ⟨first, last, hcut, hslice⟩ := exists_cut htext start length
  refine ⟨first, last, String.ofList _, hcut, cut?_of_isSlice hslice, ?_, fun n hlength hstart hstop => ?_⟩
  · rw [parseRange, parse, String.toList_ofList]
  · obtain ⟨hfirst, hlast⟩ := hcut.eq_of_boundary htext hlength hstart hstop
    rw [hfirst, hlast] at hslice
    refine ⟨?_, (extract_of_isSlice hslice).symm⟩
    obtain ⟨-, -, -, -, hsize⟩ := hslice
    rw [← byteSize_ofList]
    omega

/-- A range from within a character whose end is no word, and one between boundaries. -/
theorem parseRange_cut_accented :
    let table : Table .rgb := ⟨[("red", ⟨0xFE0000FF⟩)], []⟩
    let text := "é red é"
    text.utf8ByteSize < 2 ^ 64 ∧ Boundary text.toList 3 ∧ Boundary text.toList (3 + 3) ∧
      (∃ first last, Cut text 1 (some 0xFFFFFFFFFFFFFFFF) first last) ∧
      ∃ first last part, Cut text 3 (some 3) first last ∧ cut? text first last = some part.toByteArray ∧
        parseRange table .extended text 3 (some 3) = parse table .extended part ∧ part.utf8ByteSize = 3 := by
  intro table text
  have htext : text.utf8ByteSize < 2 ^ 64 := by decide
  have hstart : Boundary text.toList 3 := ⟨"é ".toList, "red é".toList, by decide, by decide⟩
  have hstop : Boundary text.toList (3 + 3) := ⟨"é red".toList, " é".toList, by decide, by decide⟩
  obtain ⟨first, last, -, hcut, -⟩ := parseRange_cut table .extended text htext 1 (some 0xFFFFFFFFFFFFFFFF)
  obtain ⟨first', last', part, hcut', hbytes, hparse, hpart⟩ := parseRange_cut table .extended text htext 3 (some 3)
  exact ⟨htext, hstart, hstop, ⟨first, last, hcut⟩, first', last', part, hcut', hbytes, hparse,
    (hpart 3 rfl hstart hstop).1⟩

end ColorWords.Description
