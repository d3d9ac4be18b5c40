/-!
# UTF-8 lengths and slices

Positions in a text count the bytes of its UTF-8 form. A slice by bytes keeps whole characters: one
that straddles the start of the slice or its end is left out.
-/
namespace ColorWords.Text

def bytes (text : List Char) : List UInt8 := text.flatMap String.utf8EncodeChar

def byteSize : List Char → Nat
  | [] => 0
  | c :: rest => c.utf8Size + byteSize rest

theorem length_bytes (text : List Char) : (bytes text).length = byteSize text := by
  induction text with
  | nil => rfl
  | cons c rest ih =>
    rw [bytes, List.flatMap_cons, List.length_append, String.length_utf8EncodeChar]
    exact congrArg (c.utf8Size + ·) ih

theorem byteSize_append (a b : List Char) : byteSize (a ++ b) = byteSize a + byteSize b := by
  induction a with
  | nil => exact (Nat.zero_add _).symm
  | cons c rest ih => rw [List.cons_append, byteSize, byteSize, ih, Nat.add_assoc]

theorem byteSize_eq_zero {text : List Char} : byteSize text = 0 ↔ text = [] := by
  cases text with
  | nil => exact ⟨fun _ => rfl, fun _ => rfl⟩
  | cons c rest =>
    have := c.utf8Size_pos
    simp only [byteSize, reduceCtorEq, iff_false]
    omega

theorem byteSize_ofList (text : List Char) : byteSize text = (String.ofList text).utf8ByteSize := by
  induction text with
  | nil => rfl
  | cons c rest ih =>
    rw [String.ofList_cons, String.utf8ByteSize_append, String.utf8ByteSize_singleton, ← ih, byteSize]

theorem byteSize_toList (text : String) : byteSize text.toList = text.utf8ByteSize := by
  rw [byteSize_ofList, String.ofList_toList]

/-- Of two beginnings of a text the one with fewer bytes begins the other. -/
theorem exists_append_of_byteSize_le {a b c d : List Char} (h : a ++ b = c ++ d) (hle : byteSize a ≤ byteSize c) :
    ∃ m, c = a ++ m ∧ b = m ++ d := by
  rcases List.append_eq_append_iff.mp h with ⟨m, hc, hb⟩ | ⟨m, ha, hd⟩
  · exact ⟨m, hc, hb⟩
  · rw [ha, byteSize_append] at hle
    obtain rfl := byteSize_eq_zero.mp (by omega : byteSize m = 0)
    exact ⟨[], by rw [ha, List.append_nil, List.append_nil], by rw [hd, List.nil_append, List.nil_append]⟩

theorem append_inj_of_byteSize {a b c d : List Char} (h : a ++ b = c ++ d) (hsize : byteSize a = byteSize c) :
    a = c ∧ b = d := by
  obtain ⟨m, hc, hb⟩ := exists_append_of_byteSize_le h (Nat.le_of_eq hsize)
  rw [hc, byteSize_append] at hsize
  obtain rfl := byteSize_eq_zero.mp (by omega : byteSize m = 0)
  exact ⟨by rw [hc, List.append_nil], hb⟩

/-- The text from the first character that starts at byte `n` or later. -/
def dropBytes : Nat → List Char → List Char
  | _, [] => []
  | 0, text => text
  | n + 1, c :: rest => dropBytes (n + 1 - c.utf8Size) rest

/-- The longest beginning of a text that has at most `n` bytes. -/
def takeBytes : Nat → List Char → List Char
  | _, [] => []
  | n, c :: rest => if c.utf8Size ≤ n then c :: takeBytes (n - c.utf8Size) rest else []

/-- At most `length` bytes from byte `start` on; without a length, all of them. -/
def slice (text : List Char) (start : Nat) : (length : Option Nat) → List Char
  | none => dropBytes start text
  | some n => takeBytes n (dropBytes start text)

end ColorWords.Text
