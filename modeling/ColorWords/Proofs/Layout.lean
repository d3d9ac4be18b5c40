import ColorWords.Layout
import ColorWords.Proofs.Single.Amount

/-! # Bytes of words

Words assembled from bytes are read back byte by byte, and a byte on the way from one
byte to another stays between the two.
-/
namespace ColorWords.Layout
open Single

variable {bits shift hi lo : UInt32}

theorem byteAt_toNat (h : shift.toNat < 32) :
    (byteAt bits shift).toNat = bits.toNat / 2 ^ shift.toNat % 256 := by
  have hand : bits.toNat >>> shift.toNat &&& 0xFF = bits.toNat >>> shift.toNat % 2 ^ 8 :=
    Nat.and_two_pow_sub_one_eq_mod _ 8
  simp only [byteAt, UInt32.toNat_and, UInt32.toNat_shiftRight, Nat.mod_eq_of_lt h,
    Nat.shiftRight_eq_div_pow] at hand ⊢
  exact hand

theorem and_byte_toNat (w : UInt32) : (w &&& 0xFF).toNat = w.toNat % 256 := by
  rw [UInt32.toNat_and]
  exact Nat.and_two_pow_sub_one_eq_mod _ 8

theorem and_byte_lt (w : UInt32) : (w &&& 0xFF).toNat < 256 := by
  rw [and_byte_toNat]
  exact Nat.mod_lt _ (by norm_num)

theorem byteAt_lt (bits shift : UInt32) : (byteAt bits shift).toNat < 256 := and_byte_lt _

theorem byteAt_first (w : UInt32) : byteAt w firstShift = w &&& 0xFF := by
  rw [byteAt, firstShift, UInt32.shiftRight_zero]

theorem and_opaqueByte_toNat {w : UInt32} (h : w.toNat < 256) :
    (w &&& opaqueByte).toNat = w.toNat - w.toNat % 2 := by
  have hall : ∀ k : Fin 256, k.val &&& 0xFE = k.val - k.val % 2 := by set_option maxRecDepth 2000 in decide
  rw [UInt32.toNat_and]
  exact hall ⟨w.toNat, h⟩

theorem shiftRight_alpha_lt (bits : UInt32) : (bits >>> alphaShift).toNat < 256 := by
  have hdiv : (bits >>> alphaShift).toNat = bits.toNat / 2 ^ 24 := by
    rw [UInt32.toNat_shiftRight, Nat.shiftRight_eq_div_pow]
    rfl
  have := bits.toNat_lt
  omega

theorem alphaByte_eq (bits : UInt32) : alphaByte bits = byteAt bits alphaShift &&& opaqueByte := by
  have hbyte : byteAt bits alphaShift = bits >>> alphaShift := by
    apply UInt32.toNat_inj.mp
    rw [byteAt, and_byte_toNat, Nat.mod_eq_of_lt (shiftRight_alpha_lt bits)]
  rw [alphaByte, hbyte]

theorem or_shift_toNat {k : ℕ} (hs : shift.toNat = k) (hk : k < 32) (hlo : lo.toNat < 2 ^ k)
    (hhi : hi.toNat * 2 ^ k < 2 ^ 32) : (hi <<< shift ||| lo).toNat = hi.toNat * 2 ^ k + lo.toNat := by
  subst hs
  rw [UInt32.toNat_or, UInt32.toNat_shiftLeft, Nat.mod_eq_of_lt hk, Nat.shiftLeft_eq,
    Nat.mod_eq_of_lt hhi, ← Nat.shiftLeft_eq, Nat.shiftLeft_add_eq_or_of_lt hlo]

theorem assembled_toNat {a b c d : UInt32} (ha : a.toNat < 256) (hb : b.toNat < 256)
    (hc : c.toNat < 256) (hd : d.toNat < 256) :
    (d <<< alphaShift ||| c <<< thirdShift ||| b <<< secondShift ||| a).toNat =
      d.toNat * 2 ^ 24 + c.toNat * 2 ^ 16 + b.toNat * 2 ^ 8 + a.toNat := by
  have hba : (b <<< secondShift ||| a).toNat = b.toNat * 2 ^ 8 + a.toNat :=
    or_shift_toNat rfl (by omega) (by omega) (by omega)
  have hcba : (c <<< thirdShift ||| (b <<< secondShift ||| a)).toNat =
      c.toNat * 2 ^ 16 + (b <<< secondShift ||| a).toNat :=
    or_shift_toNat rfl (by omega) (by omega) (by omega)
  have hdcba : (d <<< alphaShift ||| (c <<< thirdShift ||| (b <<< secondShift ||| a))).toNat =
      d.toNat * 2 ^ 24 + (c <<< thirdShift ||| (b <<< secondShift ||| a)).toNat :=
    or_shift_toNat rfl (by omega) (by omega) (by omega)
  rw [UInt32.or_assoc, UInt32.or_assoc, hdcba, hcba, hba]
  ring

theorem ofInt_toNat {n : ℤ} (h0 : 0 ≤ n) (h1 : n < 2 ^ 32) : (UInt32.ofInt n).toNat = n.toNat := by
  have hmod : n % 2 ^ 32 = n := Int.emod_eq_of_lt h0 h1
  rw [UInt32.ofInt, hmod]
  exact UInt32.toNat_ofNat_of_lt' (by change n.toNat < 2 ^ 32; omega)

theorem wholeWord_toNat {x : Float32} {q : ℚ} (h : Denotes x q) (h0 : 0 ≤ q) (h1 : q < 2 ^ 31) :
    (wholeWord x).toNat = ⌊q⌋.toNat := by
  have hfloor0 : 0 ≤ ⌊q⌋ := Int.floor_nonneg.mpr h0
  have hfloor1 : ⌊q⌋ < 2 ^ 31 := by
    rw [Int.floor_lt]
    exact_mod_cast h1
  rw [wholeWord, h.truncate, towardZero, if_pos h0, bounded_of_mem (by omega) (by omega),
    ofInt_toNat hfloor0 (by omega)]

/-! ## Stored bytes -/

def byteShifts : List UInt32 := [firstShift, secondShift, thirdShift, alphaShift]

theorem channel_of_ne_alpha (h : shift ∈ byteShifts) (hne : shift ≠ alphaShift) :
    shift ∈ [firstShift, secondShift, thirdShift] := by
  simp only [byteShifts, List.mem_cons, List.not_mem_nil, or_false] at h ⊢
  tauto

def storedByte (bits shift : UInt32) : ℕ := (byteAt (bits &&& storedMask) shift).toNat

theorem byteAt_and (a b shift : UInt32) : byteAt (a &&& b) shift = byteAt a shift &&& byteAt b shift := by
  simp only [byteAt, UInt32.shiftRight_and]
  rw [UInt32.and_assoc, UInt32.and_assoc (a >>> shift), ← UInt32.and_assoc 0xFF,
    UInt32.and_comm 0xFF (b >>> shift), UInt32.and_assoc (b >>> shift), UInt32.and_self]

theorem storedByte_eq (bits shift : UInt32) :
    storedByte bits shift = (byteAt bits shift &&& byteAt storedMask shift).toNat := by
  rw [storedByte, byteAt_and]

theorem storedByte_alpha (bits : UInt32) : storedByte bits alphaShift = (alphaByte bits).toNat := by
  have hmask : byteAt storedMask alphaShift = opaqueByte := by decide
  rw [storedByte_eq, hmask, alphaByte_eq]

theorem and_opaqueByte_mono {x y : UInt32} (hy : y.toNat < 256) (h : x.toNat ≤ y.toNat) :
    (x &&& opaqueByte).toNat ≤ (y &&& opaqueByte).toNat := by
  rw [and_opaqueByte_toNat hy, and_opaqueByte_toNat (h.trans_lt hy)]
  omega

/-- Dropping the bits that are not stored keeps the order of bytes. -/
theorem and_storedMask_mono (hshift : shift ∈ byteShifts) {x y : UInt32} (hy : y.toNat < 256)
    (h : x.toNat ≤ y.toNat) :
    (x &&& byteAt storedMask shift).toNat ≤ (y &&& byteAt storedMask shift).toNat := by
  have hchannel : (x &&& 0xFF).toNat ≤ (y &&& 0xFF).toNat := by
    rw [and_byte_toNat, and_byte_toNat]
    omega
  simp only [byteShifts, List.mem_cons, List.not_mem_nil, or_false] at hshift
  rcases hshift with rfl | rfl | rfl | rfl
  · exact hchannel
  · exact hchannel
  · exact hchannel
  · exact and_opaqueByte_mono hy h

theorem eq_of_byteAt {a b : UInt32} (h : ∀ shift ∈ byteShifts, byteAt a shift = byteAt b shift) : a = b := by
  have hbyte (shift : UInt32) (hshift : shift ∈ byteShifts) (h32 : shift.toNat < 32) :
      a.toNat / 2 ^ shift.toNat % 256 = b.toNat / 2 ^ shift.toNat % 256 := by
    rw [← byteAt_toNat h32, ← byteAt_toNat h32, h shift hshift]
  have hfirst : a.toNat / 2 ^ 0 % 256 = b.toNat / 2 ^ 0 % 256 := hbyte firstShift (by decide) (by decide)
  have hsecond : a.toNat / 2 ^ 8 % 256 = b.toNat / 2 ^ 8 % 256 := hbyte secondShift (by decide) (by decide)
  have hthird : a.toNat / 2 ^ 16 % 256 = b.toNat / 2 ^ 16 % 256 := hbyte thirdShift (by decide) (by decide)
  have halpha : a.toNat / 2 ^ 24 % 256 = b.toNat / 2 ^ 24 % 256 := hbyte alphaShift (by decide) (by decide)
  have ha := a.toNat_lt
  have hb := b.toNat_lt
  apply UInt32.toNat_inj.mp
  omega

/-- Words with the same four stored bytes have the same stored bits. -/
theorem and_storedMask_eq_of_storedByte {a b : UInt32}
    (h : ∀ shift ∈ byteShifts, storedByte a shift = storedByte b shift) :
    a &&& storedMask = b &&& storedMask :=
  eq_of_byteAt fun shift hshift => UInt32.toNat_inj.mp (h shift hshift)

theorem byteAt_and_byte (bits shift : UInt32) : byteAt bits shift &&& 0xFF = byteAt bits shift := by
  rw [byteAt, UInt32.and_assoc, UInt32.and_self]

theorem and_opaqueByte_le (w : UInt32) : (w &&& opaqueByte).toNat ≤ 254 := by
  rw [UInt32.toNat_and]
  exact Nat.and_le_right

theorem and_opaqueByte_lt (w : UInt32) : (w &&& opaqueByte).toNat < 256 :=
  (and_opaqueByte_le w).trans_lt (by norm_num)

/-- What holds of the 128 even bytes holds of every byte that alpha can have. -/
theorem forall_even_byte {p : UInt32 → Prop} (h : ∀ k : Fin 128, p (UInt32.ofNat (2 * k))) (w : UInt32) :
    p (w &&& opaqueByte) := by
  have hlt := and_opaqueByte_lt w
  have heven := and_opaqueByte_toNat hlt
  rw [UInt32.and_assoc, UInt32.and_self] at heven
  have hbyte := h ⟨(w &&& opaqueByte).toNat / 2, by omega⟩
  have htwice : 2 * ((w &&& opaqueByte).toNat / 2) = (w &&& opaqueByte).toNat := by omega
  rwa [htwice, UInt32.ofNat_toNat] at hbyte

theorem byteAt_and_storedMask (h : shift ∈ [firstShift, secondShift, thirdShift]) (bits : UInt32) :
    byteAt (bits &&& storedMask) shift = byteAt bits shift := by
  have hmask : byteAt storedMask shift = 0xFF := by
    simp only [List.mem_cons, List.not_mem_nil, or_false] at h
    rcases h with rfl | rfl | rfl <;> decide
  rw [byteAt_and, hmask, byteAt_and_byte]

theorem byteAt_and_storedMask_alpha (bits : UInt32) : byteAt (bits &&& storedMask) alphaShift = alphaByte bits := by
  have hmask : byteAt storedMask alphaShift = opaqueByte := by decide
  rw [byteAt_and, hmask, alphaByte_eq]

/-- Only the alpha byte of a word can have a bit that is not stored. -/
theorem and_storedMask_eq_iff : bits &&& storedMask = bits ↔ byteAt bits alphaShift = alphaByte bits := by
  constructor
  · intro h
    rw [← byteAt_and_storedMask_alpha, h]
  · intro h
    refine eq_of_byteAt fun shift hshift => ?_
    by_cases halpha : shift = alphaShift
    · rw [halpha, byteAt_and_storedMask_alpha, h]
    · exact byteAt_and_storedMask (channel_of_ne_alpha hshift halpha) bits

/-- Bytes that are put together are found again at their places. -/
theorem byteAt_assembled {a b c d word : UInt32} (ha : a.toNat < 256) (hb : b.toNat < 256) (hc : c.toNat < 256)
    (hd : d.toNat < 256) (h : word = d <<< alphaShift ||| c <<< thirdShift ||| b <<< secondShift ||| a) :
    byteAt word firstShift = a ∧ byteAt word secondShift = b ∧ byteAt word thirdShift = c ∧
      byteAt word alphaShift = d := by
  have hword := assembled_toNat ha hb hc hd
  rw [← h] at hword
  refine ⟨?_, ?_, ?_, ?_⟩ <;> apply UInt32.toNat_inj.mp <;> rw [byteAt_toNat (by decide), hword] <;>
    simp only [firstShift, secondShift, thirdShift, alphaShift, UInt32.reduceToNat, Nat.reducePow] <;> omega

/-! ## Writing bytes -/

theorem and_or_right (a b c : UInt32) : (a ||| b) &&& c = a &&& c ||| b &&& c := by
  apply UInt32.toNat_inj.mp
  simp only [UInt32.toNat_and, UInt32.toNat_or]
  exact Nat.and_or_distrib_right _ _ _

theorem byteAt_or (a b shift : UInt32) : byteAt (a ||| b) shift = byteAt a shift ||| byteAt b shift := by
  simp only [byteAt, UInt32.shiftRight_or]
  exact and_or_right _ _ _

theorem byteAt_shiftLeft_self {b : UInt32} (hb : b.toNat < 256) (hshift : shift ∈ byteShifts) :
    byteAt (b <<< shift) shift = b := by
  apply UInt32.toNat_inj.mp
  simp only [byteShifts, List.mem_cons, List.not_mem_nil, or_false] at hshift
  rcases hshift with rfl | rfl | rfl | rfl <;>
    rw [byteAt_toNat (by decide), UInt32.toNat_shiftLeft, Nat.shiftLeft_eq] <;>
    simp only [firstShift, secondShift, thirdShift, alphaShift, UInt32.reduceToNat, Nat.reduceMod, Nat.reducePow] <;>
    omega

theorem byteAt_shiftLeft_of_ne {b other : UInt32} (hb : b.toNat < 256) (hshift : shift ∈ byteShifts)
    (hother : other ∈ byteShifts) (hne : other ≠ shift) : byteAt (b <<< shift) other = 0 := by
  apply UInt32.toNat_inj.mp
  simp only [byteShifts, List.mem_cons, List.not_mem_nil, or_false] at hshift hother
  rcases hshift with rfl | rfl | rfl | rfl <;> rcases hother with rfl | rfl | rfl | rfl <;>
    try exact absurd rfl hne
  all_goals
    rw [byteAt_toNat (by decide), UInt32.toNat_shiftLeft, Nat.shiftLeft_eq]
    simp only [firstShift, secondShift, thirdShift, alphaShift, UInt32.reduceToNat, Nat.reduceMod, Nat.reducePow]
    omega

theorem byteAt_setByte (hshift : shift ∈ [firstShift, secondShift, thirdShift]) (bits value : UInt32) :
    byteAt (setByte bits shift value) shift = value &&& 0xFF := by
  have hbyte : shift ∈ byteShifts := List.mem_append_left [alphaShift] hshift
  have hcleared : byteAt (~~~(0xFF <<< shift)) shift = 0 := by
    simp only [List.mem_cons, List.not_mem_nil, or_false] at hshift
    rcases hshift with rfl | rfl | rfl <;> decide
  rw [setByte, byteAt_and_storedMask hshift, byteAt_or, byteAt_and, hcleared, UInt32.and_zero, UInt32.zero_or,
    byteAt_shiftLeft_self (and_byte_lt value) hbyte]

/-- A byte that is written leaves the other bytes as they are stored. -/
theorem storedByte_setByte_of_ne {other : UInt32} (hshift : shift ∈ byteShifts) (hother : other ∈ byteShifts)
    (hne : other ≠ shift) (bits value : UInt32) :
    storedByte (setByte bits shift value) other = storedByte bits other := by
  have hkept : byteAt (~~~(0xFF <<< shift)) other = 0xFF := by
    simp only [byteShifts, List.mem_cons, List.not_mem_nil, or_false] at hshift hother
    rcases hshift with rfl | rfl | rfl | rfl <;> rcases hother with rfl | rfl | rfl | rfl <;>
      first | decide | exact absurd rfl hne
  rw [storedByte, setByte, UInt32.and_assoc, UInt32.and_self, byteAt_and, byteAt_or,
    byteAt_shiftLeft_of_ne (and_byte_lt value) hshift hother hne, byteAt_and, hkept, byteAt_and_byte, UInt32.or_zero,
    storedByte_eq]

theorem alphaByte_setByte (h : shift ∈ [firstShift, secondShift, thirdShift]) (bits value : UInt32) :
    alphaByte (setByte bits shift value) = alphaByte bits := by
  have hshift : shift ∈ byteShifts := List.mem_append_left [alphaShift] h
  have hne : alphaShift ≠ shift := by
    rintro rfl
    exact absurd h (by decide)
  apply UInt32.toNat_inj.mp
  rw [← storedByte_alpha, ← storedByte_alpha, storedByte_setByte_of_ne hshift (by decide) hne]

theorem byteAt_setAlpha (bits value : UInt32) : byteAt (setAlpha bits value) alphaShift = value &&& opaqueByte := by
  have hmask : byteAt channelMask alphaShift = 0 := by decide
  rw [setAlpha, byteAt_or, byteAt_and, hmask, UInt32.and_zero, UInt32.zero_or,
    byteAt_shiftLeft_self (and_opaqueByte_lt value) (by decide)]

theorem byteAt_setAlpha_of_ne (hshift : shift ∈ byteShifts) (hne : shift ≠ alphaShift) (bits value : UInt32) :
    byteAt (setAlpha bits value) shift = byteAt bits shift := by
  have hmask : byteAt channelMask shift = 0xFF := by
    have hchannel := channel_of_ne_alpha hshift hne
    simp only [List.mem_cons, List.not_mem_nil, or_false] at hchannel
    rcases hchannel with rfl | rfl | rfl <;> decide
  rw [setAlpha, byteAt_or, byteAt_and, hmask, byteAt_and_byte,
    byteAt_shiftLeft_of_ne (and_opaqueByte_lt value) (by decide) hshift hne, UInt32.or_zero]

theorem alphaByte_setAlpha (bits value : UInt32) : alphaByte (setAlpha bits value) = value &&& opaqueByte := by
  rw [alphaByte_eq, byteAt_setAlpha, UInt32.and_assoc, UInt32.and_self]

/-! ## Bytes between two bytes -/

variable {start stop : UInt32} {change : Float32} {c : ℚ}

/-- Where a rounded step of the part `c` from `s` toward `e` leads. -/
def between (s e : ℕ) (c : ℚ) : ℚ := rounded (s + rounded (c * (e - s)))

theorem representable_byte_sub {s e : ℕ} (hs : s < 256) (he : e < 256) : Representable ((e : ℚ) - s) := by
  have habs : |(e : ℤ) - s| ≤ 2 ^ 24 := abs_le.mpr (by omega)
  exact_mod_cast representable_intCast habs

theorem representable_byte {s : ℕ} (hs : s < 256) : Representable (s : ℚ) := by
  simpa using representable_byte_sub (by norm_num : 0 < 256) hs

theorem cast_byte_le {n : ℕ} (h : n < 256) : (n : ℚ) ≤ 255 := by exact_mod_cast Nat.le_of_lt_succ h

/-- A byte as a fraction is rounded by next to nothing. -/
theorem abs_fraction_sub_le {n : ℕ} (h : n < 256) : |rounded (n / 255) - n / 255| ≤ 1 / 2 ^ 24 := by
  have hbyte := cast_byte_le h
  have hbyte0 : (0 : ℚ) ≤ n := Nat.cast_nonneg n
  exact abs_rounded_sub_le_of_lt_two (abs_lt.mpr ⟨by linarith, by linarith⟩)

theorem between_bounds {s e : ℕ} (hs : s < 256) (he : e < 256) (h0 : 0 ≤ c) (h1 : c ≤ 1) :
    (min s e : ℕ) ≤ between s e c ∧ between s e c ≤ (max s e : ℕ) := by
  have hdiff := representable_byte_sub hs he
  have hzero : Representable (0 : ℚ) := by exact_mod_cast representable_byte (s := 0) (by norm_num)
  rcases le_total s e with h | h
  · have hq : (0 : ℚ) ≤ e - s := sub_nonneg.mpr (by exact_mod_cast h)
    have hlow : 0 ≤ rounded (c * (e - s)) := le_rounded hzero (mul_nonneg h0 hq)
    have hhigh : rounded (c * (e - s)) ≤ e - s := rounded_le hdiff (mul_le_of_le_one_left hq h1)
    rw [min_eq_left h, max_eq_right h]
    exact ⟨le_rounded (representable_byte hs) (by linarith), rounded_le (representable_byte he) (by linarith)⟩
  · have hq : (e : ℚ) - s ≤ 0 := sub_nonpos.mpr (by exact_mod_cast h)
    have hlow : (e : ℚ) - s ≤ rounded (c * (e - s)) := le_rounded hdiff (by nlinarith)
    have hhigh : rounded (c * (e - s)) ≤ 0 := rounded_le hzero (mul_nonpos_of_nonneg_of_nonpos h0 hq)
    rw [min_eq_right h, max_eq_left h]
    exact ⟨le_rounded (representable_byte he) (by linarith), rounded_le (representable_byte hs) (by linarith)⟩

theorem denotes_byte (bits shift : UInt32) : Denotes (byteAt bits shift).toFloat32 (byteAt bits shift).toNat :=
  denotes_toFloat32 (by have := byteAt_lt bits shift; omega)

theorem lerpByte_lt (start stop : UInt32) (change : Float32) (shift : UInt32) :
    (lerpByte start stop change shift).toNat < 256 :=
  and_byte_lt _

theorem lerpByte_toNat (h : Denotes change c) (h0 : 0 ≤ c) (h1 : c ≤ 1) (shift : UInt32) :
    (lerpByte start stop change shift).toNat =
      ⌊between (byteAt start shift).toNat (byteAt stop shift).toNat c⌋.toNat := by
  have hs := denotes_byte start shift
  have he := denotes_byte stop shift
  have hs256 := byteAt_lt start shift
  have he256 := byteAt_lt stop shift
  have hbounds := between_bounds hs256 he256 h0 h1
  set s := (byteAt start shift).toNat
  set e := (byteAt stop shift).toNat
  have hse : |(e : ℚ) - s| ≤ 255 := by
    have hz : |(e : ℤ) - s| ≤ 255 := abs_le.mpr (by omega)
    exact_mod_cast hz
  have hlow : 0 ≤ between s e c := le_trans (Nat.cast_nonneg _) hbounds.1
  have hhigh : between s e c ≤ 255 := hbounds.2.trans (by exact_mod_cast (by omega : max s e ≤ 255))
  have hprod : |rounded (c * (e - s))| ≤ 255 := by
    refine abs_rounded_le (by exact_mod_cast representable_byte (s := 255) (by norm_num)) ?_
    rw [abs_mul, abs_of_nonneg h0]
    exact (mul_le_of_le_one_left (abs_nonneg _) h1).trans hse
  have hdiff := he.sub_exact hs (representable_byte_sub hs256 he256) (by linarith)
  have hstep := h.mul hdiff (by linarith)
  have hsum : Denotes _ (between s e c) :=
    hs.add hstep (by change |between s e c| < _; rw [abs_of_nonneg hlow]; linarith)
  have hword := wholeWord_toNat hsum hlow (by linarith)
  have hfloor : ⌊between s e c⌋ < 256 := Int.floor_lt.mpr (by push_cast; linarith)
  rw [lerpByte, and_byte_toNat, hword]
  omega

theorem lerpByte_bounds (start stop : UInt32) (h : Denotes change c) (h0 : 0 ≤ c) (h1 : c ≤ 1) (shift : UInt32) :
    min (byteAt start shift).toNat (byteAt stop shift).toNat ≤ (lerpByte start stop change shift).toNat ∧
      (lerpByte start stop change shift).toNat ≤
        max (byteAt start shift).toNat (byteAt stop shift).toNat := by
  have hbounds := between_bounds (byteAt_lt start shift) (byteAt_lt stop shift) h0 h1
  rw [lerpByte_toNat h h0 h1]
  set s := (byteAt start shift).toNat
  set e := (byteAt stop shift).toNat
  have hlow : ((min s e : ℕ) : ℤ) ≤ ⌊between s e c⌋ := Int.le_floor.mpr (by exact_mod_cast hbounds.1)
  have hhigh : ⌊between s e c⌋ < ((max s e : ℕ) : ℤ) + 1 := by
    refine Int.floor_lt.mpr ?_
    have := hbounds.2
    push_cast at this ⊢
    linarith
  omega

theorem lerpByte_of_notNumber (h : NotNumber change) (start stop shift : UInt32) :
    lerpByte start stop change shift = 0 := by
  have htruncate := ((h.mul ((byteAt stop shift).toFloat32 - (byteAt start shift).toFloat32)).add_left
    (byteAt start shift).toFloat32).truncate
  rw [lerpByte, wholeWord, htruncate]
  rfl

theorem lerp_eq_zero (h : ∀ shift, lerpByte start stop change shift = 0) : lerp start stop change = 0 := by
  simp only [lerp, h]
  rfl

theorem byteAt_lerp (hshift : shift ∈ byteShifts) (start stop : UInt32) (change : Float32) :
    byteAt (lerp start stop change) shift = lerpByte start stop change shift &&& byteAt storedMask shift := by
  have hchannel (shift : UInt32) : lerpByte start stop change shift &&& 0xFF = lerpByte start stop change shift := by
    rw [lerpByte, UInt32.and_assoc, UInt32.and_self]
  obtain ⟨hfirst, hsecond, hthird, halpha⟩ :=
    byteAt_assembled (lerpByte_lt start stop change firstShift) (lerpByte_lt start stop change secondShift)
      (lerpByte_lt start stop change thirdShift) (and_opaqueByte_lt (lerpByte start stop change alphaShift)) rfl
  simp only [byteShifts, List.mem_cons, List.not_mem_nil, or_false] at hshift
  rcases hshift with rfl | rfl | rfl | rfl
  · exact hfirst.trans (hchannel firstShift).symm
  · exact hsecond.trans (hchannel secondShift).symm
  · exact hthird.trans (hchannel thirdShift).symm
  · exact halpha

theorem storedByte_lerp (hshift : shift ∈ byteShifts) (start stop : UInt32) (change : Float32) :
    storedByte (lerp start stop change) shift =
      (lerpByte start stop change shift &&& byteAt storedMask shift).toNat := by
  rw [storedByte_eq, byteAt_lerp hshift, UInt32.and_assoc, UInt32.and_self]

/-- A stored byte on the way is between its two ends. -/
theorem storedByte_lerp_between (hshift : shift ∈ byteShifts) (start stop : UInt32) (h : Denotes change c)
    (h0 : 0 ≤ c) (h1 : c ≤ 1) :
    (storedByte start shift ≤ storedByte (lerp start stop change) shift ∧
      storedByte (lerp start stop change) shift ≤ storedByte stop shift) ∨
    (storedByte stop shift ≤ storedByte (lerp start stop change) shift ∧
      storedByte (lerp start stop change) shift ≤ storedByte start shift) := by
  obtain ⟨hlow, hhigh⟩ := lerpByte_bounds start stop h h0 h1 shift
  have hlerp := lerpByte_lt start stop change shift
  have hstart := byteAt_lt start shift
  have hstop := byteAt_lt stop shift
  simp only [storedByte_lerp hshift, storedByte_eq]
  rcases le_total (byteAt start shift).toNat (byteAt stop shift).toNat with hle | hle
  · rw [min_eq_left hle] at hlow
    rw [max_eq_right hle] at hhigh
    exact .inl ⟨and_storedMask_mono hshift hlerp hlow, and_storedMask_mono hshift hstop hhigh⟩
  · rw [min_eq_right hle] at hlow
    rw [max_eq_left hle] at hhigh
    exact .inr ⟨and_storedMask_mono hshift hlerp hlow, and_storedMask_mono hshift hstart hhigh⟩

/-! ## The ends of the way -/

theorem between_zero {s : ℕ} (hs : s < 256) (e : ℕ) : between s e 0 = s := by
  simp only [between, zero_mul, rounded_zero, add_zero, rounded_of_representable (representable_byte hs)]

theorem between_one {s e : ℕ} (hs : s < 256) (he : e < 256) : between s e 1 = e := by
  simp only [between, one_mul, rounded_of_representable (representable_byte_sub hs he), add_sub_cancel,
    rounded_of_representable (representable_byte he)]

theorem between_self {s : ℕ} (hs : s < 256) (c : ℚ) : between s s c = s := by
  simp only [between, sub_self, mul_zero, rounded_zero, add_zero, rounded_of_representable (representable_byte hs)]

/-- The way leads to a word if it does so in every byte. -/
theorem lerp_eq_of_between {target : UInt32} (h : Denotes change c) (h0 : 0 ≤ c) (h1 : c ≤ 1)
    (hbytes : ∀ shift, between (byteAt start shift).toNat (byteAt stop shift).toNat c = (byteAt target shift).toNat) :
    lerp start stop change = target &&& storedMask := by
  refine eq_of_byteAt fun shift hshift => ?_
  have hbyte : lerpByte start stop change shift = byteAt target shift := by
    apply UInt32.toNat_inj.mp
    rw [lerpByte_toNat h h0 h1, hbytes, Int.floor_natCast, Int.toNat_natCast]
  rw [byteAt_lerp hshift, hbyte, byteAt_and]

theorem lerp_zero (h : Denotes change 0) (start stop : UInt32) : lerp start stop change = start &&& storedMask :=
  lerp_eq_of_between h le_rfl zero_le_one fun shift => between_zero (byteAt_lt start shift) _

theorem lerp_one (h : Denotes change 1) (start stop : UInt32) : lerp start stop change = stop &&& storedMask :=
  lerp_eq_of_between h zero_le_one le_rfl fun shift => between_one (byteAt_lt start shift) (byteAt_lt stop shift)

theorem lerp_self (h : Denotes change c) (h0 : 0 ≤ c) (h1 : c ≤ 1) (bits : UInt32) :
    lerp bits bits change = bits &&& storedMask :=
  lerp_eq_of_between h h0 h1 fun shift => between_self (byteAt_lt bits shift) c

/-- Singles for one number, as the two zeros, lead to the same word. -/
theorem lerp_congr {other : Float32} (h : Denotes change c) (hother : Denotes other c) (h0 : 0 ≤ c) (h1 : c ≤ 1)
    (start stop : UInt32) : lerp start stop change = lerp start stop other := by
  refine eq_of_byteAt fun shift hshift => ?_
  have hbyte : lerpByte start stop change shift = lerpByte start stop other shift := by
    apply UInt32.toNat_inj.mp
    rw [lerpByte_toNat h h0 h1, lerpByte_toNat hother h0 h1]
  rw [byteAt_lerp hshift, byteAt_lerp hshift, hbyte]

end ColorWords.Layout
