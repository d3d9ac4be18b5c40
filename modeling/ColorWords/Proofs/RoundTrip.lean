import ColorWords.Proofs.Opponent

/-! # Packing and unpacking

A byte that is read as a fraction of 255 and scaled again keeps its value although both
steps round and the second one truncates, so an unpacked word is packed to its stored
bits. The other way, a single of the unit interval comes back less than one step away,
up to the two roundings; alpha has 127 steps.
-/
namespace ColorWords.Layout
open Single

/-! ## The bytes of packed channels -/

variable {x : Float32} {q : ℚ}

theorem wrappedByte_lt (x : Float32) : (wrappedByte x).toNat < 256 := and_byte_lt _

theorem pack_eq (c : Channels) (a : Float32) :
    pack c a = (wrappedByte a &&& opaqueByte) <<< alphaShift ||| wrappedByte c.third <<< thirdShift |||
      wrappedByte c.second <<< secondShift ||| wrappedByte c.first := by
  have hmask : opaqueByte <<< alphaShift = alphaMask := by decide
  rw [pack, UInt32.shiftLeft_and, hmask]

theorem byteAt_pack (c : Channels) (a : Float32) :
    byteAt (pack c a) firstShift = wrappedByte c.first ∧ byteAt (pack c a) secondShift = wrappedByte c.second ∧
      byteAt (pack c a) thirdShift = wrappedByte c.third ∧
      byteAt (pack c a) alphaShift = wrappedByte a &&& opaqueByte :=
  byteAt_assembled (wrappedByte_lt _) (wrappedByte_lt _) (wrappedByte_lt _) (and_opaqueByte_lt _) (pack_eq c a)

theorem unpack_pack (c : Channels) (a : Float32) : unpack (pack c a) = c.map (unit ∘ wrappedByte) := by
  obtain ⟨hfirst, hsecond, hthird, -⟩ := byteAt_pack c a
  rw [unpack, hfirst, hsecond, hthird]
  rfl

theorem alpha_pack (c : Channels) (a : Float32) :
    alpha (pack c a) = (wrappedByte a &&& opaqueByte).toFloat32 / 254 := by
  rw [alpha, alphaByte_eq, (byteAt_pack c a).2.2.2, UInt32.and_assoc, UInt32.and_self]

/-! ## From words to words -/

theorem wrappedByte_unit (b : UInt32) (hb : b.toNat < 256) : wrappedByte (unit b) = b := by
  have hall : ∀ k : Fin 256, wrappedByte (unit (UInt32.ofNat k)) = UInt32.ofNat k := by
    set_option maxRecDepth 2000 in decide
  have h := hall ⟨b.toNat, hb⟩
  rwa [UInt32.ofNat_toNat] at h

/-- Alpha is divided by 254 and multiplied by 255; the lowest bit is dropped again. -/
theorem wrappedByte_alpha (w : UInt32) : wrappedByte (alpha w) &&& opaqueByte = alphaByte w :=
  forall_even_byte (p := fun b => wrappedByte (b.toFloat32 / 254) &&& opaqueByte = b)
    (by set_option maxRecDepth 2000 in decide) (w >>> alphaShift)

theorem pack_unpack (w : UInt32) : pack (unpack w) (alpha w) = w &&& storedMask := by
  obtain ⟨hfirst, hsecond, hthird, halpha⟩ := byteAt_pack (unpack w) (alpha w)
  have hchannel {shift : UInt32} (h : shift ∈ [firstShift, secondShift, thirdShift]) :
      wrappedByte (unit (byteAt w shift)) = byteAt (w &&& storedMask) shift := by
    rw [wrappedByte_unit _ (byteAt_lt w shift), byteAt_and_storedMask h]
  refine eq_of_byteAt fun shift hshift => ?_
  simp only [byteShifts, List.mem_cons, List.not_mem_nil, or_false] at hshift
  rcases hshift with rfl | rfl | rfl | rfl
  · exact hfirst.trans (hchannel (by decide))
  · exact hsecond.trans (hchannel (by decide))
  · exact hthird.trans (hchannel (by decide))
  · rw [halpha, wrappedByte_alpha, byteAt_and_storedMask_alpha]

/-! ## From singles to singles -/

/-- The byte of a fraction: cutting loses less than a step, and rounding adds next to nothing. -/
theorem wrappedByte_bounds (h : Denotes x q) (h0 : 0 ≤ q) (h1 : q ≤ 1) :
    ((wrappedByte x).toNat : ℚ) ≤ q * 255 + 1 / 2 ^ 17 ∧ q * 255 < (wrappedByte x).toNat + 1 := by
  have hlow : 0 ≤ rounded (q * 255) := rounded_nonneg (by linarith)
  have hhigh : rounded (q * 255) ≤ 255 := rounded_le denotes_255.representable (by linarith)
  have hscaled : Denotes (x * 255) (rounded (q * 255)) := by
    refine h.mul denotes_255 ?_
    rw [abs_of_nonneg hlow]
    linarith
  have hfloor : ⌊rounded (q * 255)⌋ < 256 := Int.floor_lt.mpr (by push_cast; linarith)
  have hfloor0 : 0 ≤ ⌊rounded (q * 255)⌋ := Int.floor_nonneg.mpr hlow
  have hbyte : (wrappedByte x).toNat = ⌊rounded (q * 255)⌋.toNat := by
    rw [wrappedByte, and_byte_toNat, wholeWord_toNat hscaled hlow (by linarith)]
    omega
  have hcast : ((wrappedByte x).toNat : ℚ) = ⌊rounded (q * 255)⌋ := by
    rw [hbyte]
    exact_mod_cast Int.toNat_of_nonneg hfloor0
  rw [hcast]
  constructor
  · have hgrid : |q * 255| < 2 ^ 24 * 2 ^ (-16 : ℤ) := by
      rw [abs_of_nonneg (by linarith)]
      norm_num
      linarith
    have herror := (abs_le.mp (abs_rounded_sub_le hgrid (by norm_num))).2
    norm_num at herror ⊢
    linarith [Int.floor_le (rounded (q * 255))]
  -- The next whole number is a single, so rounding up to it would have been seen by the cut.
  · by_contra hge
    have hnext : Representable ((⌊rounded (q * 255)⌋ + 1 : ℤ) : ℚ) :=
      representable_intCast (abs_le.mpr ⟨by omega, by omega⟩)
    push_cast at hnext
    have hle := le_rounded hnext (not_lt.mp hge)
    linarith [Int.lt_floor_add_one (rounded (q * 255))]

theorem near_unit_wrappedByte (h : Denotes x q) (h0 : 0 ≤ q) (h1 : q ≤ 1) :
    Near (1 / 255 + 1 / 2 ^ 23) (unit (wrappedByte x)) x := by
  obtain ⟨hlow, hhigh⟩ := wrappedByte_bounds h h0 h1
  have hlt := wrappedByte_lt x
  have herror := abs_le.mp (abs_fraction_sub_le hlt)
  refine (denotes_unit _ hlt).near h ?_
  rw [abs_le]
  norm_num at hlow hhigh herror ⊢
  constructor <;> linarith

theorem denotes_254 : Denotes 254 254 := by
  exact_mod_cast denotes_ofInt (n := 254) (by norm_num)

theorem denotes_alpha (w : UInt32) :
    Denotes ((w &&& opaqueByte).toFloat32 / 254) (rounded ((w &&& opaqueByte).toNat / 254)) := by
  have hle := and_opaqueByte_le w
  have hbyte : ((w &&& opaqueByte).toNat : ℚ) ≤ 254 := by exact_mod_cast hle
  refine (denotes_toFloat32 (by omega)).div denotes_254 (by norm_num) ?_
  have hone : |rounded ((w &&& opaqueByte).toNat / 254)| ≤ 1 := by
    refine abs_rounded_le denotes_one.representable ?_
    rw [abs_of_nonneg (by positivity)]
    linarith
  linarith

theorem near_alpha_wrappedByte (h : Denotes x q) (h0 : 0 ≤ q) (h1 : q ≤ 1) :
    Near (1 / 127) ((wrappedByte x &&& opaqueByte).toFloat32 / 254) x := by
  obtain ⟨hlow, hhigh⟩ := wrappedByte_bounds h h0 h1
  have hle := and_opaqueByte_le (wrappedByte x)
  have heven := and_opaqueByte_toNat (wrappedByte_lt x)
  refine (denotes_alpha (wrappedByte x)).near h ?_
  generalize (wrappedByte x).toNat = n at *
  generalize (wrappedByte x &&& opaqueByte).toNat = m at *
  have hm254 : (m : ℚ) ≤ 254 := by exact_mod_cast hle
  have hmn : (m : ℚ) ≤ n := by exact_mod_cast (by omega : m ≤ n)
  have hnm : (n : ℚ) ≤ m + 1 := by exact_mod_cast (by omega : n ≤ m + 1)
  have herror := abs_le.mp (abs_rounded_sub_le_of_lt_two (q := m / 254) (abs_lt.mpr ⟨by linarith, by linarith⟩))
  rw [abs_le]
  norm_num at hlow hhigh herror ⊢
  constructor <;> linarith

/-- Packed channels round-trip: exactly from a word, and within a step of each channel from singles
of the unit interval. -/
theorem pack_roundTrip :
    (∀ w, pack (unpack w) (alpha w) = w &&& storedMask) ∧
      ∀ c₁ c₂ c₃ a : Float32, (∀ x ∈ [c₁, c₂, c₃, a], 0 ≤ x ∧ x ≤ 1) →
        let word := pack ⟨c₁, c₂, c₃⟩ a
        Near (1 / 255 + 1 / 2 ^ 23) (unpack word).first c₁ ∧ Near (1 / 255 + 1 / 2 ^ 23) (unpack word).second c₂ ∧
          Near (1 / 255 + 1 / 2 ^ 23) (unpack word).third c₃ ∧ Near (1 / 127) (alpha word) a := by
  refine ⟨pack_unpack, ?_⟩
  intro c₁ c₂ c₃ a hunit
  have hchannel {x : Float32} (hx : x ∈ [c₁, c₂, c₃, a]) : Near (1 / 255 + 1 / 2 ^ 23) (unit (wrappedByte x)) x := by
    obtain ⟨q, hq, h0, h1⟩ := denotes_of_unit (hunit x hx)
    exact near_unit_wrappedByte hq h0 h1
  obtain ⟨q, hq, h0, h1⟩ := denotes_of_unit (hunit a (by simp))
  dsimp only
  rw [unpack_pack, alpha_pack]
  exact ⟨hchannel (by simp), hchannel (by simp), hchannel (by simp), near_alpha_wrappedByte hq h0 h1⟩

theorem pack_roundTrip_half :
    (∀ x ∈ [0.5, 1, -0, 0.3], (0 : Float32) ≤ x ∧ x ≤ 1) ∧ Near (1 / 127) (alpha (pack ⟨0.5, 1, -0⟩ 0.3)) 0.3 := by
  have hunit : ∀ x ∈ [0.5, 1, -0, 0.3], (0 : Float32) ≤ x ∧ x ≤ 1 := by decide
  exact ⟨hunit, (pack_roundTrip.2 0.5 1 (-0) 0.3 hunit).2.2.2⟩

end ColorWords.Layout
