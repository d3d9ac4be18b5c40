import ColorWords.Single.Basic
import Mathlib

/-! # Packing of singles

A single and the sign, mantissa and exponent read from its word determine each other.
`Packable` names the mantissas and exponents that are read from words, one for each
finite single other than the zeros.
-/
namespace ColorWords.Single
open Float.Model (Format UnpackedFloat)
open Float.Model.UnpackedFloat

def Canonical (m : ℕ) (e : ℤ) : Prop :=
  m < 2 ^ 24 ∧ -149 ≤ e ∧ (2 ^ 23 ≤ m ∨ e = -149)

def Packable : UnpackedFloat → Prop
  | .finite _ m e _ => Canonical m e ∧ e ≤ 104
  | _ => True

theorem log2_of_normal {m : ℕ} (hl : 2 ^ 23 ≤ m) (hu : m < 2 ^ 24) : m.log2 = 23 :=
  (Nat.log2_eq_iff (by omega)).mpr ⟨hl, hu⟩

theorem log2_of_subnormal {m : ℕ} (hu : m < 2 ^ 23) : m.log2 < 23 := by
  rcases Nat.eq_zero_or_pos m with rfl | hm
  · decide
  · exact (Nat.log2_lt hm.ne').mpr hu

theorem implicit_toNat (m : BitVec 23) : (1#1 ++ m).toNat = 2 ^ 23 + m.toNat := by
  rw [BitVec.toNat_append, ← Nat.shiftLeft_add_eq_or_of_lt m.isLt, Nat.shiftLeft_eq]
  rfl

theorem unpack_packComponents (s : Sign) (e : BitVec 8) (m : BitVec 23) :
    unpack .binary32 (packComponents .binary32 s e m) =
      if e = -1#8 then if m = 0#23 then .infinity s else .notANumber
      else if e = 0#8 then if h : m = 0#23 then .zero s
        else .finite s m.toNat (e.toNat - 149) (by simpa [BitVec.toNat_pos, BitVec.pos_iff_ne_zero])
      else .finite s (2 ^ 23 + m.toNat) (e.toNat - 150) (by omega) := by
  have hexp : ((e.toNat : ℤ) - (127 + 23) + 1) = e.toNat - 149 := by omega
  simp only [unpack, unpackExponent_packComponents, unpackMantissa_packComponents,
    unpackSign_packComponents, Sign.ofBitVec_toBitVec, implicit_toNat, ← hexp]
  rfl

theorem pack_finite (s : Sign) {m : ℕ} {e : ℤ} (hm : 0 < m) (h : Canonical m e) (he : e ≤ 104) :
    pack .binary32 (.finite s m e hm) =
      packComponents .binary32 s (if 2 ^ 23 ≤ m then .ofNat 8 (e + 150).toNat else 0#8) (.ofNat 23 m) := by
  obtain ⟨hu, hl, -⟩ := h
  have hfit : ¬ 2 ^ 8 ≤ (e + 127 + 23).toNat + 1 := by omega
  have hb : e + 127 + 23 = e + 150 := by omega
  by_cases hn : 2 ^ 23 ≤ m
  · have hlog : m.log2 + 1 = Format.binary32.mantissaBits := by
      rw [log2_of_normal hn hu]
      rfl
    rw [pack, if_neg (by exact hfit), if_pos hlog, if_pos hn, ← hb]
    rfl
  · have hlog : ¬ m.log2 + 1 = Format.binary32.mantissaBits := by
      have := log2_of_subnormal (not_le.mp hn)
      change ¬ m.log2 + 1 = 24
      omega
    rw [pack, if_neg (by exact hfit), if_neg hlog, if_neg hn]

/-- What is packed is unpacked again. -/
theorem unpack_pack {f : UnpackedFloat} (h : Packable f) : unpack .binary32 (pack .binary32 f) = f := by
  cases f with
  | infinity s => cases s <;> rfl
  | notANumber => rfl
  | zero s => cases s <;> rfl
  | finite s m e hm =>
    obtain ⟨hc, he⟩ := h
    rw [pack_finite s hm hc he, unpack_packComponents]
    obtain ⟨hu, hl, hn⟩ := hc
    by_cases hnormal : 2 ^ 23 ≤ m
    · have hb : (BitVec.ofNat 8 (e + 150).toNat).toNat = (e + 150).toNat := by
        rw [BitVec.toNat_ofNat]
        omega
      have hb0 : BitVec.ofNat 8 (e + 150).toNat ≠ 0#8 := by
        rw [ne_eq, ← BitVec.toNat_inj, hb, BitVec.toNat_ofNat]
        omega
      have hb1 : BitVec.ofNat 8 (e + 150).toNat ≠ -1#8 := by
        rw [ne_eq, ← BitVec.toNat_inj, hb]
        change ¬ _ = 255
        omega
      rw [if_pos hnormal, if_neg hb1, if_neg hb0]
      congr 1
      · rw [BitVec.toNat_ofNat]
        omega
      · rw [hb]
        omega
    · have hm' : (BitVec.ofNat 23 m).toNat = m := by
        rw [BitVec.toNat_ofNat]
        omega
      have hm0 : BitVec.ofNat 23 m ≠ 0#23 := by
        rw [ne_eq, ← BitVec.toNat_inj, hm', BitVec.toNat_ofNat]
        omega
      rw [if_neg hnormal, if_neg (by decide), if_pos rfl, dif_neg hm0]
      congr 1
      exact (hn.resolve_left hnormal).symm

theorem packable_unpack (b : BitVec Format.binary32.numBits) : Packable (unpack .binary32 b) := by
  rw [← packComponents_unpackSign_unpackExponent_unpackMantissa b, unpack_packComponents]
  generalize unpackExponent b = e
  generalize unpackMantissa b = m
  have he : e.toNat < 2 ^ 8 := e.isLt
  have hm : m.toNat < 2 ^ 23 := m.isLt
  split_ifs with h1 hm0 h0 hm0
  · trivial
  · trivial
  · trivial
  · refine ⟨⟨by omega, by omega, Or.inr ?_⟩, ?_⟩ <;> rw [h0] <;> decide
  · have h0' : e.toNat ≠ 0 := fun h => h0 (BitVec.eq_of_toNat_eq h)
    have h1' : e.toNat ≠ 255 := fun h => h1 (BitVec.eq_of_toNat_eq h)
    refine ⟨⟨by omega, by omega, Or.inl (by omega)⟩, by omega⟩

end ColorWords.Single
