import ColorWords.Proofs.Single.Whole

/-! # Zeros of either sign

A zero adds nothing, and what is finite times a zero is a zero, but which of the two zeros
results depends on signs. `Alike` identifies the two.
-/
namespace ColorWords.Single
open Float.Model (UnpackedFloat)
open Float.Model.UnpackedFloat

variable {a b x y z : Float32} {p q : ℚ}

theorem Denotes.unpack_zero (h : Denotes z 0) : ∃ s, z.toModel.unpack = .zero s := by
  obtain ⟨s, hs, -⟩ | ⟨s, m, e, hm, -, -, -, hq⟩ := h.unpack_cases
  · exact ⟨s, hs⟩
  · have hpos : (0 : ℚ) < m * 2 ^ e := mul_pos (by exact_mod_cast hm) (two_zpow_pos e)
    rw [← abs_number_finite s m e hm, ← hq, abs_zero] at hpos
    exact absurd hpos (lt_irrefl 0)

theorem Denotes.eq_zero_or (h : Denotes z 0) : z = 0 ∨ z = -0 := by
  obtain ⟨s, hs⟩ := h.unpack_zero
  cases s with
  | positive => exact .inl (eq_of_unpack_eq hs)
  | negative => exact .inr (eq_of_unpack_eq hs)

theorem Denotes.mul_zero (ha : Denotes a p) (hb : Denotes b 0) : Denotes (a * b) 0 := by
  have hmul := ha.mul hb
  rw [Rat.mul_zero, rounded_zero, abs_zero] at hmul
  exact hmul (by norm_num)

theorem Denotes.add_zero (ha : Denotes a p) (hb : Denotes b 0) : Denotes (a + b) p := by
  have hadd := ha.add hb
  rw [Rat.add_zero, rounded_of_representable ha.representable] at hadd
  exact hadd ha.abs_lt

/-- A zero of either sign adds nothing to a single other than zero. -/
theorem Denotes.add_zero_eq (ha : Denotes a p) (hp : p ≠ 0) (hb : Denotes b 0) : a + b = a :=
  (ha.add_zero hb).unique ha hp

/-- A difference of equals is the zero without a sign. -/
theorem Denotes.sub_self (h : Denotes x q) : x - x = 0 := by
  have hzero : UnpackedFloat.sub .binary32 x.toModel.unpack x.toModel.unpack = .zero .positive := by
    obtain ⟨s, hs, -⟩ | ⟨s, m, e, hm, hs, -⟩ := h.unpack_cases
    · rw [hs]
      cases s <;> rfl
    · rw [hs]
      simp only [UnpackedFloat.sub, Int.sub_self, UnpackedFloat.normalize]
      rfl
  have hdiff : x - x = .ofModel (.pack (UnpackedFloat.sub .binary32 x.toModel.unpack x.toModel.unpack)) := rfl
  rw [hdiff, hzero]
  rfl

def Alike (x y : Float32) : Prop := x = y ∨ Denotes x 0 ∧ Denotes y 0

theorem Alike.refl (x : Float32) : Alike x x := .inl rfl

theorem Alike.trans (hxy : Alike x y) (hyz : Alike y z) : Alike x z := by
  rcases hxy with rfl | ⟨hx, hy⟩
  · exact hyz
  · rcases hyz with rfl | ⟨-, hz⟩
    · exact .inr ⟨hx, hy⟩
    · exact .inr ⟨hx, hz⟩

theorem Denotes.alike (hx : Denotes x q) (hy : Denotes y q) : Alike x y := by
  by_cases hq : q = 0
  · subst hq
    exact .inr ⟨hx, hy⟩
  · exact .inl (hx.unique hy hq)

theorem denotes_of_unpack_zero {s : Sign} (h : x.toModel.unpack = .zero s) : Denotes x 0 := by
  constructor
  · change x.toModel.unpack.isFinite = true
    rw [h]
    rfl
  · rw [value, h]
    rfl

theorem add_zero_unpacked (f : UnpackedFloat) (t : Sign) :
    (∃ s, f = .zero s) ∨ add .binary32 f (.zero t) = f := by
  cases f with
  | zero s => exact .inl ⟨s, rfl⟩
  | infinity s => exact .inr rfl
  | notANumber => exact .inr rfl
  | finite s m e hm => exact .inr rfl

theorem zero_add_unpacked (t : Sign) (f : UnpackedFloat) :
    (∃ s, f = .zero s) ∨ add .binary32 (.zero t) f = f := by
  cases f with
  | zero s => exact .inl ⟨s, rfl⟩
  | infinity s => exact .inr rfl
  | notANumber => exact .inr rfl
  | finite s m e hm => exact .inr rfl

theorem eq_of_toModel_eq_pack {f : UnpackedFloat} (hsum : y.toModel = .pack f) (hf : f = x.toModel.unpack) : y = x := by
  have hpack := unpack_toModel_ofModel (packable_toModel x)
  rw [← hf] at hpack
  exact eq_of_unpack_eq ((congrArg Float32.Model.unpack hsum).trans (hpack.trans hf))

/-- Infinities and NaN are kept too, so that this holds of every single. -/
theorem alike_add_zero (x : Float32) (hz : Denotes z 0) : Alike (x + z) x := by
  obtain ⟨t, ht⟩ := hz.unpack_zero
  have hsum : (x + z).toModel = .pack (add .binary32 x.toModel.unpack z.toModel.unpack) := rfl
  rcases add_zero_unpacked x.toModel.unpack t with ⟨s, hs⟩ | hkeep
  · have hx := denotes_of_unpack_zero hs
    exact .inr ⟨hx.add_zero hz, hx⟩
  · rw [← ht] at hkeep
    exact .inl (eq_of_toModel_eq_pack hsum hkeep)

theorem alike_zero_add (hz : Denotes z 0) (x : Float32) : Alike (z + x) x := by
  obtain ⟨t, ht⟩ := hz.unpack_zero
  have hsum : (z + x).toModel = .pack (add .binary32 z.toModel.unpack x.toModel.unpack) := rfl
  rcases zero_add_unpacked t x.toModel.unpack with ⟨s, hs⟩ | hkeep
  · have hx := denotes_of_unpack_zero hs
    exact .inr ⟨hz.add_zero hx, hx⟩
  · rw [← ht] at hkeep
    exact .inl (eq_of_toModel_eq_pack hsum hkeep)

end ColorWords.Single
