import ColorWords.Proofs.Frame
import ColorWords.Proofs.Single.Infinite

/-! # Dulling

A duller color has each chroma byte on the way from where it was to neutral, and the further on
that way the stronger the change. Reading and storing a byte are no inverse functions, but what
is stored lies between two whole numbers and neutral between two bytes, so that neither a byte
nor its side is lost to rounding.
-/
namespace ColorWords
open Layout Single

namespace Layout
variable {f g : Float32} {p q : ℚ} {b : UInt32}

def scaledByte (b : UInt32) (factor : Float32) : UInt32 := opponentByte (opponent b * factor)

theorem opponentValue_nonneg {n : ℕ} (h : 128 ≤ n) : 0 ≤ opponentValue n := by
  have hn : (128 : ℚ) ≤ n := by exact_mod_cast h
  exact rounded_nonneg (div_nonneg (by linarith) (by norm_num))

theorem opponentValue_nonpos {n : ℕ} (h : n < 128) : opponentValue n ≤ 0 := by
  have hn : (n : ℚ) ≤ 127 := by exact_mod_cast Nat.le_of_lt_succ h
  exact rounded_le denotes_zero.representable (div_nonpos_of_nonpos_of_nonneg (by linarith) (by norm_num))

theorem abs_scaledValue_le (hb : b.toNat < 256) (h0 : 0 ≤ p) (h1 : p ≤ 1) :
    |rounded (opponentValue b.toNat * p)| ≤ 1 := by
  refine abs_rounded_le denotes_one.representable ?_
  rw [abs_mul, abs_of_nonneg h0]
  exact mul_le_one₀ (abs_opponentValue_le hb) h0 h1

theorem denotes_scaledValue (hb : b.toNat < 256) (hf : Denotes f p) (h0 : 0 ≤ p) (h1 : p ≤ 1) :
    Denotes (opponent b * f) (rounded (opponentValue b.toNat * p)) :=
  (denotes_opponent b hb).mul hf ((abs_scaledValue_le hb h0 h1).trans_lt (by norm_num))

theorem scaledByte_le (hb : b.toNat < 256) (hf : Denotes f p) (hg : Denotes g q) (hp : 0 ≤ p ∧ p ≤ 1)
    (hq : 0 ≤ q ∧ q ≤ 1) (h : opponentValue b.toNat * p ≤ opponentValue b.toNat * q) :
    scaledByte b f ≤ scaledByte b g :=
  opponentByte_mono (denotes_scaledValue hb hf hp.1 hp.2) (denotes_scaledValue hb hg hq.1 hq.2)
    (abs_scaledValue_le hb hp.1 hp.2) (abs_scaledValue_le hb hq.1 hq.2) (rounded_mono h)

theorem scaledByte_one (hb : b.toNat < 256) (hf : Denotes f 1) : scaledByte b f = b := by
  have hvalue := denotes_opponent b hb
  have hscaled := denotes_scaledValue hb hf zero_le_one le_rfl
  rw [mul_one, rounded_of_representable hvalue.representable] at hscaled
  rw [scaledByte, opponentByte_congr hscaled hvalue (abs_opponentValue_le hb), opponentByte_opponent b hb]

/-- Both zeros are stored as the upper neutral byte. -/
theorem scaledByte_zero (hb : b.toNat < 256) (hf : Denotes f 0) : scaledByte b f = 0x80 := by
  have hneutral : opponentByte 0 = 0x80 := by decide
  rw [scaledByte, opponentByte_congr ((denotes_opponent b hb).mul_zero hf) denotes_zero (by norm_num), hneutral]

/-! ## On the way to neutral -/

/-- Twice the distance of a chroma byte from neutral, which lies between 127 and 128. -/
def neutralGap (b : UInt32) : ℕ := (2 * (b.toNat : ℤ) - 255).natAbs

def KeepsSide (b d : UInt32) : Prop := (d < 0x80 ↔ b < 0x80) ∨ d = 0x7F ∨ d = 0x80

/-- From `b` to neutral, `d` comes first and then `e`. -/
structure TowardNeutral (b d e : UInt32) : Prop where
  high : 0x80 ≤ b → 0x80 ≤ e ∧ e ≤ d ∧ d ≤ b
  low : b < 0x80 → b ≤ d ∧ d ≤ e ∧ e ≤ 0x80

variable {d e : UInt32}

theorem TowardNeutral.toNat (h : TowardNeutral b d e) :
    (128 ≤ b.toNat → 128 ≤ e.toNat ∧ e.toNat ≤ d.toNat ∧ d.toNat ≤ b.toNat) ∧
      (b.toNat < 128 → b.toNat ≤ d.toNat ∧ d.toNat ≤ e.toNat ∧ e.toNat ≤ 128) :=
  ⟨h.high, h.low⟩

theorem TowardNeutral.neutralGap_le (h : TowardNeutral b d e) :
    neutralGap e ≤ neutralGap d ∧ neutralGap d ≤ neutralGap b := by
  obtain ⟨hhigh, hlow⟩ := h.toNat
  simp only [neutralGap]
  omega

theorem TowardNeutral.keepsSide (h : TowardNeutral b d e) : KeepsSide b d ∧ KeepsSide b e := by
  obtain ⟨hhigh, hlow⟩ := h.toNat
  have h80 : (0x80 : UInt32).toNat = 128 := rfl
  simp only [KeepsSide, UInt32.lt_iff_toNat_lt, ← UInt32.toNat_inj, h80]
  omega

/-- The smaller factor brings a byte nearer to neutral. -/
theorem scaledByte_towardNeutral (hb : b.toNat < 256) (hf : Denotes f p) (hg : Denotes g q) (h0 : 0 ≤ p)
    (hpq : p ≤ q) (h1 : q ≤ 1) : TowardNeutral b (scaledByte b g) (scaledByte b f) := by
  have hzero : (0 : ℚ) ≤ 0 ∧ (0 : ℚ) ≤ 1 := ⟨le_rfl, zero_le_one⟩
  have hone : (0 : ℚ) ≤ 1 ∧ (1 : ℚ) ≤ 1 := ⟨zero_le_one, le_rfl⟩
  have hp : 0 ≤ p ∧ p ≤ 1 := ⟨h0, hpq.trans h1⟩
  have hq : 0 ≤ q ∧ q ≤ 1 := ⟨h0.trans hpq, h1⟩
  constructor
  · intro hside
    have hvalue := opponentValue_nonneg (UInt32.le_iff_toNat_le.mp hside)
    have hneutral := scaledByte_le hb denotes_zero hf hzero hp (mul_le_mul_of_nonneg_left h0 hvalue)
    have hstep := scaledByte_le hb hf hg hp hq (mul_le_mul_of_nonneg_left hpq hvalue)
    have hstart := scaledByte_le hb hg denotes_one hq hone (mul_le_mul_of_nonneg_left h1 hvalue)
    rw [scaledByte_zero hb denotes_zero] at hneutral
    rw [scaledByte_one hb denotes_one] at hstart
    exact ⟨hneutral, hstep, hstart⟩
  · intro hside
    have hvalue := opponentValue_nonpos (UInt32.lt_iff_toNat_lt.mp hside)
    have hneutral := scaledByte_le hb hf denotes_zero hp hzero (mul_le_mul_of_nonpos_left h0 hvalue)
    have hstep := scaledByte_le hb hg hf hq hp (mul_le_mul_of_nonpos_left hpq hvalue)
    have hstart := scaledByte_le hb denotes_one hg hone hq (mul_le_mul_of_nonpos_left h1 hvalue)
    rw [scaledByte_zero hb denotes_zero] at hneutral
    rw [scaledByte_one hb denotes_one] at hstart
    exact ⟨hstart, hstep, hneutral⟩

end Layout

/-! ## Colors -/

namespace Color
variable {s : Space} {c : Color s} {channel : Channel} {f x : Float32} {p : ℚ}

theorem byte_scaleOpponents_chroma (c : Color s) (h : channel ≠ .first) (factor : Float32) :
    (c.scaleOpponents factor).byte channel = scaledByte (c.byte channel) factor := by
  cases channel with
  | first => exact absurd rfl h
  | second => exact (byteAt_withOpponents c _ (by decide)).trans (byteAt_opponentWord_second _)
  | third => exact (byteAt_withOpponents c _ (by decide)).trans (byteAt_opponentWord_third _)

/-- A factor of one stores every byte as it was read. -/
theorem Stored.scaleOpponents_one (h : c.Stored) (hf : Denotes f 1) : c.scaleOpponents f = c := by
  have hchroma (channel : Channel) (hchannel : channel ≠ .first) :
      (c.scaleOpponents f).byte channel = c.byte channel := by
    rw [byte_scaleOpponents_chroma c hchannel, scaledByte_one (c.byte_lt channel) hf]
  refine congrArg Color.mk (eq_of_byteAt fun shift hshift => ?_)
  by_cases hmem : shift ∈ [secondShift, thirdShift]
  · simp only [List.mem_cons, List.not_mem_nil, or_false] at hmem
    rcases hmem with rfl | rfl
    · exact hchroma .second nofun
    · exact hchroma .third nofun
  · exact sameExcept_scaleOpponents h f shift hshift hmem

theorem dullen_eq (hs : s ≠ .rgb) (c : Color s) (change : Float32) :
    c.dullen change = c.scaleOpponents (larger (1 - change) 0) := by
  cases s with
  | rgb => exact absurd rfl hs
  | ipt => rfl
  | oklab => rfl

theorem enrich_eq (hs : s ≠ .rgb) (c : Color s) (change : Float32) :
    c.enrich change = (c.scaleOpponents (1 + change)).intoGamut := by
  cases s with
  | rgb => exact absurd rfl hs
  | ipt => rfl
  | oklab => rfl

/-- The factor by which a change scales chroma down. -/
theorem denotes_remaining (h : Denotes x p) (h0 : 0 ≤ p) (h1 : p ≤ 1) :
    Denotes (larger (1 - x) 0) (rounded (1 - p)) := by
  have hlow : 0 ≤ rounded (1 - p) := rounded_nonneg (by linarith)
  have hhigh : rounded (1 - p) ≤ 1 := rounded_le denotes_one.representable (by linarith)
  have hrest := (denotes_one.sub h (by rw [abs_of_nonneg hlow]; linarith)).larger denotes_zero
  rwa [max_eq_left hlow] at hrest

theorem dullen_towardNeutral (hs : s ≠ .rgb) (c : Color s) (hchannel : channel ≠ .first) {x y : Float32}
    (h0 : 0 ≤ x) (hxy : x ≤ y) (h1 : y ≤ 1) :
    TowardNeutral (c.byte channel) ((c.dullen x).byte channel) ((c.dullen y).byte channel) := by
  obtain ⟨p, q, hx, hy, hp0, hpq, hq1⟩ := denotes_of_ordered h0 hxy h1
  rw [dullen_eq hs, dullen_eq hs, byte_scaleOpponents_chroma c hchannel, byte_scaleOpponents_chroma c hchannel]
  exact scaledByte_towardNeutral (c.byte_lt channel) (denotes_remaining hy (hp0.trans hpq) hq1)
    (denotes_remaining hx hp0 (hpq.trans hq1)) (rounded_nonneg (by linarith)) (rounded_mono (by linarith))
    (rounded_le denotes_one.representable (by linarith))

theorem denotes_remaining_zero : Denotes (larger (1 - 0) 0) 1 := by
  have hrest := denotes_remaining denotes_zero le_rfl zero_le_one
  rwa [sub_zero, rounded_of_representable denotes_one.representable] at hrest

theorem denotes_remaining_one : Denotes (larger (1 - 1) 0) 0 := by
  have hrest := denotes_remaining denotes_one zero_le_one le_rfl
  rwa [sub_self, rounded_zero] at hrest

/-- Dulling brings each chroma byte nearer to neutral and never past it, the more the stronger it
is, and leaves lightness and alpha alone. No change is none, and the whole change leaves a gray. -/
theorem dullen_contracts (hs : s ≠ .rgb) (c : Color s) (hc : c.Stored) :
    (∀ x y : Float32, 0 ≤ x → x ≤ y → y ≤ 1 → ∀ channel : Channel, channel ≠ .first →
      (neutralGap ((c.dullen y).byte channel) ≤ neutralGap ((c.dullen x).byte channel) ∧
        neutralGap ((c.dullen x).byte channel) ≤ neutralGap (c.byte channel)) ∧
      KeepsSide (c.byte channel) ((c.dullen x).byte channel) ∧
        KeepsSide (c.byte channel) ((c.dullen y).byte channel)) ∧
      (∀ x : Float32, c.SameExcept [secondShift, thirdShift] (c.dullen x)) ∧
      c.dullen 0 = c ∧ c.enrich 0 = c.intoGamut ∧
      ∀ channel : Channel, channel ≠ .first → (c.dullen 1).byte channel = 0x80 := by
  refine ⟨?_, ?_, ?_, ?_, ?_⟩
  · intro x y h0 hxy h1 channel hchannel
    have htoward := dullen_towardNeutral hs c hchannel h0 hxy h1
    exact ⟨htoward.neutralGap_le, htoward.keepsSide⟩
  · intro x
    rw [dullen_eq hs]
    exact sameExcept_scaleOpponents hc _
  · rw [dullen_eq hs, hc.scaleOpponents_one denotes_remaining_zero]
  · rw [enrich_eq hs, hc.scaleOpponents_one (denotes_one.add_zero denotes_zero)]
  · intro channel hchannel
    rw [dullen_eq hs, byte_scaleOpponents_chroma c hchannel, scaledByte_zero (c.byte_lt channel) denotes_remaining_one]

theorem dullen_contracts_rust :
    let rust : Oklab := ⟨0x90A86C70⟩
    rust.Stored ∧ neutralGap ((rust.dullen 0.75).byte .second) ≤ neutralGap ((rust.dullen 0.25).byte .second) ∧
      KeepsSide (rust.byte .third) ((rust.dullen 0.75).byte .third) ∧ rust.dullen 0 = rust ∧
      (rust.dullen 1).byte .second = 0x80 := by
  intro rust
  have hrust : rust.Stored := by decide
  obtain ⟨hnear, -, hnone, -, hwhole⟩ := dullen_contracts (by decide) rust hrust
  have hstep := hnear 0.25 0.75 (by decide) (by decide) (by decide)
  exact ⟨hrust, (hstep .second nofun).1.1, (hstep .third nofun).2.2, hnone, hwhole .second nofun⟩

end Color
end ColorWords
