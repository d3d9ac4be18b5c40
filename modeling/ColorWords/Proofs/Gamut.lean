import ColorWords.Proofs.Opponent

/-! # Pulling colors into the gamut

The search for a contraction returns its last result without showing it to the test. That
result is the gray of the space, whatever the color was: a finite distance from gray
times zero is a zero, and the stored gray can be displayed.
-/
namespace ColorWords
open Layout Single

namespace Gamut

/-- The scan returns its largest accepted index, or zero. -/
theorem firstAccepted_spec {α : Type} (build : ℕ → α) (accept : α → Bool) (n : ℕ) :
    ∃ k ≤ n, firstAccepted build accept n = build k ∧ (accept (build k) = true ∨ k = 0) ∧
      ∀ j, k < j → j ≤ n → accept (build j) = false := by
  induction n with
  | zero =>
    refine ⟨0, le_rfl, rfl, .inr rfl, ?_⟩
    intro j hj hn
    omega
  | succ n ih =>
    cases haccept : accept (build (n + 1)) with
    | true =>
      refine ⟨n + 1, le_rfl, by rw [firstAccepted, haccept, if_pos rfl], .inl haccept, ?_⟩
      intro j hj hn
      omega
    | false =>
      obtain ⟨k, hk, hfirst, hor, hlater⟩ := ih
      refine ⟨k, by omega, by rw [firstAccepted, haccept, if_neg (by simp), hfirst], hor, ?_⟩
      intro j hj hn
      rcases hn.lt_or_eq with hlt | rfl
      · exact hlater j hj (by omega)
      · exact haccept

variable {gray : Float32} {g : ℚ} {c : Channels}

/-- Nothing kept of a color leaves the gray, up to the signs of the zeros. -/
theorem kept_zero (hg : Denotes gray g) (h0 : 0 < g) (h1 : g ≤ 1) (hc : c.all Float32.isFinite = true) :
    ∃ y z, kept gray c 0 = ⟨gray, y, z⟩ ∧ (y = 0 ∨ y = -0) ∧ (z = 0 ∨ z = -0) := by
  obtain ⟨l, a, b⟩ := c
  simp only [Channels.all, Bool.and_eq_true] at hc
  have hl := denotes_value hc.1.1
  have hdiff : Denotes (l - gray) (rounded (value l - g)) := by
    refine hl.sub hg (abs_rounded_lt ?_)
    have habs := abs_sub (value l) g
    rw [abs_of_pos h0] at habs
    have hle := hl.abs_le
    norm_num at hle ⊢
    linarith
  have hprogress : ofInt (0 : ℕ) / ofInt steps = 0 := by decide
  have hgray : gray + (l - gray) * 0 = gray := hg.add_zero_eq h0.ne' (hdiff.mul_zero denotes_zero)
  have ha := (denotes_value hc.1.2).mul_zero denotes_zero
  have hb := (denotes_value hc.2).mul_zero denotes_zero
  refine ⟨a * 0, b * 0, ?_, ha.eq_zero_or, hb.eq_zero_or⟩
  simp only [kept, hprogress, hgray]

end Gamut

/-! ## The grays -/

structure DisplayableGray (gray : Float32) (accept : Channels → Bool) : Prop where
  finite : gray.isFinite = true
  pos : 0 < gray
  le_one : gray ≤ 1
  plain : ∀ y z, (y = 0 ∨ y = -0) → (z = 0 ∨ z = -0) → accept ⟨gray, y, z⟩ = true
  stored : ∀ y z, (y = 0 ∨ y = -0) → (z = 0 ∨ z = -0) →
    accept (opponentChannels (opponentWord ⟨gray, y, z⟩)) = true

theorem displayableGray_ipt : DisplayableGray Model.Ipt.grayIntensity Model.Ipt.inGamut := by
  refine ⟨by decide, by decide, by decide, ?_, ?_⟩
  · rintro y z (rfl | rfl) (rfl | rfl) <;> decide
  · rintro y z (rfl | rfl) (rfl | rfl) <;> set_option maxRecDepth 2000 in decide

theorem displayableGray_oklab : DisplayableGray Model.Oklab.grayLightness Model.Oklab.inGamut := by
  refine ⟨by decide, by decide, by decide, ?_, ?_⟩
  · rintro y z (rfl | rfl) (rfl | rfl) <;> set_option maxRecDepth 2000 in decide
  · rintro y z (rfl | rfl) (rfl | rfl) <;> set_option maxRecDepth 2000 in decide

variable {gray : Float32} {accept : Channels → Bool}

theorem DisplayableGray.denotes (h : DisplayableGray gray accept) :
    Denotes gray (value gray) ∧ 0 < value gray ∧ value gray ≤ 1 := by
  have hg := denotes_value h.finite
  exact ⟨hg, (denotes_zero.lt_iff hg).mp h.pos, (hg.le_iff denotes_one).mp h.le_one⟩

theorem DisplayableGray.kept_zero (h : DisplayableGray gray accept) {c : Channels}
    (hc : c.all Float32.isFinite = true) :
    ∃ y z, Gamut.kept gray c 0 = ⟨gray, y, z⟩ ∧ (y = 0 ∨ y = -0) ∧ (z = 0 ∨ z = -0) := by
  obtain ⟨hg, h0, h1⟩ := h.denotes
  exact Gamut.kept_zero hg h0 h1 hc

/-- Every finite color has a candidate that is accepted. -/
theorem DisplayableGray.contract_accepted (h : DisplayableGray gray accept) {c : Channels}
    (hc : c.all Float32.isFinite = true) : accept (Gamut.contract c gray id accept) = true := by
  obtain ⟨k, -, hfirst, hor, -⟩ := Gamut.firstAccepted_spec (id ∘ Gamut.kept gray c) accept (Gamut.steps - 1)
  rw [Gamut.contract, hfirst]
  rcases hor with haccept | rfl
  · exact haccept
  · obtain ⟨y, z, hkept, hy, hz⟩ := h.kept_zero hc
    change accept (Gamut.kept gray c 0) = true
    rw [hkept]
    exact h.plain y z hy hz

theorem Model.Oklab.inGamut_limit {c : Channels} (hc : c.all Float32.isFinite = true) :
    Model.Oklab.inGamut (Model.Oklab.limit c) = true := by
  rw [Model.Oklab.limit]
  by_cases hin : Model.Oklab.inGamut c = true
  · rw [if_pos hin, hin]
  · rw [if_neg hin]
    exact displayableGray_oklab.contract_accepted hc

/-! ## Colors -/

namespace Color
variable {s : Space}

def candidate (gray : Float32) (c : Color s) (k : ℕ) : Color s :=
  c.withOpponents (Gamut.kept gray (opponentChannels c.bits) k)

/-- A color is limited when it comes into the gamut with its alpha, once and for all, and is
contracted no further than needed. -/
structure Limited (gray : Float32) (c : Color s) : Prop where
  inGamut : c.intoGamut.inGamut = true
  alphaByte : c.intoGamut.alphaByte = c.alphaByte
  idempotent : c.intoGamut.intoGamut = c.intoGamut
  unchanged : c.inGamut = true → c.intoGamut = c
  contracted : c.inGamut = false → ∃ k < Gamut.steps, c.intoGamut = c.candidate gray k ∧
    (c.candidate gray k).inGamut = true ∧
    ∀ j, k < j → j < Gamut.steps → (c.candidate gray j).inGamut = false

theorem intoGamut_of_inGamut {c : Color s} (h : c.inGamut = true) : c.intoGamut = c := by
  unfold intoGamut
  exact if_pos h

/-- The least contraction that can be displayed; the stored gray always can. -/
theorem contractTo_spec {c : Color s} (h : DisplayableGray gray accept)
    (haccept : ∀ d : Color s, d.inGamut = accept (opponentChannels d.bits)) :
    ∃ k < Gamut.steps, c.contractTo gray = c.candidate gray k ∧ (c.candidate gray k).inGamut = true ∧
      ∀ j, k < j → j < Gamut.steps → (c.candidate gray j).inGamut = false := by
  obtain ⟨k, hk, hfirst, hor, hlater⟩ :=
    Gamut.firstAccepted_spec (c.candidate gray) Color.inGamut (Gamut.steps - 1)
  have hsteps : 0 < Gamut.steps := by decide
  refine ⟨k, by omega, hfirst, ?_, ?_⟩
  · rcases hor with hin | rfl
    · exact hin
    · obtain ⟨y, z, hkept, hy, hz⟩ := h.kept_zero (opponentChannels_finite c.bits)
      rw [haccept, candidate, opponentChannels_withOpponents, hkept]
      exact h.stored y z hy hz
  · intro j hj hlt
    exact hlater j hj (by omega)

theorem limited_of_contractTo {c : Color s} (h : DisplayableGray gray accept)
    (haccept : ∀ d : Color s, d.inGamut = accept (opponentChannels d.bits))
    (hinto : ∀ d : Color s, d.inGamut = false → d.intoGamut = d.contractTo gray) : c.Limited gray := by
  have hcontract := contractTo_spec (c := c) h haccept
  have hin : c.intoGamut.inGamut = true := by
    cases hc : c.inGamut with
    | true => rw [intoGamut_of_inGamut hc, hc]
    | false =>
      obtain ⟨k, -, hk, haccepted, -⟩ := hcontract
      rw [hinto c hc, hk, haccepted]
  have halpha : c.intoGamut.alphaByte = c.alphaByte := by
    cases hc : c.inGamut with
    | true => rw [intoGamut_of_inGamut hc]
    | false =>
      obtain ⟨k, -, hk, -⟩ := hcontract
      rw [hinto c hc, hk, candidate, alphaByte_withOpponents]
  refine ⟨hin, halpha, intoGamut_of_inGamut hin, intoGamut_of_inGamut, ?_⟩
  intro hc
  rw [hinto c hc]
  exact hcontract

theorem limited_ipt (c : Ipt) : Limited Model.Ipt.grayIntensity c := by
  refine limited_of_contractTo displayableGray_ipt (fun _ => rfl) ?_
  intro d hd
  rw [intoGamut, hd, if_neg (by simp)]

theorem limited_oklab (c : Oklab) : Limited Model.Oklab.grayLightness c := by
  refine limited_of_contractTo displayableGray_oklab (fun _ => rfl) ?_
  intro d hd
  rw [intoGamut, hd, if_neg (by simp)]

/-- Limiting to the gamut succeeds for every stored word and every finite triple, and is minimal. -/
theorem limited_ofBits :
    (∀ bits, Limited Model.Ipt.grayIntensity (ofBits bits : Ipt)) ∧
      (∀ bits, Limited Model.Oklab.grayLightness (ofBits bits : Oklab)) ∧
      ∀ c : Channels, c.all Float32.isFinite = true → Model.Oklab.inGamut (Model.Oklab.limit c) = true :=
  ⟨fun _ => limited_ipt _, fun _ => limited_oklab _, fun _ => Model.Oklab.inGamut_limit⟩

theorem limited_at_largest :
    let largest : Channels := ⟨.ofBits 0x7F7FFFFF, .ofBits 0xFF7FFFFF, 1⟩
    largest.all Float32.isFinite = true ∧ Model.Oklab.inGamut largest = false ∧
      Model.Oklab.inGamut (Model.Oklab.limit largest) = true := by
  intro largest
  have hfinite : largest.all Float32.isFinite = true := by decide
  exact ⟨hfinite, by set_option maxRecDepth 2000 in decide, limited_ofBits.2.2 largest hfinite⟩

end Color
end ColorWords
