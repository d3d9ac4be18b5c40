import ColorWords.Color.Mix
import ColorWords.Proofs.Layout

/-! # Mixtures

Every step of a mixture moves its bytes a share of the way toward those of the next color,
so no byte of a mixture leaves the bytes that are mixed. Hence no mixture of visible
colors is transparent. Weights of one make the weighted mixture the even one: the running
total is then the number of colors so far.
-/
namespace ColorWords.Color
open Single Layout

variable {s : Space} {c d : Color s} {cs : List (Color s)} {change : Float32} {q : ℚ}

/-! ## Stored colors -/

theorem stored_iff : c.Stored ↔ byteAt c.bits alphaShift = c.alphaByte := and_storedMask_eq_iff

theorem stored_ofBits (bits : UInt32) : (ofBits bits : Color s).Stored := by
  rw [Stored, ofBits, UInt32.and_assoc, UInt32.and_self]

theorem stored_transparent : (transparent : Color s).Stored := by
  cases s <;> decide

theorem storedByte_ofBits (bits shift : UInt32) :
    storedByte (ofBits bits : Color s).bits shift = storedByte bits shift := by
  simp only [storedByte, ofBits]
  rw [UInt32.and_assoc, UInt32.and_self]

theorem Stored.storedByte_eq (h : c.Stored) (shift : UInt32) :
    storedByte c.bits shift = (byteAt c.bits shift).toNat := by
  rw [storedByte, h]

theorem Stored.eq_of_storedByte (hc : c.Stored) (hd : d.Stored)
    (h : ∀ shift ∈ byteShifts, storedByte c.bits shift = storedByte d.bits shift) : c = d := by
  obtain ⟨bits⟩ := c
  have hbits := and_storedMask_eq_of_storedByte h
  rw [hc, hd] at hbits
  exact congrArg Color.mk hbits

theorem alphaByte_eq_storedByte (c : Color s) : c.alphaByte.toNat = storedByte c.bits alphaShift :=
  (storedByte_alpha c.bits).symm

/-! ## The ends of the way -/

theorem Stored.lerp_zero (h : c.Stored) (hchange : Denotes change 0) (d : Color s) : c.lerp d change = c := by
  rw [Color.lerp, Layout.lerp_zero hchange, h]
  exact congrArg Color.mk h

theorem Stored.lerp_one (h : d.Stored) (hchange : Denotes change 1) (c : Color s) : c.lerp d change = d := by
  rw [Color.lerp, Layout.lerp_one hchange, h]
  exact congrArg Color.mk h

theorem Stored.lerp_self (h : c.Stored) (hchange : Denotes change q) (h0 : 0 ≤ q) (h1 : q ≤ 1) :
    c.lerp c change = c := by
  rw [Color.lerp, Layout.lerp_self hchange h0 h1, h]
  exact congrArg Color.mk h

theorem lerp_congr {other : Float32} (h : Denotes change q) (hother : Denotes other q) (h0 : 0 ≤ q) (h1 : q ≤ 1)
    (c d : Color s) : c.lerp d change = c.lerp d other := by
  rw [Color.lerp, Color.lerp, Layout.lerp_congr h hother h0 h1]

/-! ## Colors within others -/

def Within (cs : List (Color s)) (c : Color s) : Prop :=
  ∀ shift ∈ byteShifts, (∃ d ∈ cs, storedByte d.bits shift ≤ storedByte c.bits shift) ∧
    ∃ d ∈ cs, storedByte c.bits shift ≤ storedByte d.bits shift

theorem within_of_mem (h : c ∈ cs) : Within cs c := fun _ _ => ⟨⟨c, h, le_rfl⟩, ⟨c, h, le_rfl⟩⟩

theorem Within.lerp (hc : Within cs c) (hd : d ∈ cs) (h : Denotes change q) (h0 : 0 ≤ q) (h1 : q ≤ 1) :
    Within cs (c.lerp d change) := by
  intro shift hshift
  obtain ⟨⟨lo, hlo, hlow⟩, ⟨hi, hhi, hhigh⟩⟩ := hc shift hshift
  simp only [Color.lerp, storedByte_ofBits]
  rcases storedByte_lerp_between hshift c.bits d.bits h h0 h1 with ⟨hstart, hstop⟩ | ⟨hstop, hstart⟩
  · exact ⟨⟨lo, hlo, hlow.trans hstart⟩, ⟨d, hd, hstop⟩⟩
  · exact ⟨⟨d, hd, hstop⟩, ⟨hi, hhi, hstart.trans hhigh⟩⟩

/-- A stored color within copies of one stored color is that color. -/
theorem Within.eq_of_forall (h : Within cs c) (hc : c.Stored) (hd : d.Stored) (hcs : ∀ e ∈ cs, e = d) : c = d := by
  refine hc.eq_of_storedByte hd ?_
  intro shift hshift
  obtain ⟨⟨lo, hlo, hlow⟩, ⟨hi, hhi, hhigh⟩⟩ := h shift hshift
  rw [hcs lo hlo] at hlow
  rw [hcs hi hhi] at hhigh
  exact hhigh.antisymm hlow

/-! ## Even mixtures -/

/-- The share of the color that a count has reached, of any count. -/
theorem denotes_share {k : ℕ} (h1 : 1 ≤ k) : ∃ q : ℚ, Denotes (1 / ofInt k) q ∧ 0 ≤ q ∧ q ≤ 1 := by
  rcases denotes_count k with hk | hk
  · have hpos : 1 ≤ rounded k := le_rounded denotes_one.representable (by exact_mod_cast h1)
    have hlow : 0 ≤ rounded (1 / rounded k) := rounded_nonneg (by positivity)
    have hhigh : rounded (1 / rounded k) ≤ 1 :=
      rounded_le denotes_one.representable (div_le_one_of_le₀ hpos (by linarith))
    refine ⟨_, denotes_one.div hk (by linarith) ?_, hlow, hhigh⟩
    rw [abs_of_nonneg hlow]
    linarith
  · exact ⟨0, hk ▸ denotes_one.div_infinity, le_rfl, zero_le_one⟩

theorem mixFrom_within {rest : List (Color s)} {k : ℕ} (hc : Within cs c) (hrest : ∀ d ∈ rest, d ∈ cs)
    (hk : 1 ≤ k) : Within cs (mixFrom c k rest) := by
  induction rest generalizing c k with
  | nil => exact hc
  | cons d rest ih =>
    obtain ⟨hd, hrest⟩ := List.forall_mem_cons.mp hrest
    obtain ⟨q, hq, h0, h1⟩ := denotes_share hk
    exact ih (hc.lerp hd hq h0 h1) hrest (by omega)

theorem mix_within (hne : cs ≠ []) : Within cs (mix cs) := by
  cases cs with
  | nil => exact absurd rfl hne
  | cons c rest =>
    exact mixFrom_within (within_of_mem List.mem_cons_self) (fun d hd => List.mem_cons_of_mem c hd) (by norm_num)

theorem mixFrom_stored {rest : List (Color s)} (hc : c.Stored) (k : ℕ) : (mixFrom c k rest).Stored := by
  induction rest generalizing c k with
  | nil => exact hc
  | cons d rest ih => exact ih (stored_ofBits _) (k + 1)

/-! ## Weighted mixtures -/

def FiniteWeight (w : Float32) : Prop := w.isFinite = true ∧ 0 ≤ w

instance (w : Float32) : Decidable (FiniteWeight w) := inferInstanceAs (Decidable (_ ∧ _))

variable {state entry : Color s × Float32} {rest : List (Color s × Float32)}

theorem FiniteWeight.denotes {w : Float32} (h : FiniteWeight w) : ∃ q, 0 ≤ q ∧ Denotes w q :=
  ⟨value w, (denotes_zero.le_iff (denotes_value h.1)).mp h.2, denotes_value h.1⟩

theorem FiniteWeight.amount {w : Float32} (h : FiniteWeight w) : Amount w := .inl h.denotes

theorem finiteWeight_of_amount {w : Float32} (h : Amount w) (hfinite : w.isFinite = true) : FiniteWeight w := by
  obtain ⟨q, hq, hw⟩ | rfl := h
  · exact ⟨hfinite, (denotes_zero.le_iff hw).mpr hq⟩
  · exact absurd hfinite (by decide)

theorem addWeighted_amount (htotal : Amount state.2) (h : Amount entry.2) :
    Amount (addWeighted state entry).2 := by
  rw [addWeighted]
  split
  case isTrue => exact htotal
  case isFalse => exact htotal.add h

theorem addWeighted_within (hstate : Within cs state.1) (htotal : Amount state.2) (hcolor : entry.1 ∈ cs)
    (hweight : FiniteWeight entry.2) : Within cs (addWeighted state entry).1 := by
  rw [addWeighted]
  split
  case isTrue => exact hstate
  case isFalse hpos =>
    obtain ⟨q, hq, hw⟩ := hweight.denotes
    obtain ⟨share, hshare, h0, h1⟩ := htotal.share hw hq hpos
    exact hstate.lerp hcolor hshare h0 h1

theorem foldl_addWeighted_within (hstate : Within cs state.1) (htotal : Amount state.2)
    (hrest : ∀ e ∈ rest, e.1 ∈ cs ∧ FiniteWeight e.2) : Within cs (rest.foldl addWeighted state).1 := by
  induction rest generalizing state with
  | nil => exact hstate
  | cons e rest ih =>
    obtain ⟨⟨hcolor, hweight⟩, hrest⟩ := List.forall_mem_cons.mp hrest
    exact ih (addWeighted_within hstate htotal hcolor hweight) (addWeighted_amount htotal hweight.amount) hrest

/-- The first weight may be infinite: it takes part in totals only. -/
theorem weightedMix_within (hfirst : Amount entry.2) (hrest : ∀ e ∈ rest, FiniteWeight e.2) :
    Within ((entry :: rest).map (·.1)) (weightedMix (entry :: rest)) := by
  refine foldl_addWeighted_within (within_of_mem List.mem_cons_self) hfirst ?_
  intro e he
  exact ⟨List.mem_cons_of_mem entry.1 (List.mem_map_of_mem he), hrest e he⟩

theorem addWeighted_stored (h : state.1.Stored) : (addWeighted state entry).1.Stored := by
  rw [addWeighted]
  split
  case isTrue => exact h
  case isFalse => exact stored_ofBits _

theorem foldl_addWeighted_stored (h : state.1.Stored) : (rest.foldl addWeighted state).1.Stored := by
  induction rest generalizing state with
  | nil => exact h
  | cons e rest ih => exact ih (addWeighted_stored h)

/-! ## Infinite weights -/

/-- What an infinite weight after the first leaves: no bit of a color, and an infinite total. -/
def spent : Color s × Float32 := (⟨0⟩, infinity)

theorem lerp_of_notNumber (h : NotNumber change) : c.lerp d change = ⟨0⟩ := by
  rw [Color.lerp, Layout.lerp_eq_zero (lerpByte_of_notNumber h c.bits d.bits)]
  rfl

theorem addWeighted_infinite (htotal : Amount state.2) (h : entry.2 = infinity) :
    addWeighted state entry = spent := by
  rw [addWeighted, h, htotal.add_infinity]
  exact (if_neg infinity_not_le_zero).trans (by rw [lerp_of_notNumber notNumber_infinity_div_infinity, spent])

theorem addWeighted_spent (h : Amount entry.2) : addWeighted spent entry = spent := by
  obtain ⟨q, hq, hw⟩ | hinfinite := h
  · have hzero : (⟨0⟩ : Color s).Stored := UInt32.zero_and
    rw [addWeighted, spent, Amount.infinity_add (hw.amount hq)]
    exact (if_neg infinity_not_le_zero).trans (by rw [hzero.lerp_zero hw.div_infinity])
  · exact addWeighted_infinite (.inr rfl) hinfinite

theorem foldl_addWeighted_spent (hrest : ∀ e ∈ rest, Amount e.2) : rest.foldl addWeighted spent = spent := by
  induction rest with
  | nil => rfl
  | cons e rest ih =>
    obtain ⟨hweight, hrest⟩ := List.forall_mem_cons.mp hrest
    rw [List.foldl_cons, addWeighted_spent hweight, ih hrest]

/-- The share of an infinite weight in its total is no number, and no later color brings anything back. -/
theorem foldl_addWeighted_infinite (htotal : Amount state.2) (hrest : ∀ e ∈ rest, Amount e.2)
    (h : ∃ e ∈ rest, e.2 = infinity) : rest.foldl addWeighted state = spent := by
  induction rest generalizing state with
  | nil =>
    obtain ⟨e, he, -⟩ := h
    cases he
  | cons e rest ih =>
    obtain ⟨hweight, hrest⟩ := List.forall_mem_cons.mp hrest
    rw [List.foldl_cons]
    by_cases hinfinite : e.2 = infinity
    · rw [addWeighted_infinite htotal hinfinite, foldl_addWeighted_spent hrest]
    · refine ih (addWeighted_amount htotal hweight) hrest ?_
      obtain ⟨e', he', hinfinite'⟩ := h
      rcases List.mem_cons.mp he' with rfl | he'
      · exact absurd hinfinite' hinfinite
      · exact ⟨e', he', hinfinite'⟩

theorem weightedMix_infinite (hfirst : Amount entry.2) (hrest : ∀ e ∈ rest, Amount e.2)
    (h : ∃ e ∈ rest, e.2 = infinity) : weightedMix (entry :: rest) = ⟨0⟩ :=
  congrArg Prod.fst (foldl_addWeighted_infinite hfirst hrest h)

/-! ## Bytes of mixtures -/

def BytesBetween (cs : List (Color s)) (c : Color s) : Prop :=
  ∀ shift ∈ byteShifts, (∃ d ∈ cs, byteAt d.bits shift ≤ byteAt c.bits shift) ∧
    ∃ d ∈ cs, byteAt c.bits shift ≤ byteAt d.bits shift

theorem Within.bytesBetween (h : Within cs c) (hc : c.Stored) (hcs : ∀ d ∈ cs, d.Stored) : BytesBetween cs c := by
  intro shift hshift
  obtain ⟨⟨lo, hlo, hlow⟩, ⟨hi, hhi, hhigh⟩⟩ := h shift hshift
  rw [(hcs lo hlo).storedByte_eq, hc.storedByte_eq] at hlow
  rw [(hcs hi hhi).storedByte_eq, hc.storedByte_eq] at hhigh
  exact ⟨⟨lo, hlo, UInt32.le_iff_toNat_le.mpr hlow⟩, ⟨hi, hhi, UInt32.le_iff_toNat_le.mpr hhigh⟩⟩

theorem mix_stored (h : ∀ d ∈ cs, d.Stored) : (mix cs).Stored := by
  cases cs with
  | nil => exact stored_transparent
  | cons c rest => exact mixFrom_stored (h c List.mem_cons_self) 2

theorem weightedMix_stored {entries : List (Color s × Float32)} (h : ∀ e ∈ entries, e.1.Stored) :
    (weightedMix entries).Stored := by
  cases entries with
  | nil => exact stored_transparent
  | cons e rest => exact foldl_addWeighted_stored (h e List.mem_cons_self)

theorem weightedMix_within_colors {entries : List (Color s × Float32)} (hne : entries ≠ [])
    (h : ∀ e ∈ entries, FiniteWeight e.2) : Within (entries.map (·.1)) (weightedMix entries) := by
  cases entries with
  | nil => exact absurd rfl hne
  | cons e rest =>
    obtain ⟨hweight, hrest⟩ := List.forall_mem_cons.mp h
    exact weightedMix_within hweight.amount hrest

theorem mix_replicate (hc : c.Stored) {n : ℕ} (hn : n ≠ 0) : mix (List.replicate n c) = c := by
  have hne : List.replicate n c ≠ [] := by simpa using hn
  have hcopies : ∀ d ∈ List.replicate n c, d = c := fun d hd => List.eq_of_mem_replicate hd
  have hstored := mix_stored fun d hd => (hcopies d hd).symm ▸ hc
  exact (mix_within hne).eq_of_forall hstored hc hcopies

theorem weightedMix_copies (hc : c.Stored) {weights : List Float32} (hne : weights ≠ [])
    (h : ∀ w ∈ weights, FiniteWeight w) : weightedMix (weights.map (c, ·)) = c := by
  have hwithin : Within ((weights.map (c, ·)).map (·.1)) (weightedMix (weights.map (c, ·))) := by
    refine weightedMix_within_colors (by simpa using hne) ?_
    intro e he
    obtain ⟨w, hw, rfl⟩ := List.mem_map.mp he
    exact h w hw
  refine hwithin.eq_of_forall (weightedMix_stored ?_) hc ?_
  · intro e he
    obtain ⟨w, -, rfl⟩ := List.mem_map.mp he
    exact hc
  · intro d hd
    rw [List.map_map] at hd
    obtain ⟨w, -, rfl⟩ := List.mem_map.mp hd
    rfl

/-- Even and weighted mixtures stay byte by byte inside the colors that are mixed, so that copies
of one color mix to it. Weights may be zero, and their total may exceed all singles. -/
theorem mixtures_between :
    (∀ cs : List (Color s), cs ≠ [] → (∀ c ∈ cs, c.Stored) → BytesBetween cs (mix cs)) ∧
      (∀ entries : List (Color s × Float32), entries ≠ [] → (∀ e ∈ entries, e.1.Stored ∧ FiniteWeight e.2) →
        BytesBetween (entries.map (·.1)) (weightedMix entries)) ∧
      ∀ c : Color s, c.Stored →
        (∀ n, n ≠ 0 → mix (List.replicate n c) = c) ∧
          ∀ weights : List Float32, weights ≠ [] → (∀ w ∈ weights, FiniteWeight w) →
            weightedMix (weights.map (c, ·)) = c := by
  refine ⟨?_, ?_, fun c hc => ⟨fun n hn => mix_replicate hc hn, ?_⟩⟩
  · intro cs hne hstored
    exact (mix_within hne).bytesBetween (mix_stored hstored) hstored
  · intro entries hne h
    have hwithin := weightedMix_within_colors hne fun e he => (h e he).2
    refine hwithin.bytesBetween (weightedMix_stored fun e he => (h e he).1) ?_
    intro d hd
    obtain ⟨e, he, rfl⟩ := List.mem_map.mp hd
    exact (h e he).1
  · exact fun weights hne hweights => weightedMix_copies hc hne hweights

theorem mixtures_between_largest :
    let red : Rgb := ⟨0xFE0000FF⟩
    let glass : Rgb := ⟨0x40FF8000⟩
    let largest : Float32 := .ofBits 0x7F7FFFFF
    (∀ c ∈ [red, glass], c.Stored) ∧
      (∀ e ∈ [(red, 0), (glass, largest), (red, largest)], e.1.Stored ∧ FiniteWeight e.2) ∧
      BytesBetween [red, glass] (mix [red, glass]) ∧
      BytesBetween [red, glass, red] (weightedMix [(red, 0), (glass, largest), (red, largest)]) ∧
      mix (List.replicate 3 glass) = glass ∧
      weightedMix [(glass, 0), (glass, largest), (glass, largest)] = glass := by
  intro red glass largest
  have hstored : ∀ c ∈ [red, glass], c.Stored := by decide
  have hentries : ∀ e ∈ [(red, 0), (glass, largest), (red, largest)], e.1.Stored ∧ FiniteWeight e.2 := by
    decide
  have hweights : ∀ w ∈ [0, largest, largest], FiniteWeight w := by decide
  have hcopies := mixtures_between.2.2 glass (by decide)
  exact ⟨hstored, hentries, mixtures_between.1 [red, glass] (by simp) hstored,
    mixtures_between.2.1 _ (by simp) hentries, hcopies.1 3 (by norm_num),
    hcopies.2 [0, largest, largest] (by simp) hweights⟩

/-! ## Visible colors -/

def Visible (c : Color s) : Prop := c.isTransparent = false

instance (c : Color s) : Decidable c.Visible := inferInstanceAs (Decidable (_ = _))

theorem visible_iff : c.Visible ↔ 0 < storedByte c.bits alphaShift := by
  have hzero : c.alphaByte = 0 ↔ c.alphaByte.toNat = 0 := UInt32.toNat_inj.symm
  rw [Visible, isTransparent, beq_eq_false_iff_ne, Ne, hzero, alphaByte_eq_storedByte, Nat.pos_iff_ne_zero]

theorem Visible.ne_transparent (h : c.Visible) : c ≠ transparent := by
  rintro rfl
  cases s <;> exact absurd h (by decide)

theorem Within.visible (h : Within cs c) (hcs : ∀ d ∈ cs, d.Visible) : c.Visible := by
  obtain ⟨⟨d, hd, hle⟩, -⟩ := h alphaShift (by decide)
  have hpos := visible_iff.mp (hcs d hd)
  exact visible_iff.mpr (hpos.trans_le hle)

theorem mix_visible {cs : List (Color s)} (hne : cs ≠ []) (hcs : ∀ d ∈ cs, d.Visible) : (mix cs).Visible :=
  (mix_within hne).visible hcs

/-! ## Weights of one -/

theorem ofInt_pos {k : ℕ} (h1 : 1 ≤ k) (h : k ≤ 2 ^ 24) : ¬ ofInt k ≤ 0 := by
  have hk : Denotes (ofInt k) (k : ℤ) := denotes_ofInt (by rw [abs_of_nonneg (by omega)]; exact_mod_cast h)
  rw [hk.le_iff denotes_zero]
  exact_mod_cast (by omega : ¬ k ≤ 0)

theorem addWeighted_one {k : ℕ} (h : k < 2 ^ 24) (mixture d : Color s) :
    addWeighted (mixture, ofInt k) (d, 1) = (mixture.lerp d (1 / ofInt (k + 1 : ℕ)), ofInt (k + 1 : ℕ)) := by
  have hsum : ofInt k + 1 = ofInt (k + 1 : ℕ) := ofInt_add_one (by omega) (by exact_mod_cast h)
  rw [addWeighted, hsum, if_neg (ofInt_pos (by omega) (by omega))]

theorem foldl_addWeighted_one (mixture : Color s) (cs : List (Color s)) {k : ℕ} (h : k + cs.length ≤ 2 ^ 24) :
    (cs.map (·, (1 : Float32))).foldl addWeighted (mixture, ofInt k) =
      (mixFrom mixture (k + 1) cs, ofInt (k + cs.length : ℕ)) := by
  induction cs generalizing mixture k with
  | nil => rfl
  | cons d rest ih =>
    rw [List.length_cons] at h ⊢
    rw [List.map_cons, List.foldl_cons, addWeighted_one (by omega), ih _ (by omega), mixFrom]
    have hcount : k + 1 + rest.length = k + (rest.length + 1) := by omega
    rw [hcount]

theorem weightedMix_one (cs : List (Color s)) (h : cs.length ≤ 2 ^ 24) :
    weightedMix (cs.map (·, (1 : Float32))) = mix cs := by
  cases cs with
  | nil => rfl
  | cons c rest =>
    rw [List.length_cons] at h
    have hfold := foldl_addWeighted_one c rest (k := 1) (by omega)
    exact congrArg Prod.fst hfold

end ColorWords.Color
