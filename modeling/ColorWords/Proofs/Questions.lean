import ColorWords.Proofs.Contraction

/-! # Questions of a contraction

A contraction builds one candidate after the other and asks of each but the last whether it
is accepted. Written with effects, the same search leaves a record of its questions: they
go from 31 parts down to the candidate that is returned, or to one part when the gray is
returned without a question.
-/
namespace ColorWords.Gamut
open Layout Single

variable {α : Type}

/-! ## A search with effects -/

/-- The search of `firstAccepted` for tests with effects. -/
def search {m : Type → Type} [Monad m] (build : ℕ → α) (accept : α → m Bool) : ℕ → m α
  | 0 => pure (build 0)
  | k + 1 => do
    if ← accept (build (k + 1)) then pure (build (k + 1)) else search build accept k

def acting {σ : Type} (act : α → σ → σ) (accept : α → Bool) (x : α) : StateM σ Bool := do
  modify (act x)
  return accept x

/-- Without effects it is the same search. -/
theorem search_pure (build : ℕ → α) (accept : α → Bool) (n : ℕ) :
    (search build (fun x => (pure (accept x) : Id Bool)) n).run = firstAccepted build accept n := by
  induction n with
  | zero => rfl
  | succ n ih =>
    cases haccept : accept (build (n + 1)) with
    | true => simp [search, firstAccepted, haccept]
    | false => simpa [search, firstAccepted, haccept] using ih

/-- The state that is left has been acted on by the questions that `shown` lists, in their order. -/
theorem search_acting {σ : Type} (act : α → σ → σ) (build : ℕ → α) (accept : α → Bool) (n : ℕ) (s : σ) :
    (search build (acting act accept) n).run s =
      (firstAccepted build accept n, (shown build accept n).foldl (fun s x => act x s) s) := by
  induction n generalizing s with
  | zero => rfl
  | succ n ih =>
    cases haccept : accept (build (n + 1)) with
    | true =>
      simp only [search, firstAccepted, shown, acting, haccept, if_true]
      rfl
    | false =>
      have hrest := ih (act (build (n + 1)) s)
      simpa [search, firstAccepted, shown, acting, haccept] using hrest

def contractAsking {m : Type → Type} [Monad m] (c : Channels) (gray : Float32) (build : Channels → α)
    (accept : α → m Bool) : m α :=
  search (build ∘ kept gray c) accept (steps - 1)

/-! ## The questions in order -/

def asked (n k : ℕ) : List ℕ := (List.range' (max k 1) (n + 1 - max k 1)).reverse

theorem asked_self (n : ℕ) : asked (n + 1) (n + 1) = [n + 1] := by
  have hmax : max (n + 1) 1 = n + 1 := by omega
  rw [asked, hmax, Nat.add_sub_cancel_left]
  rfl

theorem asked_succ {n k : ℕ} (h : k ≤ n) : asked (n + 1) k = (n + 1) :: asked n k := by
  have hlength : n + 1 + 1 - max k 1 = n + 1 - max k 1 + 1 := by omega
  have hlast : max k 1 + (n + 1 - max k 1) = n + 1 := by omega
  rw [asked, asked, hlength, List.range'_1_concat, List.reverse_concat, hlast]

theorem asked_pairwise (n k : ℕ) : (asked n k).Pairwise (· > ·) :=
  List.pairwise_reverse.mpr List.pairwise_lt_range'

theorem length_asked (n k : ℕ) : (asked n k).length = if k = 0 then n else n + 1 - k := by
  rw [asked, List.length_reverse, List.length_range']
  split <;> omega

/-- A search that ends at `k` has asked for all numbers down to it. -/
theorem shown_eq {build : ℕ → α} {accept : α → Bool} {n k : ℕ} (hk : k ≤ n)
    (hor : accept (build k) = true ∨ k = 0) (hlater : ∀ j, k < j → j ≤ n → accept (build j) = false) :
    shown build accept n = (asked n k).map build := by
  induction n with
  | zero =>
    obtain rfl : k = 0 := by omega
    rfl
  | succ n ih =>
    rcases hk.lt_or_eq with hlt | rfl
    · have hreject := hlater (n + 1) hlt le_rfl
      have hrest := ih (by omega) fun j hj hn => hlater j hj (by omega)
      rw [shown, hreject, if_neg (by simp), hrest, asked_succ (by omega), List.map_cons]
    · have haccept := hor.resolve_right (by omega)
      rw [shown, haccept, if_pos rfl, asked_self, List.map_cons, List.map_nil]

/-! ## Contractions -/

structure Keeps (c : Channels) (gray : Float32) (build : Channels → α) (accept : α → Bool) (k : ℕ) : Prop where
  lt : k < steps
  result : contract c gray build accept = build (kept gray c k)
  accepted : 0 < k → accept (build (kept gray c k)) = true
  rejected : ∀ j, k < j → j < steps → accept (build (kept gray c j)) = false
  questions : candidates c gray build accept = (asked (steps - 1) k).map (build ∘ kept gray c)
  count : (candidates c gray build accept).length = if k = 0 then 31 else 32 - k

theorem exists_keeps (c : Channels) (gray : Float32) (build : Channels → α) (accept : α → Bool) :
    ∃ k, Keeps c gray build accept k := by
  obtain ⟨k, hk, hfirst, hor, hlater⟩ := firstAccepted_spec (build ∘ kept gray c) accept (steps - 1)
  have hsteps : steps - 1 = 31 := rfl
  have hshown := shown_eq hk hor hlater
  refine ⟨k, ⟨by omega, hfirst, ?_, ?_, hshown, ?_⟩⟩
  · intro hpos
    exact hor.resolve_right hpos.ne'
  · intro j hj hlt
    exact hlater j hj (by omega)
  · rw [candidates, hshown, List.length_map, length_asked, hsteps]

/-- The number of parts is the exact progress of a candidate. -/
theorem kept_eq (gray : Float32) (c : Channels) {k : ℕ} (hk : k ≤ steps) :
    ∃ p, Denotes p (k / 32) ∧ kept gray c k = ⟨gray + (c.first - gray) * p, c.second * p, c.third * p⟩ :=
  ⟨_, denotes_part hk, rfl⟩

/-- A contraction returns its least contracted candidate that is accepted, or the gray, and asks of
the candidates down to that one and of no other. -/
theorem contract_least (c : Channels) (gray : Float32) (build : Channels → α) (accept : α → Bool) :
    (∃ k, Keeps c gray build accept k) ∧
      (∀ k, (asked (steps - 1) k).Pairwise (· > ·)) ∧
      (∀ k ≤ steps, ∃ p, Denotes p (k / 32) ∧
        kept gray c k = ⟨gray + (c.first - gray) * p, c.second * p, c.third * p⟩) ∧
      (contractAsking c gray build fun x => (pure (accept x) : Id Bool)).run = contract c gray build accept ∧
      ∀ (σ : Type) (act : α → σ → σ) (s : σ), (contractAsking c gray build (acting act accept)).run s =
        (contract c gray build accept, (candidates c gray build accept).foldl (fun s x => act x s) s) :=
  ⟨exists_keeps c gray build accept, asked_pairwise _, fun _ => kept_eq gray c, search_pure _ _ _,
    fun _ act s => search_acting act _ _ _ s⟩

/-- A band of chroma is accepted, but not less: the first of 16 questions that falls into it wins. -/
theorem contract_least_band :
    let c : Channels := ⟨1, 1, -1⟩
    let accept (a : Float32) : Bool := 0.25 ≤ a && a ≤ 0.5
    contract c 0.5 Channels.second accept = 0.5 ∧
      (contractAsking c 0.5 Channels.second (acting (fun _ count => count + 1) accept)).run 0 =
        (0.5, (candidates c 0.5 Channels.second accept).foldl (fun count _ => count + 1) 0) ∧
      (candidates c 0.5 Channels.second accept).length = 16 := by
  intro c accept
  have hresult : contract c 0.5 Channels.second accept = 0.5 := by set_option maxRecDepth 2000 in decide
  have hrun := (contract_least c 0.5 Channels.second accept).2.2.2.2 ℕ (fun _ count => count + 1) 0
  rw [hresult] at hrun
  exact ⟨hresult, hrun, by decide⟩

end ColorWords.Gamut
