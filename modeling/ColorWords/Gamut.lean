import ColorWords.Layout

/-!
# The displayable gamut

A color can be displayed when its linear red, green and blue lie in the unit interval up to a small
tolerance. `contract` pulls three channel values toward a gray in steps of one part in 32, the least
contracted first, until what is built from them is accepted; the gray itself ends the search.
-/
namespace ColorWords.Gamut
open Single

def tolerance : Float32 := 1.0e-3

def steps : Nat := 32

def displayable (linear : Channels) : Bool :=
  linear.all fun x => -tolerance ≤ x && x ≤ 1 + tolerance

/-- The channels that keep `k` of the `steps` parts of their distance from the gray of lightness
`gray`. -/
def kept (gray : Float32) (c : Channels) (k : Nat) : Channels :=
  let progress := ofInt k / ofInt steps
  ⟨gray + (c.first - gray) * progress, c.second * progress, c.third * progress⟩

/-- The first of the results for `k`, `k - 1`, …, 1 that is accepted, and the result for 0 when none
is. -/
def firstAccepted {α : Type} (build : Nat → α) (accept : α → Bool) : Nat → α
  | 0 => build 0
  | k + 1 => if accept (build (k + 1)) then build (k + 1) else firstAccepted build accept k

def shown {α : Type} (build : Nat → α) (accept : α → Bool) : Nat → List α
  | 0 => []
  | k + 1 =>
    build (k + 1) :: if accept (build (k + 1)) then [] else shown build accept k

def contract {α : Type} (c : Channels) (gray : Float32) (build : Channels → α) (accept : α → Bool) : α :=
  firstAccepted (build ∘ kept gray c) accept (steps - 1)

def candidates {α : Type} (c : Channels) (gray : Float32) (build : Channels → α) (accept : α → Bool) :
    List α :=
  shown (build ∘ kept gray c) accept (steps - 1)

end ColorWords.Gamut
