import ColorWords.Single.Basic

/-!
# Angles

The angle of a direction, in radians. Libraries leave the precision of angles open, and no result on
colors depends on it. Here the angle is enclosed between two binary fractions by the series

  `arctan (p / q) = Σ k, (2 ^ k * k!) ^ 2 / (2 * k + 1)! * p ^ (2 * k + 1) * q / (p ^ 2 + q ^ 2) ^ (k + 1)`,

whose terms are positive and at least halve when `p ≤ q`. More places are taken until both ends of
the enclosure round to the same single.
-/
namespace ColorWords.Single
open Float.Model (UnpackedFloat)

/-- Two whole numbers around a real one, in units of a binary place. -/
structure Enclosure where
  lower : Nat
  upper : Nat

namespace Enclosure

/-- Encloses `x - y` where the real `x` is not below the real `y`. -/
def sub (x y : Enclosure) : Enclosure := ⟨x.lower - y.upper, x.upper - y.lower⟩

def times (n : Nat) (x : Enclosure) : Enclosure := ⟨n * x.lower, n * x.upper⟩

end Enclosure

/-- Adds `count` further terms of the series, of which `term` is number `k`. -/
def arctanTerms (p q : Nat) : (count k term : Nat) → Nat
  | 0, _, _ => 0
  | count + 1, k, term =>
    term + arctanTerms p q count (k + 1)
      (term * ((2 * k + 2) * (p * p)) / ((2 * k + 3) * (p * p + q * q)))

/-- Encloses `arctan (p / q)` for `p ≤ q` in units of `2 ^ -places`. Each of the `places` terms is
cut by less than two units, and the terms not added come to less than two. -/
def arctanSteep (places p q : Nat) : Enclosure :=
  let sum := arctanTerms p q places 0 ((p * q) <<< places / (p * p + q * q))
  ⟨sum, if p = 0 then 0 else sum + 2 * places + 2⟩

def eighthTurn (places : Nat) : Enclosure := arctanSteep places 1 1

/-- Encloses the angle between the positive first axis and the direction `q` along it, `p` across. -/
def quadrantAngle (places p q : Nat) : Enclosure :=
  if p ≤ q then arctanSteep places p q
  else ((eighthTurn places).times 2).sub (arctanSteep places q p)

def halfPlaneAngle (places p q : Nat) : UnpackedFloat.Sign → Enclosure
  | .positive => quadrantAngle places p q
  | .negative => ((eighthTurn places).times 4).sub (quadrantAngle places p q)

def signOf : UnpackedFloat → UnpackedFloat.Sign
  | .notANumber => .positive
  | .infinity s | .zero s | .finite s _ _ _ => s

/-- Two whole numbers in the ratio of the magnitudes of two singles; an infinity outweighs every
finite number and balances another. -/
def ratio : UnpackedFloat → UnpackedFloat → Nat × Nat
  | .infinity _, .infinity _ => (1, 1)
  | .infinity _, _ => (1, 0)
  | _, .infinity _ => (0, 1)
  | .finite _ m e _, .finite _ n f _ => (m <<< (e - f).toNat, n <<< (f - e).toNat)
  | .finite .., _ => (1, 0)
  | _, _ => (0, 1)

def ofPlaces (s : UnpackedFloat.Sign) (places n : Nat) : Float32 :=
  .ofModel (.pack (UnpackedFloat.round .binary32 s n (-places)))

def agreed? (s : UnpackedFloat.Sign) (places : Nat) (x : Enclosure) : Option Float32 :=
  let nearest := ofPlaces s places x.lower
  if nearest.toBits = (ofPlaces s places x.upper).toBits then some nearest else none

def anglePlaces : List Nat := [64, 128, 256, 512, 1024]

def angle (y x : Float32) : Float32 :=
  if y.isNaN || x.isNaN then y + x else
  let across := y.toModel.unpack
  let along := x.toModel.unpack
  let (p, q) := ratio across along
  let enclose (places : Nat) := halfPlaneAngle places p q (signOf along)
  let tried := anglePlaces.findSome? fun places => agreed? (signOf across) places (enclose places)
  tried.getD (ofPlaces (signOf across) 1024 (enclose 1024).lower)

end ColorWords.Single
