/-!
# Character properties as switching points

A property of characters is stored as the ascending code points where it changes: it is off below
the first point, on from the first, off from the second, and so on. A character has the property
when an odd number of points are not above it. The tables follow Unicode 17.
-/
namespace ColorWords.Text

/-- Whether the property that changes at `points` is on at `c`. -/
def switchedOn (points : List Nat) (c : Char) : Bool :=
  (points.takeWhile (· ≤ c.toNat)).length % 2 == 1

end ColorWords.Text
