import ColorWords.Color.Edit

/-!
# Adjustments

What the adjectives of a description add up to: a change of lightness and one of saturation. A
positive change lightens or enriches, a negative one darkens or dulls, and a change counts for at
most one whole.
-/
namespace ColorWords
open Single

structure Adjustment where
  lightness : Float32
  saturation : Float32
deriving DecidableEq

namespace Adjustment
variable {s : Space}

def zero : Adjustment := ⟨0, 0⟩

def add (a b : Adjustment) : Adjustment := ⟨a.lightness + b.lightness, a.saturation + b.saturation⟩

def neg (a : Adjustment) : Adjustment := ⟨-a.lightness, -a.saturation⟩

instance : Add Adjustment := ⟨add⟩
instance : Neg Adjustment := ⟨neg⟩

/-- Applies `up` to a positive change and `down` to the size of a negative one, at most one whole. -/
def move (up down : Color s → Float32 → Color s) (change : Float32) (c : Color s) : Color s :=
  if 0 < change then up c (smaller change 1)
  else if change < 0 then down c (smaller (-change) 1)
  else c

def apply (a : Adjustment) (c : Color s) : Color s :=
  move .enrich .dullen a.saturation (move .lighten .darken a.lightness c)

end Adjustment
end ColorWords
