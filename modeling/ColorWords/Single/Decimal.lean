import ColorWords.Single.Basic

/-!
# Decimal text of singles

A single is written with the fewest decimal digits that still read back as it: `shortest` takes the
coarsest decimal grid with a point among the reals that round to the single, and of two such points
the nearer one. A `NumberStyle` decides how the digits are laid out.
-/
namespace ColorWords.Single
open Float.Model (UnpackedFloat)

structure Decimal where
  digits : Nat
  exponent : Int
deriving DecidableEq

/-- The reals that round to a positive single, in quarters of its last binary place: its value and
the ends of the interval, which belong to it if `closed`. -/
structure Interval where
  value : Nat
  lower : Nat
  upper : Nat
  closed : Bool

/-- The interval of the single `m * 2 ^ e`. Below a power of two the singles lie twice as dense. -/
def intervalOf (m : Nat) (e : Int) : Interval where
  value := 4 * m
  lower := if m = 0x800000 ∧ e ≠ -149 then 4 * m - 1 else 4 * m - 2
  upper := 4 * m + 2
  closed := m % 2 == 0

def Interval.holds (i : Interval) (scale x : Nat) : Bool :=
  if i.closed then i.lower * scale ≤ x && x ≤ i.upper * scale
  else i.lower * scale < x && x < i.upper * scale

/-- The point of the grid of `step / scale` that lies in the interval nearest to its value, the
upper one of two that are equally near. -/
def Interval.pointOn? (i : Interval) (scale step : Nat) : Option Nat :=
  let below := i.value * scale / step
  let rest := i.value * scale % step
  match i.holds scale (below * step), i.holds scale ((below + 1) * step) with
  | true, true => some (if 2 * rest < step then below else below + 1)
  | true, false => some below
  | false, true => some (below + 1)
  | false, false => none

def decimalOn? (m : Nat) (e k : Int) : Option Decimal :=
  let scale := Nat.pow 10 (-k).toNat <<< (e - 2).toNat
  let step := Nat.pow 10 k.toNat <<< (2 - e).toNat
  ((intervalOf m e).pointOn? scale step).map (⟨·, k⟩)

def decimalExponents : List Int := (List.range 90).map fun (i : Nat) => 40 - (i : Int)

def shortest (m : Nat) (e : Int) : Decimal :=
  (decimalExponents.findSome? (decimalOn? m e)).getD ⟨m, e⟩

/-- How digits are laid out: `wholeMark` follows a number without a fraction, and `positional` says
for which places of the first digit, counted from the point, no exponent is used. -/
structure NumberStyle where
  wholeMark : String
  positional : Int → Bool

namespace NumberStyle

def plain : NumberStyle := ⟨"", fun _ => true⟩

/-- A number always shows a fraction or an exponent; it has an exponent from `10 ^ 16` on and below
`10 ^ -4`. -/
def marked : NumberStyle := ⟨".0", fun place => -3 ≤ place && place ≤ 16⟩

end NumberStyle

def Decimal.render (style : NumberStyle) (d : Decimal) : String :=
  let digits := Nat.toDigits 10 d.digits
  let place : Int := digits.length + d.exponent
  if style.positional place then
    if place ≤ 0 then "0." ++ .ofList (List.replicate (-place).toNat '0' ++ digits)
    else if 0 ≤ d.exponent then
      .ofList (digits ++ List.replicate d.exponent.toNat '0') ++ style.wholeMark
    else .ofList (digits.take place.toNat ++ '.' :: digits.drop place.toNat)
  else
    let fraction := if digits.length ≤ 1 then [] else '.' :: digits.drop 1
    .ofList (digits.take 1 ++ fraction) ++ "e" ++ toString (place - 1)

def signText : UnpackedFloat.Sign → String
  | .negative => "-"
  | .positive => ""

def render (style : NumberStyle) (x : Float32) : String :=
  match x.toModel.unpack with
  | .notANumber => "NaN"
  | .infinity s => signText s ++ "inf"
  | .zero s => signText s ++ "0" ++ style.wholeMark
  | .finite s m e _ => signText s ++ (shortest m e).render style

end ColorWords.Single
