/-!
# Single-precision numbers

What the library needs of `Float32` beyond its arithmetic: whole numbers out of singles and back,
bounds, and an order of all singles. A single is read through its sign, mantissa and exponent, so
every function here is exact before its one rounding. `truncate` cuts toward zero, `nearest` takes
a half away from zero, and `orderKey` puts every single, the zeros and NaN included, on one line.
-/
namespace ColorWords.Single
open Float.Model (UnpackedFloat)

def wholePart (mantissa : Nat) : Int → Nat
  | .ofNat k => mantissa <<< k
  | .negSucc k => mantissa >>> (k + 1)

def nearestPart (mantissa : Nat) : Int → Nat
  | .ofNat k => mantissa <<< k
  | .negSucc k => (mantissa + 1 <<< k) >>> (k + 1)

def bounded (lo hi n : Int) : Int := max lo (min hi n)

/-- The whole number that `part` finds in a single, within bounds: NaN is zero, and an infinity is
the bound on its side. -/
def toWhole (part : Nat → Int → Nat) (lo hi : Int) (x : Float32) : Int :=
  match x.toModel.unpack with
  | .notANumber => 0
  | .zero _ => 0
  | .infinity .negative => lo
  | .infinity .positive => hi
  | .finite s m e _ => bounded lo hi (s.apply (part m e))

def truncate : Float32 → Int := toWhole wholePart (-0x80000000) 0x7FFFFFFF

/-- The nearest whole number from 0 to `hi`, halves away from zero. -/
def nearest (hi : Nat) : Float32 → Nat := fun x => (toWhole nearestPart 0 hi x).toNat

def infinity : Float32 := .ofBits 0x7F800000

def ofInt (n : Int) : Float32 := .ofModel (.ofInt n)

/-- The greatest whole number that is not above `x`; zeros, infinities and NaN are their own. -/
def floor (x : Float32) : Float32 :=
  match x.toModel.unpack with
  | .finite s m (.negSucc k) _ => ofInt (s.apply m >>> (k + 1))
  | _ => x

def larger (a b : Float32) : Float32 := if a < b || a.isNaN then b else a

def smaller (a b : Float32) : Float32 := if b < a || a.isNaN then b else a

def clamp (lo hi x : Float32) : Float32 := if x < lo then lo else if hi < x then hi else x

def clampUnit : Float32 → Float32 := clamp 0 1

/-- Position of a single in the total order: negative ones before positive ones, `-0` before `0`,
and NaN last. -/
def orderKey (x : Float32) : Nat :=
  let bits := x.toBits.toNat
  if bits < 0x80000000 then bits + 0x80000000 else 0xFFFFFFFF - bits

theorem orderKey_lt (x : Float32) : orderKey x < 0x100000000 := by
  have := x.toBits.toNat_lt
  simp only [orderKey]
  split <;> omega

theorem bounded_of_mem {lo hi n : Int} (hlo : lo ≤ n) (hhi : n ≤ hi) : bounded lo hi n = n := by
  simp only [bounded]
  omega

theorem bounded_mem {lo hi n : Int} (h : lo ≤ hi) : lo ≤ bounded lo hi n ∧ bounded lo hi n ≤ hi := by
  simp only [bounded]
  omega

end ColorWords.Single
