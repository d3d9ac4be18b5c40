import ColorWords.Single.Basic

/-!
# Numerals

Reads a decimal numeral as the single nearest to it: digits, then at most one point with further
digits, then at most one exponent. Too large a numeral reads as infinity.
-/
namespace ColorWords.Single

def digitsValue (digits : List Char) : Nat :=
  digits.foldl (fun n c => 10 * n + (c.toNat - '0'.toNat)) 0

def spanDigits (text : List Char) : List Char × List Char :=
  (text.takeWhile Char.isDigit, text.dropWhile Char.isDigit)

def spanFraction : List Char → List Char × List Char
  | '.' :: rest => spanDigits rest
  | text => ([], text)

def wholeNumber? (text : List Char) : Option Nat :=
  if text ≠ [] ∧ text.all Char.isDigit then some (digitsValue text) else none

/-- Reads the exponent that ends a numeral; no text stands for zero. -/
def exponent? : List Char → Option Int
  | [] => some 0
  | mark :: rest =>
    if mark = 'e' ∨ mark = 'E' then
      match rest with
      | '-' :: digits => (wholeNumber? digits).map (-·)
      | '+' :: digits => (wholeNumber? digits).map (·)
      | digits => (wholeNumber? digits).map (·)
    else none

def numeral? (text : List Char) : Option Float32 :=
  let (whole, rest) := spanDigits text
  let (fraction, rest) := spanFraction rest
  if whole = [] then none
  else (exponent? rest).map fun e =>
    .ofModel (.ofScientific (digitsValue (whole ++ fraction)) (e - fraction.length))

end ColorWords.Single
