import ColorWords.Color.Convert
import ColorWords.Text.Blank

/-!
# Hexadecimal color literals

A literal is three, four, six or eight hexadecimal digits after an optional number sign, with white
space around it. In a short literal each digit stands for a pair; without digits for alpha the color
is opaque. Colors are written with all eight digits.
-/
namespace ColorWords

inductive HexError where
  | empty
  | badDigit (literal : String)
  | badLength (digits : Nat)
deriving DecidableEq

def HexError.message : HexError → String
  | .empty => "empty color literal"
  | .badDigit literal => "invalid hex color: " ++ literal
  | .badLength digits => "invalid hex color length: " ++ toString digits ++ " digits"

namespace Hex

def digit? (c : Char) : Option UInt8 :=
  if '0' ≤ c ∧ c ≤ '9' then some (c.toNat - '0'.toNat).toUInt8
  else if 'a' ≤ c ∧ c ≤ 'f' then some (c.toNat - 'a'.toNat + 10).toUInt8
  else if 'A' ≤ c ∧ c ≤ 'F' then some (c.toNat - 'A'.toNat + 10).toUInt8
  else none

def pair (high low : UInt8) : UInt8 := high <<< 4 ||| low

def double (d : UInt8) : UInt8 := pair d d

def ofDigits? : List UInt8 → Option Rgb
  | [r, g, b] => some (Rgb.ofBytes (double r) (double g) (double b) 0xFE)
  | [r, g, b, a] => some (Rgb.ofBytes (double r) (double g) (double b) (double a))
  | [r, r', g, g', b, b'] => some (Rgb.ofBytes (pair r r') (pair g g') (pair b b') 0xFE)
  | [r, r', g, g', b, b', a, a'] =>
    some (Rgb.ofBytes (pair r r') (pair g g') (pair b b') (pair a a'))
  | _ => none

def dropSign : List Char → List Char
  | '#' :: rest => rest
  | text => text

def ofChars (text : List Char) : Except HexError Rgb :=
  let literal := Text.trim text
  if literal.isEmpty then .error .empty
  else match (dropSign literal).mapM digit? with
  | none => .error (.badDigit (.ofList literal))
  | some digits =>
    match ofDigits? digits with
    | some c => .ok c
    | none => .error (.badLength digits.length)

def digitChar (n : UInt32) : Char := Nat.digitChar (n.toNat % 16)

def wordDigits (w : UInt32) : List Char :=
  ([28, 24, 20, 16, 12, 8, 4, 0] : List UInt32).map fun shift => digitChar (w >>> shift)

end Hex

def Rgb.ofHex (text : String) : Except HexError Rgb := Hex.ofChars text.toList

/-- The literal of a color: its exchange word after a number sign. -/
def Rgb.toHex (c : Rgb) : String := .ofList ('#' :: Hex.wordDigits c.toRgba)

def Space.title : Space → String
  | .rgb => "Rgb"
  | .ipt => "Ipt"
  | .oklab => "Oklab"

def Color.debugText {s : Space} (c : Color s) : String :=
  s.title ++ "(0x" ++ .ofList (Hex.wordDigits c.bits) ++ ")"

end ColorWords
