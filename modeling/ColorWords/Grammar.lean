import ColorWords.Adjustment
import ColorWords.Single.Numeral
import ColorWords.Text.Bytes

/-!
# Grammars of descriptions

A grammar says which characters form tokens, which adjectives it knows, how far one level of an
adjective moves lightness and saturation, and whether numbers are weights. `classify` gives the
meaning of a token: an adjective is known by its first letter and one more, and its level by the
length of the token.
-/
namespace ColorWords

structure Features where
  compounds : Bool
  weights : Bool
  decimals : Bool
deriving DecidableEq

/-- An adjective. A token belongs to it if it starts with the letter `initial` and has the letter
`mark` at byte `markAt`, each in either case; `levels` lists token lengths with their levels. -/
structure Adjective where
  word : String
  initial : UInt8
  markAt : Nat
  mark : UInt8
  levels : List (Nat × Nat)
  lightness : Int
  saturation : Int
  compound : Bool
deriving DecidableEq

namespace Adjective

/-- Levels of an adjective of four letters and of its longer forms, as in "dark", "darker",
"darkest" and "darkmost". -/
def fourLetterLevels : List (Nat × Nat) := [(4, 1), (6, 2), (7, 3), (8, 4)]

def light : Adjective := ⟨"light", 0x6C, 2, 0x67, [(5, 1), (7, 2), (8, 3), (9, 4)], 1, 0, false⟩
def bright : Adjective := ⟨"bright", 0x62, 3, 0x67, [(6, 1), (8, 2), (9, 3), (10, 4)], 1, 1, true⟩
def pale : Adjective := ⟨"pale", 0x70, 2, 0x6C, [(4, 1), (5, 2), (6, 3), (7, 4), (8, 4)], 1, -1, true⟩
def weak : Adjective := ⟨"weak", 0x77, 3, 0x6B, fourLetterLevels, -1, -1, true⟩
def rich : Adjective := ⟨"rich", 0x72, 1, 0x69, fourLetterLevels, 0, 1, false⟩
def dark : Adjective := ⟨"dark", 0x64, 1, 0x61, fourLetterLevels, -1, 0, false⟩
def dull : Adjective := ⟨"dull", 0x64, 1, 0x75, fourLetterLevels, 0, -1, false⟩
def deep : Adjective := ⟨"deep", 0x64, 3, 0x70, fourLetterLevels, -1, 1, true⟩

/-- Every adjective; the first one that a token belongs to counts. -/
def all : List Adjective := [light, bright, pale, weak, rich, dark, dull, deep]

def lowerByte (b : UInt8) : UInt8 := if 0x41 ≤ b ∧ b ≤ 0x5A then b + 0x20 else b

def claims (a : Adjective) (token : List UInt8) : Bool :=
  token[0]?.map lowerByte == some a.initial && token[a.markAt]?.map lowerByte == some a.mark

def level? (a : Adjective) (length : Nat) : Option Nat := a.levels.lookup length

end Adjective

inductive Meaning where
  | adjective (change : Adjustment)
  | weight (value : Float32)
  | name (text : String)
deriving DecidableEq

structure Grammar where
  features : Features
  lightnessStep : Float32
  saturationStep : Float32
deriving DecidableEq

namespace Grammar

def extended : Grammar := ⟨⟨true, true, true⟩, 0.20, 0.20⟩

def basic : Grammar := ⟨⟨false, false, false⟩, 0.125, 0.20⟩

def ofSpace : Space → Grammar
  | .rgb => extended
  | .ipt | .oklab => basic

def isTokenChar (g : Grammar) (c : Char) : Bool :=
  c.isAlpha || g.features.weights && (c.isDigit || c == '_') || g.features.decimals && c == '.'

def adjectives (g : Grammar) : List Adjective :=
  Adjective.all.filter fun a => g.features.compounds || !a.compound

def steps (g : Grammar) (lightness saturation : Int) : Adjustment :=
  ⟨g.lightnessStep * Single.ofInt lightness, g.saturationStep * Single.ofInt saturation⟩

def change? (g : Grammar) (token : List UInt8) : Option Adjustment := do
  let a ← g.adjectives.find? (·.claims token)
  let level ← a.level? token.length
  return g.steps (a.lightness * level) (a.saturation * level)

/-- The meaning of a token. A token that starts with a digit is a weight where the grammar has
weights, and weighs one if it is no numeral. -/
def classify (g : Grammar) (token : List Char) : Meaning :=
  if g.features.weights && token.head?.any Char.isDigit then
    .weight ((Single.numeral? token).getD 1)
  else match g.change? (Text.bytes token) with
    | some change => .adjective change
    | none => .name (.ofList token)

end Grammar
end ColorWords
