import ColorWords.Single.Basic

/-!
# Bit layout of colors

A color is one 32-bit word of four bytes: the first channel in the lowest byte, then the second and
third, and alpha on top. Alpha keeps the upper seven bits of its byte, so a stored alpha byte is
even. A byte is read and written by the shift of its lowest bit.
-/
namespace ColorWords

structure Channels where
  first : Float32
  second : Float32
  third : Float32

namespace Channels

def map (f : Float32 → Float32) (c : Channels) : Channels := ⟨f c.first, f c.second, f c.third⟩

def all (p : Float32 → Bool) (c : Channels) : Bool := p c.first && p c.second && p c.third

end Channels

namespace Layout
open Single

def alphaMask : UInt32 := 0xFE000000

def channelMask : UInt32 := 0x00FFFFFF

def storedMask : UInt32 := alphaMask ||| channelMask

def opaqueByte : UInt32 := 0xFE

def firstShift : UInt32 := 0
def secondShift : UInt32 := 8
def thirdShift : UInt32 := 16
def alphaShift : UInt32 := 24

def byteAt (bits shift : UInt32) : UInt32 := bits >>> shift &&& 0xFF

def alphaByte (bits : UInt32) : UInt32 := bits >>> alphaShift &&& opaqueByte

/-- Replaces the byte at `shift` by the low byte of `value` and drops the bits that are not stored. -/
def setByte (bits shift value : UInt32) : UInt32 :=
  (bits &&& ~~~(0xFF <<< shift) ||| (value &&& 0xFF) <<< shift) &&& storedMask

def wholeWord (x : Float32) : UInt32 := .ofInt (truncate x)

/-- The low byte of the whole part of `255 * x`: values outside the unit interval wrap. -/
def wrappedByte (x : Float32) : UInt32 := wholeWord (x * 255) &&& 0xFF

def pack (c : Channels) (alpha : Float32) : UInt32 :=
  (wrappedByte alpha <<< alphaShift) &&& alphaMask ||| wrappedByte c.third <<< thirdShift |||
    wrappedByte c.second <<< secondShift ||| wrappedByte c.first

def packAlpha (alpha : Float32) : UInt32 := pack ⟨0, 0, 0⟩ alpha &&& alphaMask

def unit (byte : UInt32) : Float32 := byte.toFloat32 / 255

def alpha (bits : UInt32) : Float32 := (alphaByte bits).toFloat32 / 254

def unpack (bits : UInt32) : Channels :=
  ⟨unit (byteAt bits firstShift), unit (byteAt bits secondShift), unit (byteAt bits thirdShift)⟩

/-- The value of an opponent channel, which is stored around 127.5, from -1 to 1. -/
def opponent (byte : UInt32) : Float32 := (byte.toFloat32 - 127.5) / 127.5

def boundedByte (x : Float32) : UInt32 := .ofInt (bounded 0 255 (truncate x))

def opponentByte (x : Float32) : UInt32 := boundedByte (x * 127.999 + 128)

def unitByte (x : Float32) : UInt32 := boundedByte (x * 255.999)

/-- Moves the byte at `shift` toward 255 by the part `change` of the way. -/
def raise (bits shift : UInt32) (change : Float32) : UInt32 :=
  let v := byteAt bits shift
  setByte bits shift (wholeWord (v.toFloat32 + (255 - v).toFloat32 * change))

def lower (bits shift : UInt32) (change : Float32) : UInt32 :=
  setByte bits shift (wholeWord ((byteAt bits shift).toFloat32 * (1 - change)))

/-- Replaces the alpha byte by the upper seven bits of the low byte of `value`. -/
def setAlpha (bits value : UInt32) : UInt32 :=
  bits &&& channelMask ||| (value &&& opaqueByte) <<< alphaShift

def opacify (bits : UInt32) (change : Float32) : UInt32 :=
  let a := alphaByte bits
  setAlpha bits (wholeWord (a.toFloat32 + (opaqueByte - a).toFloat32 * change))

def fade (bits : UInt32) (change : Float32) : UInt32 :=
  setAlpha bits (wholeWord ((alphaByte bits).toFloat32 * (1 - change)))

def lerpByte (start stop : UInt32) (change : Float32) (shift : UInt32) : UInt32 :=
  let s := (byteAt start shift).toFloat32
  let e := (byteAt stop shift).toFloat32
  wholeWord (s + change * (e - s)) &&& 0xFF

def lerp (start stop : UInt32) (change : Float32) : UInt32 :=
  let byte := lerpByte start stop change
  (byte alphaShift &&& opaqueByte) <<< alphaShift ||| byte thirdShift <<< thirdShift |||
    byte secondShift <<< secondShift ||| byte firstShift

end Layout
end ColorWords
