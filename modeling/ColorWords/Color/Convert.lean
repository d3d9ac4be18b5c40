import ColorWords.Color.Basic
import ColorWords.Model.Hsl
import ColorWords.Model.Ipt
import ColorWords.Model.Oklab

/-!
# Conversions of colors

Ways into and out of each space: bytes, channel values, hue with saturation and lightness, and the
exchange word RGBA, whose red stands in the highest byte and alpha in the lowest. A stored alpha
byte widens to eight bits by repeating its highest bit at the end.
-/
namespace ColorWords
open Layout Single

/-- Widens an even alpha byte to the full range of a byte. -/
def widenAlpha (a : UInt32) : UInt32 := a ||| a >>> 7

def exchangeWord (r g b a : UInt32) : UInt32 := r <<< 24 ||| g <<< 16 ||| b <<< 8 ||| widenAlpha a

def exchangeChannels (rgba : UInt32) : Channels :=
  ⟨unit (byteAt rgba 24), unit (byteAt rgba 16), unit (byteAt rgba 8)⟩

def opponentWord (c : Channels) : UInt32 :=
  unitByte c.first ||| opponentByte c.second <<< secondShift ||| opponentByte c.third <<< thirdShift

def opponentChannels (bits : UInt32) : Channels :=
  ⟨unit (byteAt bits firstShift), opponent (byteAt bits secondShift),
    opponent (byteAt bits thirdShift)⟩

namespace Rgb

def ofBytes (r g b a : UInt8) : Rgb :=
  ⟨(a.toUInt32 <<< 24 ||| b.toUInt32 <<< 16 ||| g.toUInt32 <<< 8 ||| r.toUInt32) &&& storedMask⟩

def nearestByte (x : Float32) : UInt8 := .ofNat (nearest 255 (clampUnit x * 255))

def ofNearest (c : Channels) (alpha : Float32) : Rgb :=
  ofBytes (nearestByte c.first) (nearestByte c.second) (nearestByte c.third) (nearestByte alpha)

/-- The color of a hue, saturation and lightness; the last two are brought into the unit interval. -/
def ofHsl (c : Model.Hsl) (alpha : Float32) : Rgb :=
  ofNearest (Model.Hsl.toSrgb ⟨c.hue, clampUnit c.saturation, clampUnit c.lightness⟩) alpha

def channels (c : Rgb) : Channels := unpack c.bits

def hsl (c : Rgb) : Model.Hsl := Model.Hsl.ofSrgb c.channels

end Rgb

namespace Ipt

def chromaByte (x : Float32) : UInt32 := boundedByte (x * 127.5 + 127.5)

def ofSrgb (c : Channels) (alpha : Float32) : Ipt :=
  let v := Model.Ipt.ofSrgb c
  ⟨boundedByte (v.first * 255 + 0.5) ||| chromaByte v.second <<< secondShift |||
    chromaByte v.third <<< thirdShift ||| packAlpha alpha⟩

/-- The color of a hue, saturation and lightness; the darkest lightness has neutral chroma. -/
def ofHsl (c : Model.Hsl) (alpha : Float32) : Ipt :=
  if c.lightness ≤ 0.001 then ⟨packAlpha alpha ||| 0x007F7F00⟩
  else ofSrgb (Model.Hsl.toSrgb ⟨c.hue, clampUnit c.saturation, smaller c.lightness 1⟩) alpha

def channels (c : Ipt) : Channels := opponentChannels c.bits

def srgb (c : Ipt) : Channels := Model.Ipt.toSrgb c.channels

end Ipt

namespace Oklab

def ofLab (c : Channels) (alpha : Float32) : Oklab := ⟨opponentWord c ||| packAlpha alpha⟩

def channels (c : Oklab) : Channels := opponentChannels c.bits

def srgb (c : Oklab) : Channels := Model.Oklab.toSrgb c.channels

end Oklab

namespace Color
variable {s : Space}

def ofRgba (rgba : UInt32) : Color s :=
  match s with
  | .rgb =>
    Rgb.ofBytes (rgba >>> 24).toUInt8 (rgba >>> 16).toUInt8 (rgba >>> 8).toUInt8 rgba.toUInt8
  | .ipt => Ipt.ofSrgb (exchangeChannels rgba) ((rgba &&& opaqueByte).toFloat32 / 254)
  | .oklab =>
    ⟨opponentWord (Model.Oklab.ofSrgb (exchangeChannels rgba)) ||| (rgba &&& opaqueByte) <<< alphaShift⟩

def exchange (c : Color s) (srgb : Channels) : UInt32 :=
  exchangeWord (unitByte srgb.first) (unitByte srgb.second) (unitByte srgb.third) c.alphaByte

def toRgba (c : Color s) : UInt32 :=
  match s with
  | .rgb => exchangeWord (c.byte .first) (c.byte .second) (c.byte .third) c.alphaByte
  | .ipt => c.exchange (Ipt.srgb c)
  | .oklab => c.exchange (Oklab.srgb c)

def toOklab (c : Color s) : Oklab :=
  match s with
  | .rgb | .ipt => ofRgba c.toRgba
  | .oklab => c

end Color

def Ipt.ofRgb (c : Rgb) : Ipt := Color.ofRgba c.toRgba

end ColorWords
