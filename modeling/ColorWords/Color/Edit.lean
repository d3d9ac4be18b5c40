import ColorWords.Color.Descriptor

/-!
# Edits of colors

Lighter, darker, richer and duller colors. Lightness moves by bytes; chroma is scaled in the
opponent channels, which an RGB color borrows from Oklab.
-/
namespace ColorWords
open Layout Single

namespace Rgb

/-- Scales the Oklab chroma by `factor`, passes the result through `finish` and keeps alpha. -/
def scaleChroma (finish : Channels → Channels) (factor : Float32) (c : Rgb) : Rgb :=
  let v := Model.Oklab.ofSrgb c.channels
  let w := Model.Oklab.toSrgb (finish ⟨v.first, v.second * factor, v.third * factor⟩)
  let bits := unitByte w.first ||| unitByte w.second <<< secondShift ||| unitByte w.third <<< thirdShift
  ⟨setAlpha bits (.ofNat (nearest 0xFFFFFFFF (c.alpha * 254)))⟩

end Rgb

namespace Color
variable {s : Space}

def scaleOpponents (c : Color s) (factor : Float32) : Color s :=
  let v := opponentChannels c.bits
  c.withOpponents ⟨v.first, v.second * factor, v.third * factor⟩

def lighten (c : Color s) (change : Float32) : Color s :=
  match s with
  | .rgb => ((c.raise .first change).raise .second change).raise .third change
  | .ipt | .oklab => c.raise .first change

def darken (c : Color s) (change : Float32) : Color s :=
  match s with
  | .rgb => ((c.lower .first change).lower .second change).lower .third change
  | .ipt | .oklab => c.lower .first change

def enrich (c : Color s) (change : Float32) : Color s :=
  match s with
  | .rgb => Rgb.scaleChroma Model.Oklab.limit (1 + change) c
  | .ipt | .oklab => (c.scaleOpponents (1 + change)).intoGamut

def dullen (c : Color s) (change : Float32) : Color s :=
  match s with
  | .rgb => Rgb.scaleChroma id (larger (1 - change) 0) c
  | .ipt | .oklab => c.scaleOpponents (larger (1 - change) 0)

end Color

namespace Ipt

def gray : Ipt := ⟨0xFE808080⟩

/-- Keeps the part `fraction` of the way from opaque gray to the color, in every byte. -/
def towardGray (c : Ipt) (fraction : Float32) : Ipt := ⟨Layout.lerp gray.bits c.bits fraction⟩

def squaredDifference (a b : Ipt) (channel : Channel) : Int :=
  let d : Int := (a.byte channel).toNat - (b.byte channel).toNat
  d * d

/-- An intensity on the other side of the middle from `background`, unless the chroma of the two is
far apart already. -/
def contrasting (c background : Ipt) : Ipt :=
  if 0x10000 ≤ squaredDifference c background .second + squaredDifference c background .third then c
  else
    let i := (c.byte .first).toFloat32
    let intensity :=
      if background.byte .first < 128 then i * (0.45 / 255) + 0.55 else 0.5 - i * (0.45 / 255)
    ⟨setByte c.bits firstShift (unitByte intensity)⟩

/-- Adds to hue, saturation, intensity and opacity. Hue wraps, the others stay in the unit interval,
and a color without intensity is neutral. -/
def edited (c : Ipt) (hue saturation intensity opacity : Float32) : Ipt :=
  let v := c.channels
  let i := clampUnit (intensity + v.first)
  let alpha := clampUnit (opacity + c.alpha)
  if i ≤ 0.001 then ⟨packAlpha alpha ||| 0x00808000⟩
  else
    let hsl := Model.Hsl.ofSrgb (Model.Ipt.toSrgb ⟨i, v.second, v.third⟩)
    ofSrgb (Model.Hsl.toSrgb ⟨hsl.hue + hue, clampUnit (hsl.saturation + saturation), i⟩) alpha

end Ipt
end ColorWords
