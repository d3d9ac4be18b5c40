import ColorWords.Color.Convert
import ColorWords.Single.Angle

/-!
# Descriptors of colors

How a color looks: whether it can be displayed, its hue in turns, and the saturation and lightness
in which its own space measures. `intoGamut` keeps a color that can be displayed and pulls another
one to gray.
-/
namespace ColorWords
open Single

def Space.grayThreshold : Space → Float32
  | .rgb | .ipt => 0.05
  | .oklab => 1 / 64

def fullTurn : Float32 := .ofBits 0x40C90FDB

namespace Oklab

def chroma (c : Oklab) : Float32 :=
  let v := c.channels
  (v.second * v.second + v.third * v.third).sqrt

def isNeutral (c : Oklab) : Bool :=
  let neutral (b : UInt32) : Bool := b == 0x7F || b == 0x80
  neutral (c.byte .second) && neutral (c.byte .third)

/-- Angle of the opponent channels in turns; zero for a neutral color. -/
def hue (c : Oklab) : Float32 :=
  if c.isNeutral then 0
  else
    let turns := angle c.channels.third c.channels.second / fullTurn
    let turns := if turns < 0 then turns + 1 else turns
    if 1 ≤ turns then 0 else turns

def squaredDifference (a b : Oklab) (channel : Channel) : Float32 :=
  let d := (a.byte channel).toFloat32 - (b.byte channel).toFloat32
  d * d

def squaredDistance (a b : Oklab) : Float32 :=
  let d := squaredDifference a b
  (d .first + d .second + d .third) / (255 * 255)

end Oklab

namespace Ipt

def extremes (c : Ipt) : Float32 × Float32 := (Model.Hsl.brightest c.srgb, Model.Hsl.darkest c.srgb)

/-- Spread of the reconstructed channels; zero next to black and white. -/
def saturation (c : Ipt) : Float32 :=
  if 0.495 < (c.channels.first - 0.5).abs then 0 else c.extremes.1 - c.extremes.2

/-- The brightest reconstructed channel, lowered by half of the relative spread. -/
def lightness (c : Ipt) : Float32 :=
  let top := c.extremes.1
  top * (1 - 0.5 * (top - c.extremes.2) / (top + 1e-10))

end Ipt

namespace Color
variable {s : Space}

def hue (c : Color s) : Float32 :=
  match s with
  | .rgb => (Rgb.hsl c).hue
  | .ipt => (Model.Hsl.ofSrgb (Ipt.srgb c)).hue
  | .oklab => Oklab.hue c

def saturation (c : Color s) : Float32 :=
  match s with
  | .rgb => (Rgb.hsl c).saturation
  | .ipt => Ipt.saturation c
  | .oklab => Oklab.chroma c

def lightness (c : Color s) : Float32 :=
  match s with
  | .rgb => (Rgb.hsl c).lightness
  | .ipt => Ipt.lightness c
  | .oklab => (Oklab.channels c).first

def isGray (c : Color s) : Bool := c.saturation ≤ s.grayThreshold

def inGamut (c : Color s) : Bool :=
  match s with
  | .rgb => true
  | .ipt => Model.Ipt.inGamut (Ipt.channels c)
  | .oklab => Model.Oklab.inGamut (Oklab.channels c)

def withOpponents (c : Color s) (v : Channels) : Color s := ⟨opponentWord v ||| c.alphaBits⟩

def contractTo (gray : Float32) (c : Color s) : Color s :=
  Gamut.contract (opponentChannels c.bits) gray c.withOpponents inGamut

/-- A color that can be displayed as it is, another one at its least contraction that can be. -/
def intoGamut (c : Color s) : Color s :=
  if c.inGamut then c
  else match s with
  | .rgb => c
  | .ipt => c.contractTo Model.Ipt.grayIntensity
  | .oklab => c.contractTo Model.Oklab.grayLightness

end Color
end ColorWords
