import ColorWords.Layout

/-!
# Hue, saturation and lightness

The cylinder over red, green and blue. Hue is counted in turns, so that a third of a turn leads from
red to green.
-/
namespace ColorWords.Model
open Single

structure Hsl where
  hue : Float32
  saturation : Float32
  lightness : Float32

namespace Hsl

def brightest (c : Channels) : Float32 := larger (larger c.first c.second) c.third

def darkest (c : Channels) : Float32 := smaller (smaller c.first c.second) c.third

/-- Hue of a color whose brightest channel is `top` and whose channels spread over `spread`, in
sixths of a turn. -/
def sextant (c : Channels) (top spread : Float32) : Float32 :=
  if top == c.first then
    (c.second - c.third) / spread + (if c.second < c.third then 6 else 0)
  else if top == c.second then (c.third - c.first) / spread + 2
  else (c.first - c.second) / spread + 4

def ofSrgb (c : Channels) : Hsl :=
  let top := brightest c
  let bottom := darkest c
  let lightness := (top + bottom) / 2
  if top == bottom then ⟨0, 0, lightness⟩
  else
    let spread := top - bottom
    let saturation := if 0.5 < lightness then spread / (2 - top - bottom) else spread / (top + bottom)
    let hue := sextant c top spread / 6
    ⟨if 1 ≤ hue then hue - 1 else hue, saturation, lightness⟩

/-- The channel whose color stands at the turn `t` from the hue, between `low` and `high`. -/
def channelAt (low high t : Float32) : Float32 :=
  let t := if t < 0 then t + 1 else t
  let t := if 1 < t then t - 1 else t
  if t < 1 / 6 then low + (high - low) * 6 * t
  else if t < 1 / 2 then high
  else if t < 2 / 3 then low + (high - low) * (2 / 3 - t) * 6
  else low

def toSrgb (c : Hsl) : Channels :=
  if c.saturation == 0 then ⟨c.lightness, c.lightness, c.lightness⟩
  else
    let hue := c.hue - floor c.hue
    let high :=
      if c.lightness < 0.5 then c.lightness * (1 + c.saturation)
      else c.lightness + c.saturation - c.lightness * c.saturation
    let low := 2 * c.lightness - high
    ⟨channelAt low high (hue + 1 / 3), channelAt low high hue, channelAt low high (hue - 1 / 3)⟩

end Hsl
end ColorWords.Model
