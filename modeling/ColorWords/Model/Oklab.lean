import ColorWords.Gamut
import ColorWords.Single.CubeRoot

/-!
# Oklab

Lightness and two opponent channels of equal perceptual steps. Gamma is a square, so colors go to
Oklab through squares, a cone response and cube roots, and come back by cubes, the inverse response
and square roots.
-/
namespace ColorWords.Model.Oklab
open Single

def grayLightness : Float32 := 0.63

def ofSrgb (c : Channels) : Channels :=
  let r := c.first * c.first
  let g := c.second * c.second
  let b := c.third * c.third
  let l := cubeRoot (0.4122214708 * r + 0.5363325363 * g + 0.0514459929 * b)
  let m := cubeRoot (0.2119034982 * r + 0.6806995451 * g + 0.1073969566 * b)
  let s := cubeRoot (0.0883024619 * r + 0.2817188376 * g + 0.6299787005 * b)
  ⟨0.2104542553 * l + 0.7936177850 * m - 0.0040720468 * s,
    1.9779984951 * l - 2.4285922050 * m + 0.4505937099 * s,
    0.0259040371 * l + 0.7827717662 * m - 0.8086757660 * s⟩

def cube (x : Float32) : Float32 := x * x * x

def toLinear (c : Channels) : Channels :=
  let l := cube (c.first + 0.3963377774 * c.second + 0.2158037573 * c.third)
  let m := cube (c.first - 0.1055613458 * c.second - 0.0638541728 * c.third)
  let s := cube (c.first - 0.0894841775 * c.second - 1.2914855480 * c.third)
  ⟨4.0767245293 * l - 3.3072168827 * m + 0.2307590544 * s,
    -1.2681437731 * l + 2.6093323231 * m - 0.3411344290 * s,
    -0.0041119885 * l - 0.7034763098 * m + 1.7068625689 * s⟩

def toSrgb (c : Channels) : Channels := (toLinear c).map fun x => (clampUnit x).sqrt

def inGamut (c : Channels) : Bool := Gamut.displayable (toLinear c)

def limit (c : Channels) : Channels :=
  if inGamut c then c else Gamut.contract c grayLightness id inGamut

end ColorWords.Model.Oklab
