import ColorWords.Gamut

/-!
# IPT

Intensity, protan (green to red) and tritan (blue to yellow). Both ways are linear: a cone response
matrix and the matrix from cone responses to IPT.
-/
namespace ColorWords.Model.Ipt
open Single

def grayIntensity : Float32 := 0.5

def ofSrgb (c : Channels) : Channels :=
  let l := 0.313921 * c.first + 0.639468 * c.second + 0.0465970 * c.third
  let m := 0.151693 * c.first + 0.748209 * c.second + 0.1000044 * c.third
  let s := 0.017700 * c.first + 0.109400 * c.second + 0.8729000 * c.third
  ⟨0.4000 * l + 0.4000 * m + 0.2000 * s,
    4.4550 * l - 4.8510 * m + 0.3960 * s,
    0.8056 * l + 0.3572 * m - 1.1628 * s⟩

def toLinear (c : Channels) : Channels :=
  let l := c.first + 0.097569 * c.second + 0.205226 * c.third
  let m := c.first - 0.11388 * c.second + 0.133217 * c.third
  let s := c.first + 0.032615 * c.second - 0.67689 * c.third
  ⟨5.432622 * l - 4.679100 * m + 0.246257 * s,
    -1.10517 * l + 2.311198 * m - 0.205880 * s,
    0.028104 * l - 0.194660 * m + 1.166325 * s⟩

def toSrgb (c : Channels) : Channels := (toLinear c).map clampUnit

def inGamut (c : Channels) : Bool := Gamut.displayable (toLinear c)

end ColorWords.Model.Ipt
