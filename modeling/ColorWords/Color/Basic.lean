import ColorWords.Layout

/-!
# Colors

A color of a space is its packed word. The channels are red, green and blue in `rgb`; intensity,
protan and tritan in `ipt`; lightness, green-red and blue-yellow in `oklab`. Operations keep a word
`Stored`, that is, without the lowest alpha bit.
-/
namespace ColorWords

inductive Space where
  | rgb
  | ipt
  | oklab
deriving DecidableEq

structure Color (s : Space) where
  bits : UInt32
deriving DecidableEq

abbrev Rgb := Color .rgb
abbrev Ipt := Color .ipt
abbrev Oklab := Color .oklab

inductive Channel where
  | first
  | second
  | third
deriving DecidableEq

def Channel.shift : Channel → UInt32
  | .first => Layout.firstShift
  | .second => Layout.secondShift
  | .third => Layout.thirdShift

namespace Color
variable {s : Space}

def Stored (c : Color s) : Prop := c.bits &&& Layout.storedMask = c.bits

instance (c : Color s) : Decidable c.Stored := inferInstanceAs (Decidable (_ = _))

/-- The color of a word, without the lowest alpha bit. -/
def ofBits (bits : UInt32) : Color s := ⟨bits &&& Layout.storedMask⟩

def ofChannels (c : Channels) (alpha : Float32) : Color s := ⟨Layout.pack c alpha⟩

/-- The color that stands for "no color": its alpha is zero, its lightness zero and its chroma
neutral. -/
def transparent : Color s :=
  match s with
  | .rgb => ⟨0⟩
  | .ipt | .oklab => ⟨0x007F7F00⟩

def black : Rgb := ⟨0xFE000000⟩
def white : Rgb := ⟨0xFEFFFFFF⟩

def byte (c : Color s) (channel : Channel) : UInt32 := Layout.byteAt c.bits channel.shift

def alphaByte (c : Color s) : UInt32 := Layout.alphaByte c.bits

def alpha (c : Color s) : Float32 := Layout.alpha c.bits

def isTransparent (c : Color s) : Bool := c.alphaByte == 0

def lerp (c stop : Color s) (change : Float32) : Color s :=
  ofBits (Layout.lerp c.bits stop.bits change)

def opacify (c : Color s) (change : Float32) : Color s := ofBits (Layout.opacify c.bits change)

def fade (c : Color s) (change : Float32) : Color s := ofBits (Layout.fade c.bits change)

def raise (c : Color s) (channel : Channel) (change : Float32) : Color s :=
  ⟨Layout.raise c.bits channel.shift change⟩

def lower (c : Color s) (channel : Channel) (change : Float32) : Color s :=
  ⟨Layout.lower c.bits channel.shift change⟩

def alphaBits (c : Color s) : UInt32 := c.bits &&& Layout.alphaMask

end Color
end ColorWords
