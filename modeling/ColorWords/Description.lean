import ColorWords.Color.Mix
import ColorWords.Palette.Table
import ColorWords.Token

/-!
# Descriptions of colors

A description such as "darker rich mint sage" is read in one pass over its tokens: an adjective adds
to the adjustment, a name adds a color of weight one, and a weight becomes that of the latest color.
The colors are mixed, the mixture is adjusted and brought into the gamut. A name the table does not
have is transparent, and so is a description without any name.
-/
namespace ColorWords

/-- What has been read of a description: the colors with their weights, the latest first, and the
adjustment. -/
structure Draft (s : Space) where
  entries : List (Color s × Float32)
  adjustment : Adjustment

namespace Draft
variable {s : Space}

def empty : Draft s := ⟨[], .zero⟩

def setWeight (value : Float32) : List (Color s × Float32) → List (Color s × Float32)
  | [] => []
  | (color, _) :: older => (color, value) :: older

def read (table : Table s) (draft : Draft s) : Meaning → Draft s
  | .adjective change => { draft with adjustment := draft.adjustment + change }
  | .weight value => { draft with entries := setWeight value draft.entries }
  | .name text => { draft with entries := (table.lookup text, 1) :: draft.entries }

def color (draft : Draft s) : Color s :=
  let mixture := Color.weightedMix draft.entries.reverse
  if draft.entries.isEmpty || mixture == .transparent then .transparent
  else (draft.adjustment.apply mixture).intoGamut

end Draft

namespace Description
variable {s : Space}

def parseChars (table : Table s) (g : Grammar) (text : List Char) : Color s :=
  ((g.meanings text).foldl (Draft.read table) .empty).color

def parse (table : Table s) (g : Grammar) (text : String) : Color s := parseChars table g text.toList

/-- The color of the description in a range of bytes; a character that straddles an end of the range
is left out. -/
def parseRange (table : Table s) (g : Grammar) (text : String) (start : Nat) (length : Option Nat) :
    Color s :=
  parseChars table g (Text.slice text.toList start length)

def charsJournal (g : Grammar) (text : List Char) : List Event :=
  (g.tokens text).map fun t => .token t.text t.offset (g.classify t.chars)

def journal (g : Grammar) (text : String) : List Event := charsJournal g text.toList

def rangeJournal (g : Grammar) (text : String) (start : Nat) (length : Option Nat) : List Event :=
  charsJournal g (Text.slice text.toList start length)

end Description
end ColorWords
