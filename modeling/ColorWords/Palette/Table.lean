import ColorWords.Color.Descriptor
import ColorWords.Journal
import ColorWords.Palette.Entries

/-!
# Color tables

A table maps names, and aliases of names, to the colors of a space. Its names are also listed by
hue, the grays first, and by lightness.
-/
namespace ColorWords

namespace Color
variable {s : Space}
open Single

/-- Position in the order by hue: grays by lightness, then the others by hue and lightness. -/
def hueRank (c : Color s) : List Nat :=
  if c.isGray then [0, orderKey c.lightness] else [1, orderKey c.hue, orderKey c.lightness]

def lightnessRank (c : Color s) : List Nat := [orderKey c.lightness]

end Color

/-- Names with their colors, sorted by name, and aliases with the colors of their targets. -/
structure Table (s : Space) where
  entries : Entries (Color s)
  aliases : Entries (Color s)

namespace Table
variable {s : Space}

def get? (t : Table s) (name : String) : Option (Color s) :=
  (t.entries.lookup name).or (t.aliases.lookup name)

def lookup (t : Table s) (name : String) : Color s := (t.get? name).getD .transparent

def contains (t : Table s) (name : String) : Bool := (t.get? name).isSome

def size (t : Table s) : Nat := t.entries.length

def names (t : Table s) : List String := t.entries.map (·.1)

def colorsByHue (t : Table s) : Entries (Color s) :=
  Entries.sortBy Color.hueRank (t.entries.filter (!·.2.isTransparent))

def namesByHue (t : Table s) : List String := t.colorsByHue.map (·.1)

def namesByLightness (t : Table s) : List String :=
  (Entries.sortBy Color.lightnessRank t.entries).map (·.1)

def ofEntries (entries aliases : Entries (Color s)) : Table s :=
  ⟨Entries.sortBy (fun _ => []) entries, aliases⟩

def built (t : Table s) : Event := .tableBuilt t.size t.aliases.length t.colorsByHue.length

end Table

end ColorWords
