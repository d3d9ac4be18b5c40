import ColorWords.Palette.Builtin
import ColorWords.Search

/-!
# Standard descriptions

Reading and finding descriptions with the standard names of a space, in the grammar of the space.
-/
namespace ColorWords
variable {s : Space}

def Color.ofDescription (text : String) : Color s :=
  Description.parse (.builtin s) (.ofSpace s) text

def Space.journal (s : Space) (text : String) : List Event := Description.journal (.ofSpace s) text

def Search.standard (mixCount : Nat) : Search s := ⟨.builtin s, .ofSpace s, mixCount, none⟩

def Color.describe (c : Color s) (mixCount : Nat) : Match s := (Search.standard mixCount).run c

end ColorWords
