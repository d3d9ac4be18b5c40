import ColorWords.Text.Switches

/-!
# Characters that may show nothing

Characters that a display leaves out unless it knows them, such as the variation selectors and the
fillers of Hangul syllables (property Default_Ignorable_Code_Point).
-/
namespace ColorWords.Text

def ignorableSwitches : List Nat := [
  173, 174, 847, 848, 1564, 1565, 4447, 4449, 6068, 6070, 6155, 6160, 8203, 8208, 8234, 8239,
  8288, 8304, 12644, 12645, 65024, 65040, 65279, 65280, 65440, 65441, 65520, 65529, 113824,
  113828, 119155, 119163, 917504, 921600]

def isIgnorable (c : Char) : Bool := switchedOn ignorableSwitches c

end ColorWords.Text
