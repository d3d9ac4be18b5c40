import ColorWords.Grammar

/-!
# Words for levels

The adjectives that say a level of lightness and one of saturation, each from four down to four up.
Levels of equal size collapse to one compound adjective where the grammar has those.
-/
namespace ColorWords

def lightnessWords : List String :=
  ["darkmost", "darkest", "darker", "dark", "", "light", "lighter", "lightest", "lightmost"]

def saturationWords : List String :=
  ["dullmost", "dullest", "duller", "dull", "", "rich", "richer", "richest", "richmost"]

def compoundWords (lighter richer : Bool) : List String :=
  match lighter, richer with
  | false, false => ["weak", "weaker", "weakest", "weakmost"]
  | true, false => ["pale", "paler", "palest", "palemost"]
  | false, true => ["deep", "deeper", "deepest", "deepmost"]
  | true, true => ["bright", "brighter", "brightest", "brightmost"]

/-- The words for two levels, which are brought into the range from -4 to 4. A word may be empty. -/
def Grammar.levelWords (g : Grammar) (lightness saturation : Int) : String × String :=
  let l := Single.bounded (-4) 4 lightness
  let r := Single.bounded (-4) 4 saturation
  if g.features.compounds && l != 0 && l.natAbs == r.natAbs then
    ((compoundWords (0 < l) (0 < r)).getD (l.natAbs - 1) "", "")
  else (lightnessWords.getD (l + 4).toNat "", saturationWords.getD (r + 4).toNat "")

end ColorWords
