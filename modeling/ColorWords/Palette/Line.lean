/-!
# Lines of a palette

A line declares a color, as in `red #ff0000`, or an alias, as in `scarlet = red`. A name is a letter
followed by letters, digits and underscores. Spaces and tabs may stand at both ends and around the
equals sign, and must stand between a name and its color.
-/
namespace ColorWords

inductive Line where
  | entry (name literal : String)
  | aliasOf (name target : String)
deriving DecidableEq

namespace Line

def isSpace (c : Char) : Bool := c == ' ' || c == '\t'

def isNamePart (c : Char) : Bool := c.isAlphanum || c == '_'

def isHexDigit (c : Char) : Bool := c.isDigit || 'a' ≤ c && c ≤ 'f' || 'A' ≤ c && c ≤ 'F'

/-- Splits a text after the longest name at its start. -/
def spanName? : List Char → Option (List Char × List Char)
  | [] => none
  | c :: rest =>
    if c.isAlpha then some (c :: rest.takeWhile isNamePart, rest.dropWhile isNamePart) else none

def dropSpaces (text : List Char) : List Char := text.dropWhile isSpace

def readAlias? (name text : List Char) : Option Line := do
  let (target, rest) ← spanName? (dropSpaces text)
  if rest.all isSpace then some (.aliasOf (.ofList name) (.ofList target)) else none

def readEntry? (name text : List Char) : Option Line :=
  let digits := text.takeWhile isHexDigit
  if !digits.isEmpty && (text.dropWhile isHexDigit).all isSpace then
    some (.entry (.ofList name) (.ofList ('#' :: digits)))
  else none

def read? (text : List Char) : Option Line := do
  let (name, rest) ← spanName? (dropSpaces text)
  match dropSpaces rest with
  | '=' :: tail => readAlias? name tail
  | '#' :: tail => if rest.head?.any isSpace then readEntry? name tail else none
  | _ => none

end Line
end ColorWords
