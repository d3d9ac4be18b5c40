import ColorWords.Color.Hex
import ColorWords.File
import ColorWords.Text.Quoted

/-!
# Errors of palettes

Why a palette cannot be read or its table cannot be built.
-/
namespace ColorWords
open Text

inductive PaletteError where
  /-- A line that is no declaration. -/
  | badLine (line : Nat) (content : String)
  | unknownTarget (name target : String)
  | duplicateName (name : String)
  | badColor (error : HexError)
  | unreadable (error : FileError)
deriving DecidableEq

def PaletteError.message : PaletteError → String
  | .badLine line content => "line " ++ toString line ++ ": cannot parse " ++ quoted content
  | .unknownTarget name target =>
    "alias " ++ quoted name ++ " refers to unknown color " ++ quoted target
  | .duplicateName name => "duplicate color name: " ++ name
  | .badColor error => "invalid color: " ++ error.message
  | .unreadable error => "IO error: " ++ error.message

end ColorWords
