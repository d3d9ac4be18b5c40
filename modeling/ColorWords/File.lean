/-!
# Text of files

A file has a text when it exists and its bytes are UTF-8.
-/
namespace ColorWords

inductive FileError where
  | missing
  | notUtf8
deriving DecidableEq

def FileError.message : FileError → String
  | .missing => "No such file or directory (os error 2)"
  | .notUtf8 => "stream did not contain valid UTF-8"

def fileText (bytes : Option ByteArray) : Except FileError String :=
  match bytes with
  | none => .error .missing
  | some data =>
    match String.fromUTF8? data with
    | none => .error .notUtf8
    | some text => .ok text

end ColorWords
