import ColorWords.Text.Extending
import ColorWords.Text.Ignorable
import ColorWords.Text.Unprintable

/-!
# Quoted text

Text between double quotes as messages show it. A quote, a backslash and the common control
characters have short escapes; a character that would not show, or would join the one before it,
is written by its code point.
-/
namespace ColorWords.Text

def hexNumber (n : Nat) : List Char := Nat.toDigits 16 n

def isHidden (c : Char) : Bool := isExtending c || isIgnorable c || isUnprintable c

def escape (c : Char) : List Char :=
  match c with
  | '\x00' => ['\\', '0']
  | '\t' => ['\\', 't']
  | '\n' => ['\\', 'n']
  | '\r' => ['\\', 'r']
  | '\\' => ['\\', '\\']
  | '"' => ['\\', '"']
  | c => if isHidden c then '\\' :: 'u' :: '\x7b' :: hexNumber c.toNat ++ ['\x7d'] else [c]

def quoted (text : String) : String :=
  .ofList ('"' :: text.toList.flatMap escape ++ ['"'])

end ColorWords.Text
