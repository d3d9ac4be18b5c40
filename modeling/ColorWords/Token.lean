import ColorWords.Grammar

/-!
# Tokens

A text splits into the longest runs of token characters; every other character only separates. A
token keeps the byte at which it starts.
-/
namespace ColorWords

/-- A run of token characters and the byte at which it starts. -/
structure Token where
  chars : List Char
  offset : Nat
deriving DecidableEq

namespace Token

def text (t : Token) : String := .ofList t.chars

def extendFirst (c : Char) (offset : Nat) : List Token → List Token
  | [] => [⟨[c], offset⟩]
  | t :: rest => ⟨c :: t.chars, offset⟩ :: rest

/-- The runs of characters with `isPart` in a text that starts at byte `offset`. -/
def scan (isPart : Char → Bool) : (offset : Nat) → List Char → List Token
  | _, [] => []
  | offset, c :: rest =>
    let later := scan isPart (offset + c.utf8Size) rest
    if !isPart c then later
    else if rest.head?.any isPart then extendFirst c offset later
    else ⟨[c], offset⟩ :: later

end Token

def Grammar.tokens (g : Grammar) (text : List Char) : List Token := Token.scan g.isTokenChar 0 text

def Grammar.meanings (g : Grammar) (text : List Char) : List Meaning :=
  (g.tokens text).map fun t => g.classify t.chars

end ColorWords
