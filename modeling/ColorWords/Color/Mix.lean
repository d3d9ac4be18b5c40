import ColorWords.Color.Basic

/-!
# Mixes of colors

Colors are mixed one after the other, each moving the mixture so far toward itself as its share
demands. An even mixture gives every color the same share; in a weighted one the shares are the
weights, and a color that would leave no positive total is passed over.
-/
namespace ColorWords.Color
variable {s : Space}

/-- Mixes further colors into `mixture`, the next of which is number `count`. -/
def mixFrom (mixture : Color s) : (count : Nat) → List (Color s) → Color s
  | _, [] => mixture
  | count, c :: rest => mixFrom (mixture.lerp c (1 / Single.ofInt count)) (count + 1) rest

def mix : List (Color s) → Color s
  | [] => transparent
  | c :: rest => mixFrom c 2 rest

def addWeighted (mixture : Color s × Float32) (entry : Color s × Float32) : Color s × Float32 :=
  let total := mixture.2 + entry.2
  if total ≤ 0 then mixture else (mixture.1.lerp entry.1 (entry.2 / total), total)

def weightedMix : List (Color s × Float32) → Color s
  | [] => transparent
  | entry :: rest => (rest.foldl addWeighted entry).1

end ColorWords.Color
