import ColorWords.Description
import ColorWords.Wording

/-!
# Searching for a description

Which description comes closest to a color? Candidates are all mixtures of a number of visible names
of a table, each at nine levels of lightness and nine of saturation. They are numbered: the digits
of a number, the lowest first, pick the names and then the two levels. The first candidate at the
least distance wins, and a cap may end the search early.
-/
namespace ColorWords

def levelCount : Nat := 9

def countLimit : Nat := 0xFFFFFFFFFFFFFFFF

structure Candidate where
  picks : List Nat
  lightness : Int
  saturation : Int
deriving DecidableEq

namespace Candidate

/-- The `count` lowest digits of `n` in base `size` and what is left of `n`. -/
def digits (size : Nat) : (count n : Nat) → List Nat × Nat
  | 0, n => ([], n)
  | count + 1, n =>
    let (higher, rest) := digits size count (n / size)
    (n % size :: higher, rest)

def ofNumber (size count n : Nat) : Candidate :=
  let (picks, rest) := digits size count n
  ⟨picks, (rest % levelCount : Nat) - 4, (rest / levelCount % levelCount : Nat) - 4⟩

/-- How many candidates there are, as far as they are counted. -/
def total (size count : Nat) : Nat :=
  if size ≤ 1 then min (size * levelCount * levelCount) countLimit
  else if 64 ≤ count then countLimit
  else min (size.pow count * levelCount * levelCount) countLimit

end Candidate

structure Search (s : Space) where
  table : Table s
  grammar : Grammar
  mixCount : Nat := 1
  cap : Option Nat := none

structure Match (s : Space) where
  description : String
  color : Color s
  distance : Float32

structure Best (s : Space) where
  candidate : Option Candidate
  color : Color s
  distance : Float32

namespace Search
variable {s : Space}

def nameCount (q : Search s) : Nat := max 1 q.mixCount

def candidateColor (q : Search s) (palette : List (Color s)) (c : Candidate) : Color s :=
  let mixture := Color.mix (c.picks.filterMap (palette[·]?))
  ((q.grammar.steps c.lightness c.saturation).apply mixture).intoGamut

/-- Keeps the best candidate unless the next one is strictly closer. -/
def improve (q : Search s) (palette : List (Color s)) (target : Oklab) (best : Best s) (n : Nat) :
    Best s :=
  let candidate := Candidate.ofNumber palette.length q.nameCount n
  let color := q.candidateColor palette candidate
  let distance := color.toOklab.squaredDistance target
  if distance < best.distance then ⟨some candidate, color, distance⟩ else best

def best (q : Search s) (palette : List (Color s)) (target : Oklab) (limit : Nat) : Best s :=
  (List.range limit).foldl (q.improve palette target) ⟨none, .transparent, Single.infinity⟩

def describe (q : Search s) (names : List String) (c : Option Candidate) : String :=
  match c with
  | none => ""
  | some c =>
    let (lightness, saturation) := q.grammar.levelWords c.lightness c.saturation
    let words := lightness :: saturation :: c.picks.filterMap (names[·]?)
    " ".intercalate (words.filter (· ≠ ""))

/-- How many candidates are tried out of how many. -/
def limits (q : Search s) (size : Nat) : Nat × Nat :=
  let total := Candidate.total size q.nameCount
  (q.cap.elim total (min · total), total)

def run (q : Search s) (target : Color s) : Match s :=
  let palette := q.table.colorsByHue
  let best := q.best (palette.map (·.2)) target.toOklab (q.limits palette.length).1
  ⟨q.describe (palette.map (·.1)) best.candidate, best.color, best.distance⟩

def journal (q : Search s) (target : Color s) (found : Match s) : List Event :=
  let size := q.table.colorsByHue.length
  let (tried, total) := q.limits size
  if size = 0 then [] else [.searched s target found.description found.distance tried total]

end Search

end ColorWords
