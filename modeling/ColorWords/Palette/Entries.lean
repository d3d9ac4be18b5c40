/-!
# Named entries

Pairs of a name and a value, as the declarations of a palette come in. The list serves as a map: a
name is set where it first stood, and entries sort by a rank of their values.
-/
namespace ColorWords

abbrev Entries (α : Type) := List (String × α)

namespace Entries
variable {α : Type}

def has (entries : Entries α) (name : String) : Bool := entries.any (·.1 == name)

/-- Sets the value of a name, in its place if it is a key and at the end otherwise. -/
def put (entries : Entries α) (name : String) (value : α) : Entries α :=
  if has entries name then entries.map fun e => if e.1 == name then (name, value) else e
  else entries ++ [(name, value)]

def putAll (start : Entries α) (entries : Entries α) : Entries α :=
  entries.foldl (fun acc e => put acc e.1 e.2) start

/-- Sorts by a rank and, where ranks agree, by name. -/
def sortBy (rank : α → List Nat) (entries : Entries α) : Entries α :=
  let ranked := entries.map fun e => (rank e.2, e)
  let le (x y : List Nat × (String × α)) : Bool := x.1 < y.1 || x.1 == y.1 && x.2.1 ≤ y.2.1
  (ranked.mergeSort le).map (·.2)

end Entries

end ColorWords
