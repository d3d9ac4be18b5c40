import ColorWords.Palette.Error
import ColorWords.Palette.Table

/-!
# Building tables

A builder collects names and aliases in order. `tryBuild` refuses what is declared twice or refers
to nothing; `build` lets the last color of a name stand and drops such aliases, each with a report.
-/
namespace ColorWords

structure Builder (s : Space) where
  entries : Entries (Color s)
  aliases : Entries String
deriving DecidableEq

namespace Builder
variable {s : Space}

def empty : Builder s := ⟨[], []⟩

def insert (b : Builder s) (name : String) (color : Color s) : Builder s :=
  { b with entries := b.entries ++ [(name, color)] }

def addAlias (b : Builder s) (name target : String) : Builder s :=
  { b with aliases := b.aliases ++ [(name, target)] }

def resolve (entries aliases : Entries (Color s)) (name target : String) : Except Event (Color s) :=
  match Table.get? ⟨entries, aliases⟩ target with
  | none => .error (.aliasDangles name target)
  | some color => if Entries.has entries name then .error (.aliasShadows name) else .ok color

def keepAliases (entries : Entries (Color s)) : Entries (Color s) → Entries String → Entries (Color s)
  | aliases, [] => aliases
  | aliases, (name, target) :: rest =>
    match resolve entries aliases name target with
    | .ok color => keepAliases entries (aliases.put name color) rest
    | .error _ => keepAliases entries aliases rest

def dropReports (entries : Entries (Color s)) : Entries (Color s) → Entries String → List Event
  | _, [] => []
  | aliases, (name, target) :: rest =>
    match resolve entries aliases name target with
    | .ok color => dropReports entries (aliases.put name color) rest
    | .error report => report :: dropReports entries aliases rest

def lastEntries (b : Builder s) : Entries (Color s) := Entries.putAll [] b.entries

/-- Builds a table: the last color of a name stands, and aliases that do not resolve are dropped. -/
def build (b : Builder s) : Table s :=
  .ofEntries b.lastEntries (keepAliases b.lastEntries [] b.aliases)

def buildJournal (b : Builder s) : List Event :=
  dropReports b.lastEntries [] b.aliases ++ [b.build.built]

def firstDuplicate? : Entries (Color s) → Entries (Color s) → Option String
  | _, [] => none
  | before, (name, color) :: rest =>
    if Entries.has before name then some name else firstDuplicate? ((name, color) :: before) rest

/-- Adds all aliases, each of which must resolve to a target before it and have a new name. -/
def tryAliases (entries : Entries (Color s)) :
    Entries (Color s) → Entries String → Except PaletteError (Entries (Color s))
  | aliases, [] => .ok aliases
  | aliases, (name, target) :: rest =>
    let known : Table s := ⟨entries, aliases⟩
    match known.get? target with
    | none => .error (.unknownTarget name target)
    | some color =>
      if known.contains name then .error (.duplicateName name)
      else tryAliases entries (aliases ++ [(name, color)]) rest

def tryBuild (b : Builder s) : Except PaletteError (Table s) :=
  match firstDuplicate? [] b.entries with
  | some name => .error (.duplicateName name)
  | none =>
    match tryAliases b.entries [] b.aliases with
    | .error e => .error e
    | .ok aliases => .ok (.ofEntries b.entries aliases)

def tryBuildJournal (b : Builder s) : List Event :=
  match b.tryBuild with
  | .error _ => []
  | .ok t => [t.built]

end Builder
end ColorWords
