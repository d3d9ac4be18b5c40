import ColorWords.Palette.Builder
import ColorWords.Palette.Line

/-!
# Palettes as text

A palette is a text of declarations, one a line. Two slashes start a comment, and a line with
nothing else is passed over. Aliases may refer to names of later lines. Strict loading stops at the
first fault; lenient loading skips lines with a fault and reports them.
-/
namespace ColorWords.Palette
open Text
variable {s : Space}

def splitLines : List Char → List (List Char)
  | [] => [[]]
  | c :: rest =>
    if c = '\n' then [] :: splitLines rest
    else match splitLines rest with
      | [] => [[c]]
      | line :: more => (c :: line) :: more

def dropComment : List Char → List Char
  | [] => []
  | c :: rest => if c = '/' ∧ rest.head? = some '/' then [] else c :: dropComment rest

def content (line : List Char) : List Char := trim (dropComment line)

/-- The contents of the lines that have any, with line numbers from one. -/
def contents (text : List Char) : List (Nat × List Char) :=
  ((splitLines text).zipIdx 1).filterMap fun (line, number) =>
    if (content line).isEmpty then none else some (number, content line)

inductive Declaration (s : Space) where
  | entry (name : String) (color : Color s)
  | aliasOf (name target : String)

inductive Fault where
  | notDeclaration
  | badColor (error : HexError)

def declaration (content : List Char) : Except Fault (Declaration s) :=
  match Line.read? content with
  | none => .error .notDeclaration
  | some (.aliasOf name target) => .ok (.aliasOf name target)
  | some (.entry name literal) =>
    match Rgb.ofHex literal with
    | .error e => .error (.badColor e)
    | .ok c => .ok (.entry name (.ofRgba c.toRgba))

def Fault.error (line : Nat) (content : List Char) : Fault → PaletteError
  | .notDeclaration => .badLine line (.ofList content)
  | .badColor e => .badColor e

def Fault.report (line : Nat) (content : List Char) : Fault → Event
  | .notDeclaration => .lineSkipped line (.ofList content)
  | .badColor e => .colorSkipped line e

def declare (b : Builder s) : Declaration s → Builder s
  | .entry name color => b.insert name color
  | .aliasOf name target => b.addAlias name target

def readAll (b : Builder s) : List (Nat × List Char) → Except PaletteError (Builder s)
  | [] => .ok b
  | (line, content) :: rest =>
    match declaration content with
    | .error fault => .error (fault.error line content)
    | .ok d => readAll (declare b d) rest

def readSound (b : Builder s) : List (Nat × List Char) → Builder s
  | [] => b
  | (_, content) :: rest =>
    match declaration content with
    | .error _ => readSound b rest
    | .ok d => readSound (declare b d) rest

def faultReports (s : Space) (lines : List (Nat × List Char)) : List Event :=
  lines.filterMap fun (line, content) =>
    match (declaration content : Except Fault (Declaration s)) with
    | .error fault => some (fault.report line content)
    | .ok _ => none

def load (text : String) : Except PaletteError (Table s) :=
  match readAll .empty (contents text.toList) with
  | .error e => .error e
  | .ok b => b.tryBuild

def loadJournal (s : Space) (text : String) : List Event :=
  match (readAll .empty (contents text.toList) : Except PaletteError (Builder s)) with
  | .error _ => []
  | .ok b => b.tryBuildJournal

def loadLenient (text : String) : Table s := (readSound .empty (contents text.toList)).build

def loadLenientJournal (s : Space) (text : String) : List Event :=
  faultReports s (contents text.toList) ++
    (readSound .empty (contents text.toList) : Builder s).buildJournal

def loadFile (bytes : Option ByteArray) : Except PaletteError (Table s) :=
  match fileText bytes with
  | .error e => .error (.unreadable e)
  | .ok text => load text

def loadFileJournal (s : Space) (bytes : Option ByteArray) : List Event :=
  match fileText bytes with
  | .error _ => []
  | .ok text => loadJournal s text

end ColorWords.Palette
