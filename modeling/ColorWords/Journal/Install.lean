import ColorWords.File

/-!
# Installing a journal

A journal is written to one file, which is installed once and for all.
-/
namespace ColorWords

inductive JournalError where
  | alreadyInstalled
  | unopenable (error : FileError)
deriving DecidableEq

def JournalError.message : JournalError → String
  | .alreadyInstalled => "logger already initialized"
  | .unopenable error => "cannot open log file: " ++ error.message

/-- Installs a journal file unless there is one. The file is opened first, so that one that cannot
be opened is always reported. -/
def installJournal {α : Type} (installed : Option α) (opened : Except FileError α) :
    Except JournalError α :=
  match opened, installed with
  | .error e, _ => .error (.unopenable e)
  | .ok _, some _ => .error .alreadyInstalled
  | .ok file, none => .ok file

end ColorWords
