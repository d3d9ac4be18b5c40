import ColorWords.Color.Hex
import ColorWords.Grammar
import ColorWords.Single.Decimal
import ColorWords.Text.Quoted

/-!
# Journal

What reading, building and searching report besides their results. Such functions have a partner
that lists their events in order; a journal shows the events of at least a given severity, one line
each.
-/
namespace ColorWords
open Single Text

inductive Severity where
  | error
  | warn
  | info
  | debug
  | trace
deriving DecidableEq

namespace Severity

def rank : Severity → Nat
  | .error => 1
  | .warn => 2
  | .info => 3
  | .debug => 4
  | .trace => 5

def label : Severity → String
  | .error => "ERROR"
  | .warn => "WARN"
  | .info => "INFO"
  | .debug => "DEBUG"
  | .trace => "TRACE"

end Severity

inductive Event where
  /-- A token of a description and its meaning. -/
  | token (text : String) (offset : Nat) (meaning : Meaning)
  /-- An alias that has the name of a color, so that it is dropped. -/
  | aliasShadows (name : String)
  /-- An alias whose target is unknown, so that it is dropped. -/
  | aliasDangles (name target : String)
  /-- A table with its numbers of names, of aliases and of visible colors. -/
  | tableBuilt (names aliases visible : Nat)
  /-- A palette line that is no declaration. -/
  | lineSkipped (line : Nat) (content : String)
  /-- A palette line whose color cannot be read. -/
  | colorSkipped (line : Nat) (error : HexError)
  | searched (space : Space) (target : Color space) (description : String) (distance : Float32)
      (tried total : Nat)

def Adjustment.debugText (a : Adjustment) : String :=
  "Adjustment \x7b lightness: " ++ render .marked a.lightness ++
    ", saturation: " ++ render .marked a.saturation ++ " \x7d"

def Meaning.debugText : Meaning → String
  | .adjective change => "Adjective(" ++ change.debugText ++ ")"
  | .weight value => "Weight(" ++ render .marked value ++ ")"
  | .name text => "Name(" ++ quoted text ++ ")"

namespace Event

def severity : Event → Severity
  | .token .. => .trace
  | .aliasShadows .. | .aliasDangles .. | .tableBuilt .. | .searched .. => .debug
  | .lineSkipped .. | .colorSkipped .. => .warn

def source : Event → String
  | .token .. => "describe::parser::description"
  | .aliasShadows .. | .aliasDangles .. | .tableBuilt .. => "describe::table"
  | .searched .. => "describe::best_match"
  | .lineSkipped .. | .colorSkipped .. => "describe::palette_file"

def message : Event → String
  | .token text offset meaning =>
    "token " ++ quoted text ++ " at " ++ toString offset ++ ": " ++ meaning.debugText
  | .aliasShadows name => "alias " ++ quoted name ++ " shadows a color name, skipped"
  | .aliasDangles name target =>
    "alias " ++ quoted name ++ " refers to unknown color " ++ quoted target ++ ", skipped"
  | .tableBuilt names aliases visible =>
    "built color table: " ++ toString names ++ " names, " ++ toString aliases ++ " aliases, " ++
      toString visible ++ " by hue"
  | .lineSkipped line content =>
    "palette line " ++ toString line ++ ": cannot parse " ++ quoted content ++ ", skipped"
  | .colorSkipped line error =>
    "palette line " ++ toString line ++ ": " ++ error.message ++ ", skipped"
  | .searched _ target description distance tried total =>
    "best match for " ++ target.debugText ++ ": " ++ quoted description ++ " at distance " ++
      render .plain distance ++ " after " ++ toString tried ++ " of " ++ toString total ++
      " candidates"

def line (e : Event) : String := "[" ++ e.severity.label ++ "] " ++ e.source ++ ": " ++ e.message

end Event

/-- The lines of the events that are at least as grave as `limit`; without a limit there are none. -/
def journalLines (limit : Option Severity) (events : List Event) : List String :=
  (events.filter fun e => limit.any fun l => e.severity.rank ≤ l.rank).map Event.line

end ColorWords
