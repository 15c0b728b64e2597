import Ilang.Text.Plain
/-!
# Log messages

What the compiler tells about its work. A message has a level and a source; a reader chooses the
least level to see.
-/
namespace Ilang

/-- How important a message is, from the least to the most. -/
inductive LogLevel where
  | trace
  | debug
  | info
deriving DecidableEq, Repr

namespace LogLevel

/-- The rank of a level. -/
def rank : LogLevel → Nat
  | trace => 0
  | debug => 1
  | info => 2

/-- A level as messages show it. -/
def text : LogLevel → String
  | trace => "TRACE"
  | debug => "DEBUG"
  | info => "INFO"

/-- The level that a setting names. -/
def ofName? (s : String) : Option LogLevel :=
  match s with
  | "trace" => some trace
  | "debug" => some debug
  | "info" => some info
  | _ => none

/-- Whether a reader who chose this level sees messages of another one. -/
def shows (chosen level : LogLevel) : Bool := chosen.rank ≤ level.rank

end LogLevel

/-- The part of the compiler that a message comes from. -/
inductive LogSource where
  | command
  | lexer
  | parser
  | names
  | types
  | checks
  | frame
  | placement
  | assembly
deriving DecidableEq, Repr

/-- The name of a source in messages. -/
def LogSource.text : LogSource → String
  | command => "ilc"
  | lexer => "ilc_frontend::lexer"
  | parser => "ilc_frontend::parser"
  | names => "ilc_frontend::semantic::name_resolver"
  | types => "ilc_frontend::semantic::type_resolver"
  | checks => "ilc_frontend::semantic::type_checker"
  | frame => "ilc_codegen::context"
  | placement => "ilc_codegen::generator::layout"
  | assembly => "ilc_codegen::generator"

/-- A log message. -/
structure LogEntry where
  level : LogLevel
  source : LogSource
  message : String
deriving DecidableEq, Repr

/-- A text with the lines behind the first one indented. -/
def indented (s : String) : String :=
  String.ofList (s.toList.flatMap fun c => if c = '\n' then "\n    ".toList else [c])

/-- A message as it is shown, on a line of its own and with the level in five columns. Nothing in it
reaches the terminal as a control. -/
def LogEntry.text (e : LogEntry) : String :=
  let level := e.level.text
  let blanks := String.ofList (List.replicate (5 - level.length) ' ')
  Text.plain ("[" ++ level ++ blanks ++ " " ++ e.source.text ++ "] " ++ indented e.message ++ "\n")

/-- Messages in the order in which they were written. -/
abbrev Log := List LogEntry

end Ilang
