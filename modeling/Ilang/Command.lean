import Ilang.Command.Arguments
import Ilang.Command.Directory
import Ilang.Command.Path
import Ilang.Compilation
import Ilang.Diagnostic.Json
/-!
# Commands

What the commands do: read files, print lines and write assembly. All that a command prints is kept
in order, so that log messages stand between the other lines; a reader of the log chooses its level.
-/
namespace Ilang

/-- Something that a command shows. -/
inductive Event where
  /-- A line of output. -/
  | out (line : String)
  /-- A line of errors. -/
  | err (line : String)
  /-- A log message, shown among the errors. -/
  | log (entry : LogEntry)
deriving DecidableEq, Repr

/-- What a command showed, and whether it did its work. -/
structure Transcript where
  events : List Event
  exitCode : Nat
deriving DecidableEq, Repr

namespace Transcript

/-- The text on standard output. -/
def stdout (t : Transcript) : String :=
  t.events.foldl (fun s e => match e with
    | .out line => s ++ line ++ "\n"
    | _ => s) ""

/-- The text on standard error, with log messages from a level on. -/
def stderr (t : Transcript) (level : Option LogLevel) : String :=
  t.events.foldl (fun s e => match e with
    | .out _ => s
    | .err line => s ++ line ++ "\n"
    | .log entry =>
      if level.any (·.shows entry.level) then s ++ entry.text else s) ""

end Transcript

/-- Work with files that shows events and can fail with a message. -/
abbrev Action (m : Type → Type) := ExceptT String (StateT (List Event) m)

namespace Action

variable {m : Type → Type} [Monad m]

/-- Shows events. -/
def emit (events : List Event) : Action m Unit := modify (· ++ events)

/-- Shows a log. -/
def log (entries : Log) : Action m Unit := emit (entries.map .log)

/-- Shows a log and goes on with the result. -/
def logged {α : Type} (l : Logged (Except CompileError α)) : Action m α := do
  log l.log
  match l.value with
  | .ok a => return a
  | .error e => throw e.message

/-- Reads a file. -/
def readFile (disk : Disk m) (describe : FileError → String) (path : String) :
    Action m String := do
  match ← (disk.read path : m _) with
  | .ok text => return text
  | .error e => throw (describe e)

/-- Runs an action to its end. A failure is shown behind `failure`. -/
def run (action : Action m Unit) (failure : String) : m Transcript := do
  match ← (ExceptT.run action).run [] with
  | (.ok (), events) => return ⟨events, 0⟩
  | (.error message, events) => return ⟨events ++ [.err (failure ++ ": " ++ message)], 1⟩

end Action

namespace Command

variable {m : Type → Type} [Monad m]

/-- The message for a source or a configuration that could not be read. -/
def readFailure (e : FileError) : String := "IO error: " ++ e.message

/-- Reads the program in a file. -/
def readProgram (disk : Disk m) (input : String) : Action m Program := do
  let source ← Action.readFile disk readFailure input
  Action.log [⟨.info, .command, "compiling " ++ input⟩]
  Action.logged (Ilang.readProgram input source)

/-- Shows diagnostics. -/
def showReport (format : ReportFormat) (report : Report) : Action m Unit :=
  match format with
  | .text => Action.emit (report.map fun d => .err d.text)
  | .json => Action.emit [.out report.toJson.pretty]

/-- Analyses a program. If anything is reported, that is shown, and the summary is the failure. -/
def analyze (format : ReportFormat) (p : Program) : Action m Program := do
  let a := p.analyze
  Action.log a.log
  if a.report.isEmpty then return a.program
  else
    showReport format a.report
    throw a.report.summary

/-- Reads the configuration in a file, if there is one. -/
def readConfig (disk : Disk m) : Option String → Action m Config
  | none => return {}
  | some path => do
    Action.log [⟨.debug, .command, "loading configuration from " ++ path⟩]
    match Config.parse? (← Action.readFile disk readFailure path) with
    | some config => return config
    | none => throw ("Configuration error: " ++ path ++ ": not a valid configuration")

/-- Writes the assembly of a file. -/
def compileFile (disk : Disk m) (input : String) (output : Option String) (config : Config) :
    Action m Unit := do
  let program ← analyze config.format (← readProgram disk input)
  let assembly ← Action.logged (assemble config.generation program)
  let path := output.getD (Path.withExtension input "s")
  match ← (disk.write path assembly.text : m _) with
  | .ok () => Action.log [⟨.info, .command, "assembly written to " ++ path⟩]
  | .error e => throw e.message

/-- Tells whether a file has errors. -/
def checkFile (disk : Disk m) (input : String) (format : ReportFormat) : Action m Unit := do
  let _ ← analyze format (← readProgram disk input)
  Action.emit [.out (input ++ ": " ++ Report.summary [])]

/-- Lists the tokens of a file. -/
def listTokens (disk : Disk m) (input : String) : Action m Unit := do
  let source ← Action.readFile disk FileError.message input
  match tokenize input source with
  | .error e => throw (CompileError.lex e).message
  | .ok ts =>
    Action.log (tokensLog input ts)
    Action.emit (ts.map fun t => .out t.listing)

/-- Shows the program in a file. If it is to be analysed, what is wrong with it is shown too. -/
def showProgram (disk : Disk m) (input : String) (resolved : Bool) : Action m Unit := do
  let program ← readProgram disk input
  if resolved then
    let a := program.analyze
    Action.log a.log
    Action.emit [.out a.program.toJson.pretty]
    unless a.report.isEmpty do
      showReport .text a.report
      throw a.report.summary
  else
    Action.emit [.out program.toJson.pretty]

/-- Runs a command. -/
def run (disk : Disk m) : Command → m Transcript
  | .compile input output config entry noComments format =>
    Action.run (do
      let config ← readConfig disk config
      compileFile disk input output (config.override entry noComments format))
      ("Error compiling " ++ input)
  | .check input format =>
    Action.run (checkFile disk input (format.getD .text)) ("Error checking " ++ input)
  | .tokens input => Action.run (listTokens disk input) ("Error tokenizing " ++ input)
  | .ast input resolved =>
    Action.run (showProgram disk input resolved) ("Error dumping AST of " ++ input)

end Command

namespace Request

variable {m : Type → Type} [Monad m]

/-- How the commands are used. -/
def usage : String :=
  "Usage: ilc <COMMAND>\n\n" ++
  "Commands:\n" ++
  "  compile <INPUT> [-o|--output <OUTPUT>] [--config <CONFIG>] [--no-comments]\n" ++
  "          [--entry <ENTRY>] [--diagnostics <text|json>]\n" ++
  "  check   <INPUT> [--diagnostics <text|json>]\n" ++
  "  tokens  <INPUT>\n" ++
  "  ast     <INPUT> [--resolved]"

/-- Does what a command line asks for. -/
def fulfil (disk : Disk m) : Request → m Transcript
  | .run command => command.run disk
  | .version => return ⟨[.out "ilc 0.1.0"], 0⟩
  | .help => return ⟨[.out usage], 0⟩
  | .misuse => return ⟨[.err usage], 2⟩

end Request

end Ilang
