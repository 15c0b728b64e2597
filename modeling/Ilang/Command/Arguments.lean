import Ilang.Config
/-!
# The command line

`ilc` has four commands. Options stand before or behind the input. The value of an option stands
behind an equals sign or is the next argument, which must not look like an option. Behind `--`
everything is an input. There is one input, and no option is given twice.
-/
namespace Ilang

/-- Something to do. -/
inductive Command where
  | compile (input : String) (output config entry : Option String) (noComments : Bool)
      (format : Option ReportFormat)
  | check (input : String) (format : Option ReportFormat)
  | tokens (input : String)
  | ast (input : String) (resolved : Bool)
deriving DecidableEq, Repr

/-- What a command line asks for. -/
inductive Request where
  | run (command : Command)
  | version
  | help
  /-- Nothing that can be understood. -/
  | misuse
deriving DecidableEq, Repr

namespace Arguments

/-- What an option is given with. -/
inductive ValueKind where
  | nothing
  | anyText
  /-- A path is not empty. -/
  | path
  | reportFormat
deriving DecidableEq, Repr

/-- Whether a text can be the value of an option. -/
def ValueKind.admits (kind : ValueKind) (s : String) : Bool :=
  match kind with
  | nothing | anyText => true
  | path => !s.isEmpty
  | reportFormat => (ReportFormat.ofName? s).isSome

/-- An option of a command. Only options with a value have a letter. -/
structure OptionSpec where
  name : String
  letter : Option Char := none
  kind : ValueKind
deriving DecidableEq, Repr

/-- An argument by its form. -/
inductive Word where
  | separator
  | help
  | option (spec : OptionSpec) (attached : Option String)
  | unknownOption
  | input
deriving DecidableEq, Repr

/-- Splits a text at its first equals sign. -/
def splitEquals (cs : List Char) : List Char × Option String :=
  match cs.dropWhile (· ≠ '=') with
  | [] => (cs, none)
  | _ :: value => (cs.takeWhile (· ≠ '='), some (String.ofList value))

/-- The value that follows the letter of an option directly. -/
def attachedValue : List Char → Option String
  | [] => none
  | '=' :: value => some (String.ofList value)
  | value => some (String.ofList value)

/-- The form of an argument. -/
def classify (options : List OptionSpec) (argument : String) : Word :=
  match argument.toList with
  | ['-', '-'] => .separator
  | '-' :: '-' :: cs =>
    let (name, attached) := splitEquals cs
    let name := String.ofList name
    if name = "help" then
      if attached.isNone then .help else .unknownOption
    else
      match options.find? (·.name = name) with
      | some spec => .option spec attached
      | none => .unknownOption
  | ['-'] => .input
  | '-' :: letter :: cs =>
    if letter = 'h' then .help
    else
      match options.find? (·.letter = some letter) with
      | some spec => .option spec (attachedValue cs)
      | none => .unknownOption
  | _ => .input

/-- What was given. -/
structure Given where
  input : Option String := none
  /-- The options by name, with their values. -/
  options : List (String × String) := []
deriving DecidableEq, Repr

namespace Given

/-- Adds an option, if it is not there yet and its value is right. -/
def addOption (g : Given) (spec : OptionSpec) (value : String) : Option Given :=
  if (g.options.lookup spec.name).isNone && spec.kind.admits value then
    some { g with options := (spec.name, value) :: g.options }
  else none

/-- Adds the input, if it is not there yet. -/
def addInput (g : Given) (path : String) : Option Given :=
  if g.input.isNone && !path.isEmpty then some { g with input := some path } else none

/-- The value of an option. -/
def value? (g : Given) (name : String) : Option String := g.options.lookup name

/-- Whether an option was given. -/
def has (g : Given) (name : String) : Bool := (g.value? name).isSome

/-- The report format that was given. -/
def format? (g : Given) : Option ReportFormat :=
  (g.value? "diagnostics").bind ReportFormat.ofName?

end Given

/-- What became of reading arguments. -/
inductive Reading where
  | given (g : Given)
  | help
  | misuse
deriving DecidableEq, Repr

/-- Reads the arguments of a command. `inputsOnly` says that `--` has been read. -/
def read (options : List OptionSpec) : (inputsOnly : Bool) → Given → List String → Reading
  | _, g, [] => .given g
  | true, g, argument :: rest =>
    match g.addInput argument with
    | some g => read options true g rest
    | none => .misuse
  | false, g, argument :: rest =>
    match classify options argument with
    | .separator => read options true g rest
    | .help => .help
    | .unknownOption => .misuse
    | .input =>
      match g.addInput argument with
      | some g => read options false g rest
      | none => .misuse
    | .option spec (some attached) =>
      if spec.kind = .nothing then .misuse
      else
        match g.addOption spec attached with
        | some g => read options false g rest
        | none => .misuse
    | .option spec none =>
      if spec.kind = .nothing then
        match g.addOption spec "" with
        | some g => read options false g rest
        | none => .misuse
      else
        match rest with
        | [] => .misuse
        | value :: rest =>
          if classify options value = .input then
            match g.addOption spec value with
            | some g => read options false g rest
            | none => .misuse
          else .misuse

/-- The option that chooses how diagnostics are shown. -/
def formatOption : OptionSpec := { name := "diagnostics", kind := .reportFormat }

/-- The options of the command `compile`. -/
def compileOptions : List OptionSpec :=
  [{ name := "output", letter := some 'o', kind := .path }, { name := "config", kind := .path },
    { name := "no-comments", kind := .nothing }, { name := "entry", kind := .anyText },
    formatOption]

/-- The options of the command `ast`. -/
def astOptions : List OptionSpec := [{ name := "resolved", kind := .nothing }]

/-- Reads the arguments of a command that needs an input. -/
def readCommand (options : List OptionSpec) (arguments : List String)
    (command : String → Given → Command) : Request :=
  match read options false {} arguments with
  | .help => .help
  | .misuse => .misuse
  | .given g =>
    match g.input with
    | some input => .run (command input g)
    | none => .misuse

/-- The names of the commands. -/
def commandNames : List String := ["compile", "check", "tokens", "ast"]

/-- What an argument before any command asks for. -/
def readGeneral (argument : String) : Request :=
  match argument.toList with
  | '-' :: '-' :: _ =>
    if argument = "--help" then .help else if argument = "--version" then .version else .misuse
  | '-' :: 'h' :: _ => .help
  | '-' :: 'V' :: _ => .version
  | _ => .misuse

/-- What the words behind `help` ask for: nothing more, or the help of one command. -/
def readHelp : List String → Request
  | [] => .help
  | [name] => if name ∈ commandNames ∨ name = "help" then .help else .misuse
  | _ => .misuse

end Arguments

/-- What a command line asks for. -/
def Request.ofArguments : List String → Request
  | [] => .misuse
  | "compile" :: arguments =>
    Arguments.readCommand Arguments.compileOptions arguments fun input g =>
      .compile input (g.value? "output") (g.value? "config") (g.value? "entry")
        (g.has "no-comments") g.format?
  | "check" :: arguments =>
    Arguments.readCommand [Arguments.formatOption] arguments fun input g => .check input g.format?
  | "tokens" :: arguments => Arguments.readCommand [] arguments fun input _ => .tokens input
  | "ast" :: arguments =>
    Arguments.readCommand Arguments.astOptions arguments fun input g =>
      .ast input (g.has "resolved")
  | "help" :: words => Arguments.readHelp words
  | argument :: _ => Arguments.readGeneral argument

end Ilang
