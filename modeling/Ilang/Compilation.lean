import Ilang.Analysis
import Ilang.Assembly
import Ilang.Grammar.Program
import Ilang.Log
import Ilang.Token.Cursor
/-!
# Compilation

From a source text to assembly: tokens, the program, its analysis, and code. Every step writes its
log messages, also if a later one fails.
-/
namespace Ilang

/-- Why a source text was not compiled. -/
inductive CompileError where
  | lex (e : LexError)
  | parse (e : ParseError)
  | analysis (report : Report)
  | generation (e : GenError)
deriving Repr

/-- An error in words. -/
def CompileError.message : CompileError → String
  | lex e => "Lexical error at " ++ e.location.text ++ ": " ++ e.fault.message
  | parse e => "Parse error at " ++ e.location.text ++ ": " ++ e.message
  | analysis report => report.text
  | generation e => "Code generation error: " ++ e.message

/-- A result and the log of how it came about. -/
structure Logged (α : Type) where
  value : α
  log : Log
deriving Repr

/-! ## What each step writes -/

/-- The message for the tokens of a file. -/
def tokensLog (file : String) (ts : List Token) : Log :=
  [⟨.trace, .lexer, "lexed " ++ toString ts.length ++ " tokens from " ++ file⟩]

/-- The message for a program that was read. -/
def Program.readLog (p : Program) : Log :=
  [⟨.debug, .parser, "parsed " ++ toString p.functions.length ++ " functions and " ++
    toString p.externals.length ++ " external declarations"⟩]

/-- The messages for an analysis, one for each pass. -/
def Analysis.log (a : Analysis) : Log :=
  [⟨.debug, .names, "name resolution: " ++ toString a.program.table.size ++ " declarations, " ++
      a.names.summary⟩,
    ⟨.debug, .types, "type resolution: " ++ a.types.summary⟩,
    ⟨.debug, .checks, "type checking: " ++ a.checks.summary⟩]

/-- The messages for the variables of a frame. -/
def Frame.varsLog (f : Frame) : Log :=
  f.vars.toList.map fun v =>
    ⟨.trace, .frame, f.function ++ ": " ++ v.uniqueName ++ " at " ++ toString v.offset ++ "(%rbp)"⟩

/-- The messages for a frame that is complete. -/
def Frame.log (f : Frame) : Log :=
  f.varsLog ++
    [⟨.debug, .placement, f.function ++ ": frame of " ++ toString f.size ++ " bytes"⟩]

/-- The messages for making assembly. -/
def Generation.log (g : Generation) : Log :=
  g.frames.flatMap Frame.log ++ (g.unfinished.map Frame.varsLog).getD [] ++
    match g.result with
    | .error _ => []
    | .ok (_, labels) =>
      [⟨.debug, .assembly, "generated " ++ toString g.frames.length ++ " functions, " ++
        toString g.constants.entries.size ++ " constants, " ++ toString labels.branches.issued ++
        " conditional and " ++ toString labels.loops.issued ++ " loop labels"⟩]

/-! ## The steps together -/

/-- Reads the program of a source text. -/
def readProgram (file source : String) : Logged (Except CompileError Program) :=
  match tokenize file source with
  | .error e => ⟨.error (.lex e), []⟩
  | .ok ts =>
    match parse ts with
    | .error e => ⟨.error (.parse e), tokensLog file ts⟩
    | .ok p => ⟨.ok p, tokensLog file ts ++ p.readLog⟩

/-- Makes the assembly of an analysed program. -/
def assemble (options : GenOptions) (p : Program) : Logged (Except CompileError Assembly) :=
  let g := p.generate options
  match g.result with
  | .error e => ⟨.error (.generation e), g.log⟩
  | .ok (assembly, _) => ⟨.ok assembly, g.log⟩

/-- Compiles a source text. If `checked` is not set, what analysis reports does not matter. -/
def compile (options : GenOptions) (checked : Bool) (file source : String) :
    Logged (Except CompileError Assembly) :=
  let read := readProgram file source
  match read.value with
  | .error e => ⟨.error e, read.log⟩
  | .ok p =>
    let a := p.analyze
    if checked && !a.report.isEmpty then ⟨.error (.analysis a.report), read.log ++ a.log⟩
    else
      let assembled := assemble options a.program
      ⟨assembled.value, read.log ++ a.log ++ assembled.log⟩

end Ilang
