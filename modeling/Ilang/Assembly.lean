import Ilang.Assembly.Emission
import Ilang.Assembly.Placement
/-!
# Assembly

Makes the assembly of a program in three steps: the functions are checked for names, everything gets
its place, and code is made. The first error ends it.
-/
namespace Ilang

/-- What assembly is wanted. -/
structure GenOptions where
  /-- The function that is exported. -/
  entryPoint : String := "main"
  /-- Whether the program must have that function. -/
  requireEntryPoint : Bool := true
  /-- Whether comments tell what the code is for. -/
  comments : Bool := true
deriving DecidableEq, Repr, Inhabited

/-- The code and the data of a program. -/
structure Assembly where
  code : List Instr
  data : List Instr
deriving DecidableEq, Repr, Inhabited

/-- Assembly as text. -/
def Assembly.text (a : Assembly) : String := Instr.lines a.code ++ "\n" ++ Instr.lines a.data

/-- Everything that comes of making the assembly of a program. -/
structure Generation where
  /-- The program, with what was placed. -/
  program : Program
  /-- The frames of the functions that were placed. -/
  frames : List Frame := []
  /-- The frame of a function that could not be placed to the end. -/
  unfinished : Option Frame := none
  constants : Constants := {}
  /-- The assembly, and the labels that it took. -/
  result : Except GenError (Assembly × Labels)

/-- The first function whose name an earlier one has. -/
def firstRedeclared : (earlier : List String) → List Function → Option Function
  | _, [] => none
  | earlier, f :: fs =>
    if f.ident.name ∈ earlier then some f else firstRedeclared (f.ident.name :: earlier) fs

/-- Checks that the names of the functions differ and that the entry point is there. -/
def Program.checkFunctions (options : GenOptions) (p : Program) : Except GenError Unit :=
  match firstRedeclared [] p.functions with
  | some f => .error (.redeclaredFunction f.ident.name f.ident.location)
  | none =>
    if options.requireEntryPoint && !p.functions.any (·.ident.name = options.entryPoint) then
      .error (.missingEntryPoint options.entryPoint)
    else
      .ok ()

/-- The lines before the code of the first function. -/
def header (options : GenOptions) : List Instr :=
  remark options.comments "headers" ++
    [.directive ".text", .directive (".globl " ++ options.entryPoint)]

/-- The assembly of functions that have been placed. -/
def PlacedFunctions.assemble (options : GenOptions) (placed : PlacedFunctions) :
    Except GenError (Assembly × Labels) := do
  let names := placed.functions.map (·.ident.name)
  let (code, labels) ←
    (emitFunctions options.comments names (placed.functions.zip placed.frames)).run {}
  let data ← placed.constants.dataLines
  return (⟨header options ++ code.toList, data⟩, labels)

/-- Makes the assembly of a program. -/
def Program.generate (options : GenOptions) (p : Program) : Generation :=
  match p.checkFunctions options with
  | .error e => { program := p, result := .error e }
  | .ok () =>
    let placed := placeFunctions {} p.functions
    let program := { p with functions := placed.functions }
    match placed.stopped with
    | some (frame, e) =>
      { program := program, frames := placed.frames, unfinished := some frame,
        constants := placed.constants, result := .error e }
    | none =>
      { program := program, frames := placed.frames, constants := placed.constants,
        result := placed.assemble options }

end Ilang
