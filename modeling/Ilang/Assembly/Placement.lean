import Ilang.Assembly.Constants
import Ilang.Assembly.Frame
import Ilang.Program
/-!
# Places for variables and constants

Goes through a function and gives every parameter and variable its place in the frame, every use of
one the variable that it means, and every string its constant. A variable gets its place behind its
initial value. The first error ends the walk, and what was placed before it stays placed.
-/
namespace Ilang

/-- The frame of the function and the constants of the program, up to here. -/
structure Layout where
  frame : Frame
  constants : Constants
deriving Repr

/-- A piece of a program that has been gone through, up to an error if there is one. -/
structure Placed (α : Type) where
  value : α
  layout : Layout
  error : Option GenError := none
deriving Repr

namespace Placed

variable {α β : Type}

/-- The same walk with another result. -/
@[inline] def map (f : α → β) (p : Placed α) : Placed β := ⟨f p.value, p.layout, p.error⟩

/-- Goes on with a second piece, which stays as it is if the first one has an error. -/
@[inline] def andThen (p : Placed α) (second : β) (go : Layout → Placed β) : Placed (α × β) :=
  match p.error with
  | some e => ⟨(p.value, second), p.layout, some e⟩
  | none => (go p.layout).map (p.value, ·)

/-- Closes the innermost scope of the frame. -/
def leave (p : Placed α) : Placed α :=
  { p with layout := { p.layout with frame := p.layout.frame.leave } }

end Placed

namespace Layout

/-- Opens a scope of the frame. -/
def enter (s : Layout) : Layout := { s with frame := s.frame.enter }

/-- Gives a declared name its place. -/
def register (s : Layout) (ty : Ty) (i : Ident) : Placed Ident :=
  match s.frame.register i.name ty i.location with
  | (.ok index, frame) => ⟨{ i with slot := some index }, { s with frame := frame }, none⟩
  | (.error e, frame) => ⟨i, { s with frame := frame }, some e⟩

/-- Gives a used name the variable that it means. -/
def bind (s : Layout) (i : Ident) : Placed Ident :=
  match s.frame.resolve i.name i.location with
  | .ok index => ⟨{ i with slot := some index }, s, none⟩
  | .error e => ⟨i, s, some e⟩

end Layout

mutual

/-- Goes through an expression. -/
def Expr.place (s : Layout) : Expr → Placed Expr
  | .literal n text constant =>
    if n.ty = .string then
      let (label, constants) := s.constants.allocate text .string
      ⟨.literal n text (some label), { s with constants := constants }, none⟩
    else
      ⟨.literal n text constant, s, none⟩
  | .var n ident => (s.bind ident).map (.var n)
  | .call n callee arguments => (placeAll s arguments).map (.call n callee)
  | .block n body result =>
    ((placeAll s.enter body).andThen result fun s => placeOpt s result).leave.map
      fun (b, r) => .block n b r
  | .bind n ident type value =>
    ((value.place s).andThen ident fun s => s.register type.ty ident).map
      fun (v, i) => .bind n i type v
  | .assign n target value =>
    ((value.place s).andThen target fun s => s.bind target).map fun (v, i) => .assign n i v
  | .binary n op left right =>
    ((left.place s).andThen right fun s => right.place s).map fun (l, r) => .binary n op l r
  | .unary n op operand => (operand.place s).map (.unary n op)
  | .group n inner => (inner.place s).map (.group n)
  | .branch n condition onTrue onFalse =>
    (((condition.place s).andThen onTrue fun s => onTrue.place s).andThen onFalse
      fun s => placeOpt s onFalse).map fun ((c, t), f) => .branch n c t f
  | .ret n value => (value.place s).map (.ret n)
  | .loop n condition body =>
    ((condition.place s).andThen body fun s => body.place s).map fun (c, b) => .loop n c b
  | .brk n => ⟨.brk n, s, none⟩

/-- Goes through expressions that follow each other. -/
def placeAll (s : Layout) : List Expr → Placed (List Expr)
  | [] => ⟨[], s, none⟩
  | e :: es =>
    ((e.place s).andThen es fun s => placeAll s es).map fun (first, others) => first :: others

/-- Goes through an expression that may be missing. -/
def placeOpt (s : Layout) : Option Expr → Placed (Option Expr)
  | none => ⟨none, s, none⟩
  | some e => (e.place s).map some

end

/-- Gives parameters their places. -/
def placeParams (s : Layout) : List Param → Placed (List Param)
  | [] => ⟨[], s, none⟩
  | p :: ps =>
    ((s.register p.type.ty p.ident).andThen ps fun s => placeParams s ps).map
      fun (i, others) => { p with ident := i } :: others

/-- Goes through a function, with a new frame. -/
def Function.place (constants : Constants) (f : Function) : Placed Function :=
  let s : Layout := ⟨{ function := f.ident.name }, constants⟩
  ((placeParams s.enter f.params).andThen f.body fun s => f.body.place s).leave.map
    fun (ps, b) => { f with params := ps, body := b }

/-- Functions that have been gone through, up to an error if there is one. -/
structure PlacedFunctions where
  functions : List Function
  /-- The frames of the functions that were gone through to the end, in order. -/
  frames : List Frame
  constants : Constants
  /-- The error, and the frame as it was then. -/
  stopped : Option (Frame × GenError) := none
deriving Repr

/-- Goes through functions one after another. -/
def placeFunctions (constants : Constants) : List Function → PlacedFunctions
  | [] => ⟨[], [], constants, none⟩
  | f :: fs =>
    let first := f.place constants
    match first.error with
    | some e => ⟨first.value :: fs, [], first.layout.constants, some (first.layout.frame, e)⟩
    | none =>
      let others := placeFunctions first.layout.constants fs
      { others with
        functions := first.value :: others.functions
        frames := first.layout.frame :: others.frames }

end Ilang
