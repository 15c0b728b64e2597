import Ilang.Operator
/-!
# Diagnostics

What analysis reports about a program. A diagnostic has a kind, a message, a location and notes.
`Problem` lists everything that can be wrong and says it in words.
-/
namespace Ilang

/-- Where two types disagree. -/
inductive Mismatch where
  | bind
  | ret
  | assign
  | operand
  | branch
deriving DecidableEq, Repr

/-- What is wrong, roughly. -/
inductive DiagnosticKind where
  | duplicateDeclaration
  | undeclaredIdentifier
  | unresolvedType
  | typeMismatch (reason : Mismatch)
  | operatorNotApplicable
  | argumentCount
  | argumentType
  | conditionNotBoolean
  | breakOutsideLoop
  | notCallable
  | notAValue
deriving DecidableEq, Repr

/-- A mismatch in words. -/
def Mismatch.text : Mismatch → String
  | bind => "bind"
  | ret => "return"
  | assign => "assignment"
  | operand => "binary operand"
  | branch => "branch mismatch"

/-- A kind in words. -/
def DiagnosticKind.text : DiagnosticKind → String
  | duplicateDeclaration => "duplicate declaration"
  | undeclaredIdentifier => "undeclared identifier"
  | unresolvedType => "unresolved type"
  | typeMismatch reason => "type mismatch (" ++ reason.text ++ ")"
  | operatorNotApplicable => "operator not applicable"
  | argumentCount => "argument count mismatch"
  | argumentType => "argument type mismatch"
  | conditionNotBoolean => "condition not boolean"
  | breakOutsideLoop => "break outside loop"
  | notCallable => "not callable"
  | notAValue => "not a value"

/-- Something wrong in a program. -/
structure Diagnostic where
  kind : DiagnosticKind
  message : String
  location : Location
  notes : List String := []
deriving DecidableEq, Repr

/-- A diagnostic as it is shown, a line for each note behind the first. -/
def Diagnostic.text (d : Diagnostic) : String :=
  d.notes.foldl (fun s note => s ++ "\n  note: " ++ note)
    (d.location.text ++ ": error: " ++ d.message)

/-- Diagnostics in the order in which they were found. -/
abbrev Report := List Diagnostic

namespace Report

/-- How many errors there are, in words. -/
def summary (r : Report) : String :=
  match r.length with
  | 0 => "No errors"
  | 1 => "1 error"
  | n => toString n ++ " errors"

/-- All diagnostics as they are shown. -/
def text (r : Report) : String := "\n".intercalate (r.map Diagnostic.text)

/-- How many diagnostics are of a kind. -/
def countOf (r : Report) (kind : DiagnosticKind) : Nat := r.countP (·.kind = kind)

end Report

/-- A construct that has a condition. -/
inductive Conditional where
  | branch
  | loop
deriving DecidableEq, Repr

/-- The word that starts a construct with a condition. -/
def Conditional.word : Conditional → String
  | branch => "if"
  | loop => "while"

/-- Everything that analysis can find wrong. -/
inductive Problem where
  | duplicate (name : String) (previous : Option Location)
  | undeclared (name : String)
  | unknownType (name : String)
  | untypedLiteral (text : String)
  | untypedName (name : String)
  | functionBody (name : String) (declared found : Ty)
  | functionAsValue (name : String)
  | notAFunction (name : String)
  | argumentCount (name : String) (expected : Nat) (orMore : Bool) (given : Nat)
  /-- Arguments are counted from one. -/
  | argumentType (name : String) (position : Nat) (expected found : Ty)
  | extraArgument (name : String) (position : Nat)
  | missingArgument (name : String) (position : Nat) (expected : Ty)
  | boundValue (name : String) (declared found : Ty)
  | assignedValue (name : String) (declared found : Ty)
  | operandTypes (op : BinaryOp) (left right : Ty)
  | binaryOperand (op : BinaryOp) (found : Ty)
  | unaryOperand (op : UnaryOp) (found : Ty)
  | condition (construct : Conditional) (found : Ty)
  | branchTypes (onTrue onFalse : Ty)
  | returnedValue (declared found : Ty)
  | breakOutsideLoop
deriving DecidableEq, Repr

namespace Problem

/-- The kind of diagnostic that a problem makes. -/
def kind : Problem → DiagnosticKind
  | duplicate .. => .duplicateDeclaration
  | undeclared .. => .undeclaredIdentifier
  | unknownType .. | untypedLiteral .. | untypedName .. => .unresolvedType
  | functionBody .. | returnedValue .. => .typeMismatch .ret
  | functionAsValue .. => .notAValue
  | notAFunction .. => .notCallable
  | argumentCount .. => .argumentCount
  | argumentType .. | extraArgument .. | missingArgument .. => .argumentType
  | boundValue .. => .typeMismatch .bind
  | assignedValue .. => .typeMismatch .assign
  | operandTypes .. => .typeMismatch .operand
  | binaryOperand .. | unaryOperand .. => .operatorNotApplicable
  | condition .. => .conditionNotBoolean
  | branchTypes .. => .typeMismatch .branch
  | breakOutsideLoop => .breakOutsideLoop

/-- A problem in words. -/
def message : Problem → String
  | duplicate name _ => "identifier " ++ name ++ " is already declared"
  | undeclared name => "undeclared identifier " ++ name
  | unknownType name => "unknown type " ++ name
  | untypedLiteral text => "cannot resolve type of literal " ++ text
  | untypedName name => "cannot resolve type of " ++ name
  | functionBody name declared found =>
    "function " ++ name ++ " returns " ++ declared.name ++ " but its body has type " ++ found.name
  | functionAsValue name => "function " ++ name ++ " cannot be used as a value"
  | notAFunction name => name ++ " is not a function"
  | argumentCount name expected orMore given =>
    name ++ " expects " ++ toString expected ++ (if orMore then " or more" else "") ++
      " arguments, got " ++ toString given
  | argumentType name position expected found =>
    "argument " ++ toString position ++ " of " ++ name ++ " has type " ++ found.name ++
      ", expected " ++ expected.name
  | extraArgument name position => "unexpected argument " ++ toString position ++ " to " ++ name
  | missingArgument name position expected =>
    "missing argument " ++ toString position ++ " of type " ++ expected.name ++ " to " ++ name
  | boundValue name declared found =>
    "cannot bind " ++ found.name ++ " value to " ++ name ++ " of type " ++ declared.name
  | assignedValue name declared found =>
    "cannot assign " ++ found.name ++ " value to " ++ name ++ " of type " ++ declared.name
  | operandTypes op left right =>
    "operands of " ++ op.text ++ " have different types " ++ left.name ++ " and " ++ right.name
  | binaryOperand op found => "operator " ++ op.text ++ " cannot be applied to " ++ found.name
  | unaryOperand op found => "operator " ++ op.text ++ " cannot be applied to " ++ found.name
  | condition construct found =>
    construct.word ++ " condition has type " ++ found.name ++ ", expected bool"
  | branchTypes onTrue onFalse =>
    "if branches have different types " ++ onTrue.name ++ " and " ++ onFalse.name
  | returnedValue declared found =>
    "cannot return " ++ found.name ++ " from a function returning " ++ declared.name
  | breakOutsideLoop => "break outside of a loop"

/-- What a problem's diagnostic adds to its message. -/
def notes : Problem → List String
  | duplicate _ (some previous) => ["previous declaration at " ++ previous.text]
  | _ => []

/-- The diagnostic of a problem at some place. -/
def located (p : Problem) (location : Location) : Diagnostic :=
  ⟨p.kind, p.message, location, p.notes⟩

end Problem

end Ilang
