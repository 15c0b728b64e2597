import Ilang.Diagnostic
import Ilang.Program.Json
/-!
# The JSON form of diagnostics
-/
namespace Ilang

/-- The word for a mismatch. -/
def Mismatch.word : Mismatch → String
  | bind => "Bind"
  | ret => "Return"
  | assign => "Assignment"
  | operand => "BinaryOperand"
  | branch => "BranchMismatch"

/-- The word for a kind of diagnostic. -/
def DiagnosticKind.word : DiagnosticKind → String
  | duplicateDeclaration => "DuplicateDeclaration"
  | undeclaredIdentifier => "UndeclaredIdentifier"
  | unresolvedType => "UnresolvedType"
  | typeMismatch _ => "TypeMismatch"
  | operatorNotApplicable => "OperatorNotApplicable"
  | argumentCount => "ArgumentCountMismatch"
  | argumentType => "ArgumentTypeMismatch"
  | conditionNotBoolean => "ConditionNotBoolean"
  | breakOutsideLoop => "BreakOutsideLoop"
  | notCallable => "NotCallable"
  | notAValue => "NotAValue"

/-- A kind as its word; a mismatch tells its reason too. -/
def DiagnosticKind.toJson (kind : DiagnosticKind) : Json :=
  match kind with
  | typeMismatch reason => .ofFields [(kind.word, .ofText reason.word)]
  | _ => .ofText kind.word

/-- A diagnostic as an object. -/
def Diagnostic.toJson (d : Diagnostic) : Json :=
  .ofFields [("kind", d.kind.toJson), ("message", .ofText d.message),
    ("location", d.location.toJson), ("notes", .array (d.notes.map Json.ofText))]

/-- A report as an object. -/
def Report.toJson (r : Report) : Json :=
  .ofFields [("diagnostics", .array (r.map Diagnostic.toJson))]

end Ilang
