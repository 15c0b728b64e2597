import Ilang.Location
import Ilang.Ty
/-!
# What no code can be made for
-/
namespace Ilang

/-- Why no code is made for a program. -/
inductive GenError where
  | redeclaredFunction (name : String) (location : Location)
  | missingEntryPoint (name : String)
  | unresolvedLocal (name : String) (location : Location)
  | redefinedLocal (name : String) (location : Location)
  | tooManyParameters (function : String) (count max : Nat)
  | tooManyArguments (callee : String) (count max : Nat) (location : Location)
  | unsupportedLiteral (text : String) (ty : Ty) (location : Location)
  | unsupportedConstant (label : String) (ty : Ty)
  | breakOutsideLoop (location : Location)
  | invalidRegister (index count : Nat)
deriving DecidableEq, Repr

/-- An error in words. -/
def GenError.message : GenError → String
  | redeclaredFunction name location =>
    "Redefinition of function '" ++ name ++ "' at " ++ location.text
  | missingEntryPoint name => "No entry point '" ++ name ++ "'"
  | unresolvedLocal name location =>
    "Undefined local variable '" ++ name ++ "' at " ++ location.text
  | redefinedLocal name location => "Redefinition of variable '" ++ name ++ "' at " ++ location.text
  | tooManyParameters function count max =>
    "Function '" ++ function ++ "' has " ++ toString count ++ " parameters, at most " ++
      toString max ++ " are supported"
  | tooManyArguments callee count max location =>
    "Call to '" ++ callee ++ "' at " ++ location.text ++ " has " ++ toString count ++
      " arguments, at most " ++ toString max ++ " are supported"
  | unsupportedLiteral text ty location =>
    "Unsupported " ++ ty.name ++ " literal '" ++ text ++ "' at " ++ location.text
  | unsupportedConstant label ty =>
    "Unsupported constant type " ++ ty.name ++ " for '" ++ label ++ "'"
  | breakOutsideLoop location => "Break outside of a loop at " ++ location.text
  | invalidRegister index count =>
    "Invalid register index " ++ toString index ++ ", allowed range is 0.." ++ toString count

end Ilang
