/-!
# Types

The five types a program can name, and one for what has no type yet.
-/
namespace Ilang

/-- A type of the language. `undefined` stands for a type that is missing or could not be found. -/
inductive Ty where
  | int
  | float
  | bool
  | string
  | unit
  | undefined
deriving DecidableEq, Repr, Inhabited

namespace Ty

/-- A type as programs and messages write it. -/
def name : Ty → String
  | int => "int"
  | float => "float"
  | bool => "bool"
  | string => "string"
  | unit => "unit"
  | undefined => "undefined"

/-- The type that a name stands for. No program can name the undefined type. -/
def ofName? (s : String) : Option Ty :=
  match s with
  | "int" => some int
  | "float" => some float
  | "bool" => some bool
  | "string" => some string
  | "unit" => some unit
  | _ => none

/-- The type that a written name stands for, undefined if the name is unknown. -/
def ofName (s : String) : Ty := (ofName? s).getD undefined

/-- Whether this is one of the types a program can name. -/
def isDefined : Ty → Bool
  | undefined => false
  | _ => true

end Ty

end Ilang
