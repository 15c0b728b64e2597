import Ilang.Expr
/-!
# Programs

A program has functions and declares external ones. Name resolution adds the table of everything
that the program declares; an identifier's binding is an index into that table.
-/
namespace Ilang

/-- A parameter of a function. -/
structure Param where
  ident : Ident
  type : TypeRef
deriving DecidableEq, Repr, Inhabited

/-- A function with a body. -/
structure Function where
  ident : Ident
  returns : TypeRef
  params : List Param
  body : Expr
  location : Location
deriving Repr, Inhabited

/-- A function that is defined elsewhere. A variadic one takes any arguments behind its
parameters. -/
structure External where
  ident : Ident
  returns : TypeRef
  params : List Param
  variadic : Bool
  location : Location
deriving Repr, Inhabited

/-- What a declaration declares. -/
inductive DeclKind where
  | function
  | external
  | parameter
  | letBound
deriving DecidableEq, Repr, Inhabited

/-- The types of the arguments that a function takes. -/
structure Signature where
  params : List Ty
  variadic : Bool
deriving DecidableEq, Repr, Inhabited

/-- An entry of the declaration table. A function's type is that of its result. -/
structure Declaration where
  name : String
  kind : DeclKind
  ty : Ty
  location : Location
  signature : Option Signature
deriving DecidableEq, Repr, Inhabited

/-- Whether a declaration is that of a function, external ones included. -/
def Declaration.isCallable (d : Declaration) : Bool :=
  d.kind = .function || d.kind = .external

/-- All declarations of a program, in the order in which they are met. -/
abbrev DeclTable := Array Declaration

/-- The declaration that a binding stands for. -/
def DeclTable.find (table : DeclTable) (binding : Option Nat) : Option Declaration :=
  binding.bind fun i => table[i]?

/-- A program. -/
structure Program where
  functions : List Function := []
  externals : List External := []
  table : DeclTable := #[]
deriving Repr, Inhabited

end Ilang
