import Ilang.Operator
/-!
# Expressions

Everything inside a function body is an expression, bindings, loops and `return` included. The tree
carries the results of the passes over it: identifiers the declaration and the frame variable they
stand for, nodes their type, string literals the label of their constant.
-/
namespace Ilang

/-- An occurrence of a name. -/
structure Ident where
  name : String
  location : Location
  /-- The index of the declaration that the name stands for. -/
  binding : Option Nat := none
  /-- The index of the frame variable that the name stands for. -/
  slot : Option Nat := none
deriving DecidableEq, Repr, Inhabited

/-- A type as a program writes it, with the type that it stands for. -/
structure TypeRef where
  name : String
  location : Location
  ty : Ty
deriving DecidableEq, Repr, Inhabited

/-- The reference that a name makes. -/
def TypeRef.ofName (name : String) (location : Location) : TypeRef :=
  ⟨name, location, Ty.ofName name⟩

/-- What every expression carries: where it starts and its type. -/
structure Node where
  location : Location
  ty : Ty := .undefined
deriving DecidableEq, Repr, Inhabited

/-- An expression. -/
inductive Expr where
  /-- A literal as it is written. A string has the label of its constant once it has been laid
  out. -/
  | literal (node : Node) (text : String) (constant : Option String)
  | var (node : Node) (ident : Ident)
  | call (node : Node) (callee : Ident) (arguments : List Expr)
  /-- Statements and, if the last one has no semicolon, the value of the block. -/
  | block (node : Node) (body : List Expr) (result : Option Expr)
  /-- A new variable: `let ident: type = value`. -/
  | bind (node : Node) (ident : Ident) (type : TypeRef) (value : Expr)
  | assign (node : Node) (target : Ident) (value : Expr)
  | binary (node : Node) (op : BinaryOp) (left right : Expr)
  | unary (node : Node) (op : UnaryOp) (operand : Expr)
  /-- An expression in parentheses. -/
  | group (node : Node) (inner : Expr)
  /-- `if condition onTrue`, and `else onFalse` if that is there. -/
  | branch (node : Node) (condition onTrue : Expr) (onFalse : Option Expr)
  /-- `return value`. -/
  | ret (node : Node) (value : Expr)
  /-- `while condition body`. -/
  | loop (node : Node) (condition body : Expr)
  /-- `break`. -/
  | brk (node : Node)
deriving Repr, Inhabited

namespace Expr

/-- What an expression carries. -/
def node : Expr → Node
  | literal n .. | var n .. | call n .. | block n .. | bind n .. | assign n .. | binary n ..
  | unary n .. | group n .. | branch n .. | ret n .. | loop n .. | brk n => n

/-- The type that an expression carries. -/
def ty (e : Expr) : Ty := e.node.ty

/-- Where an expression starts. -/
def location (e : Expr) : Location := e.node.location

/-- Whether an expression is a block. -/
def isBlock : Expr → Bool
  | block .. => true
  | _ => false

end Expr

end Ilang
