import Ilang.Json
import Ilang.Program
/-!
# The JSON form of programs
-/
namespace Ilang

/-- A location as an object. -/
def Location.toJson (l : Location) : Json :=
  .ofFields [("filename", .ofText l.file), ("line", .ofNat l.line), ("column", .ofNat l.column)]

/-- The word for a type. -/
def Ty.word : Ty → String
  | int => "Integer"
  | float => "Float"
  | bool => "Boolean"
  | string => "String"
  | unit => "Unit"
  | undefined => "Undefined"

/-- A type as its word. -/
def Ty.toJson (t : Ty) : Json := .ofText t.word

/-- The word for a binary operator. -/
def BinaryOp.word : BinaryOp → String
  | add => "Add"
  | sub => "Sub"
  | mul => "Mul"
  | div => "Div"
  | eq => "Equal"
  | ne => "NotEqual"
  | lt => "Less"
  | gt => "Greater"
  | le => "LessEqual"
  | ge => "GreaterEqual"
  | shl => "LeftShift"
  | shr => "RightShift"
  | and => "LogicalAnd"
  | or => "LogicalOr"

/-- The word for a unary operator. -/
def UnaryOp.word : UnaryOp → String
  | not => "LogicalNot"
  | neg => "Minus"

/-- The word for what a declaration declares. -/
def DeclKind.word : DeclKind → String
  | function => "Function"
  | external => "External"
  | parameter => "Parameter"
  | letBound => "Local"

/-- An identifier as an object. -/
def Ident.toJson (i : Ident) : Json :=
  .ofFields [("name", .ofText i.name), ("location", i.location.toJson),
    ("binding", .ofOption .ofNat i.binding), ("local", .ofOption .ofNat i.slot)]

/-- A written type as an object. -/
def TypeRef.toJson (a : TypeRef) : Json :=
  .ofFields [("name", .ofText a.name), ("location", a.location.toJson), ("ty", a.ty.toJson)]

/-- An expression of some kind with what every expression carries. -/
def Node.toJson (n : Node) (kind : Json) : Json :=
  .ofFields [("kind", kind), ("location", n.location.toJson), ("expr_type", n.ty.toJson)]

mutual

/-- An expression as an object. -/
def Expr.toJson : Expr → Json
  | .literal n text constant =>
    n.toJson (.ofFields [("Literal",
      .ofFields [("value", .ofText text), ("constant", .ofOption .ofText constant)])])
  | .var n ident => n.toJson (.ofFields [("Identifier", ident.toJson)])
  | .call n callee arguments =>
    n.toJson (.ofFields [("Call",
      .ofFields [("callee", callee.toJson), ("arguments", .array (exprsToJson arguments))])])
  | .block n body result =>
    n.toJson (.ofFields [("Block",
      .ofFields [("body", .array (exprsToJson body)), ("implicit_return", optExprToJson result)])])
  | .bind n ident type value =>
    n.toJson (.ofFields [("Bind",
      .ofFields [("name", ident.toJson), ("annotation", type.toJson),
        ("value", value.toJson)])])
  | .assign n target value =>
    n.toJson (.ofFields [("Assignment",
      .ofFields [("target", target.toJson), ("value", value.toJson)])])
  | .binary n op left right =>
    n.toJson (.ofFields [("Binary",
      .ofFields [("op", .ofText op.word), ("left", left.toJson), ("right", right.toJson)])])
  | .unary n op operand =>
    n.toJson (.ofFields [("Unary",
      .ofFields [("op", .ofText op.word), ("operand", operand.toJson)])])
  | .group n inner => n.toJson (.ofFields [("Separated", inner.toJson)])
  | .branch n condition onTrue onFalse =>
    n.toJson (.ofFields [("Condition",
      .ofFields [("condition", condition.toJson), ("then_branch", onTrue.toJson),
        ("else_branch", optExprToJson onFalse)])])
  | .ret n value => n.toJson (.ofFields [("Return", value.toJson)])
  | .loop n condition body =>
    n.toJson (.ofFields [("Loop",
      .ofFields [("condition", condition.toJson), ("body", body.toJson)])])
  | .brk n => n.toJson (.ofText "Break")

/-- Expressions one after another. -/
def exprsToJson : List Expr → List Json
  | [] => []
  | e :: es => e.toJson :: exprsToJson es

/-- An expression that may be missing. -/
def optExprToJson : Option Expr → Json
  | none => .null
  | some e => e.toJson

end

/-- A parameter as an object. -/
def Param.toJson (p : Param) : Json :=
  .ofFields [("name", p.ident.toJson), ("annotation", p.type.toJson)]

/-- A function as an object. -/
def Function.toJson (f : Function) : Json :=
  .ofFields [("name", f.ident.toJson), ("return_type", f.returns.toJson),
    ("parameters", .array (f.params.map Param.toJson)), ("body", f.body.toJson),
    ("location", f.location.toJson)]

/-- An external function as an object. -/
def External.toJson (e : External) : Json :=
  .ofFields [("name", e.ident.toJson), ("return_type", e.returns.toJson),
    ("parameters", .array (e.params.map Param.toJson)), ("is_variadic", .bool e.variadic),
    ("location", e.location.toJson)]

/-- A signature as an object. -/
def Signature.toJson (s : Signature) : Json :=
  .ofFields [("parameters", .array (s.params.map Ty.toJson)), ("is_variadic", .bool s.variadic)]

/-- A declaration as an object. -/
def Declaration.toJson (d : Declaration) : Json :=
  .ofFields [("name", .ofText d.name), ("kind", .ofText d.kind.word), ("ty", d.ty.toJson),
    ("location", d.location.toJson), ("signature", .ofOption Signature.toJson d.signature)]

/-- A program as an object. -/
def Program.toJson (p : Program) : Json :=
  .ofFields [("functions", .array (p.functions.map Function.toJson)),
    ("externals", .array (p.externals.map External.toJson)),
    ("declarations", .ofFields [("entries", .array (p.table.toList.map Declaration.toJson))])]

end Ilang
