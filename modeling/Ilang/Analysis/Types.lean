import Ilang.Diagnostic
import Ilang.Literal
import Ilang.Program
/-!
# Types of expressions

Gives every expression its type, from the leaves up. Types are not compared here. What has no type
is reported and counts as undefined.
-/
namespace Ilang

/-- A piece of a program with its types. -/
structure Typed (α : Type) where
  value : α
  report : Report
deriving Repr

/-- Reports a type name that stands for no type. -/
def TypeRef.report (t : TypeRef) : Report :=
  if t.ty.isDefined then [] else [(Problem.unknownType t.name).located t.location]

/-- The declared type of a name. -/
def DeclTable.typeOf? (table : DeclTable) (i : Ident) : Option Ty :=
  (table.find i.binding).map Declaration.ty

/-- The declared type of a name, undefined if it has none. -/
def DeclTable.typeOf (table : DeclTable) (i : Ident) : Ty := (table.typeOf? i).getD .undefined

/-- Reports a name that has no declared type. -/
def DeclTable.reportUntyped (table : DeclTable) (i : Ident) : Report :=
  if (table.typeOf? i).isSome then [] else [(Problem.untypedName i.name).located i.location]

mutual

/-- Gives an expression and all inside it their types. -/
def Expr.resolveTypes (table : DeclTable) : Expr → Typed Expr
  | .literal n text constant =>
    match Literal.type? text with
    | some t => ⟨.literal { n with ty := t } text constant, []⟩
    | none =>
      ⟨.literal { n with ty := .undefined } text constant,
        [(Problem.untypedLiteral text).located n.location]⟩
  | .var n ident => ⟨.var { n with ty := table.typeOf ident } ident, table.reportUntyped ident⟩
  | .call n callee arguments =>
    let args := resolveTypesAll table arguments
    ⟨.call { n with ty := table.typeOf callee } callee args.value,
      args.report ++ table.reportUntyped callee⟩
  | .block n body result =>
    let b := resolveTypesAll table body
    let r := resolveTypesOpt table result
    ⟨.block { n with ty := (r.value.map Expr.ty).getD .unit } b.value r.value,
      b.report ++ r.report⟩
  | .bind n ident type value =>
    let v := value.resolveTypes table
    ⟨.bind { n with ty := type.ty } ident type v.value, type.report ++ v.report⟩
  | .assign n target value =>
    let v := value.resolveTypes table
    ⟨.assign { n with ty := table.typeOf target } target v.value, v.report⟩
  | .binary n op left right =>
    let l := left.resolveTypes table
    let r := right.resolveTypes table
    ⟨.binary { n with ty := l.value.ty } op l.value r.value, l.report ++ r.report⟩
  | .unary n op operand =>
    let e := operand.resolveTypes table
    ⟨.unary { n with ty := e.value.ty } op e.value, e.report⟩
  | .group n inner =>
    let e := inner.resolveTypes table
    ⟨.group { n with ty := e.value.ty } e.value, e.report⟩
  | .branch n condition onTrue onFalse =>
    let c := condition.resolveTypes table
    let t := onTrue.resolveTypes table
    let f := resolveTypesOpt table onFalse
    ⟨.branch { n with ty := t.value.ty } c.value t.value f.value, c.report ++ t.report ++ f.report⟩
  | .ret n value =>
    let v := value.resolveTypes table
    ⟨.ret { n with ty := v.value.ty } v.value, v.report⟩
  | .loop n condition body =>
    let c := condition.resolveTypes table
    let b := body.resolveTypes table
    ⟨.loop { n with ty := .unit } c.value b.value, c.report ++ b.report⟩
  | .brk n => ⟨.brk { n with ty := .unit }, []⟩

/-- Gives expressions that follow each other their types. -/
def resolveTypesAll (table : DeclTable) : List Expr → Typed (List Expr)
  | [] => ⟨[], []⟩
  | e :: es =>
    let first := e.resolveTypes table
    let others := resolveTypesAll table es
    ⟨first.value :: others.value, first.report ++ others.report⟩

/-- Gives an expression that may be missing its type. -/
def resolveTypesOpt (table : DeclTable) : Option Expr → Typed (Option Expr)
  | none => ⟨none, []⟩
  | some e =>
    let r := e.resolveTypes table
    ⟨some r.value, r.report⟩

end

/-- Reports the unknown type names of a header. -/
def reportHeader (returns : TypeRef) (params : List Param) : Report :=
  returns.report ++ params.flatMap (·.type.report)

/-- Gives the expressions of a function their types. -/
def Function.resolveTypes (table : DeclTable) (f : Function) : Typed Function :=
  let b := f.body.resolveTypes table
  ⟨{ f with body := b.value }, reportHeader f.returns f.params ++ b.report⟩

/-- Gives all expressions of a program their types. -/
def Program.resolveTypes (p : Program) : Program × Report :=
  let fs := p.functions.map (Function.resolveTypes p.table)
  ({ p with functions := fs.map Typed.value },
    p.externals.flatMap (fun e => reportHeader e.returns e.params) ++ fs.flatMap Typed.report)

end Ilang
