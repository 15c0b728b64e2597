import Ilang.Diagnostic
import Ilang.Program
import Ilang.Scopes
/-!
# Names

Binds every occurrence of a name to the declaration that it stands for. External and other functions
live in the global scope, so a function may be used before its text. A function has a scope for its
parameters, and every block one of its own. A variable is not visible in its own initial value.

Each declaring site gets an entry of the declaration table, a second one of the same name in a scope
too; that one is reported, and the name goes on standing for the first.
-/
namespace Ilang

/-- The names that are visible, and all declarations up to here. -/
structure Names where
  scopes : Scopes Nat := .empty
  table : DeclTable := #[]
deriving Repr

/-- A piece of a program with its names bound. -/
structure Resolved (α : Type) where
  value : α
  names : Names
  report : Report
deriving Repr

namespace Names

/-- Opens a scope. -/
def enter (s : Names) : Names := { s with scopes := s.scopes.push }

/-- Closes the innermost scope. -/
def leave (s : Names) : Names := { s with scopes := s.scopes.pop }

/-- Binds a name that declares something. -/
def declare (s : Names) (i : Ident) (kind : DeclKind) (ty : Ty) (signature : Option Signature) :
    Resolved Ident :=
  let index := s.table.size
  let table := s.table.push ⟨i.name, kind, ty, i.location, signature⟩
  let bound := { i with binding := some index }
  match s.scopes.declare i.name index with
  | (.ok (), scopes) => ⟨bound, ⟨scopes, table⟩, []⟩
  | (.error existing, scopes) =>
    let previous := table[existing]?.map Declaration.location
    ⟨bound, ⟨scopes, table⟩, [(Problem.duplicate i.name previous).located i.location]⟩

/-- Binds a name that refers to something. -/
def refer (s : Names) (i : Ident) : Resolved Ident :=
  let binding := s.scopes.lookup i.name
  ⟨{ i with binding := binding }, s,
    if binding.isNone then [(Problem.undeclared i.name).located i.location] else []⟩

end Names

mutual

/-- Binds the names in an expression. -/
def Expr.resolveNames (s : Names) : Expr → Resolved Expr
  | .literal n text constant => ⟨.literal n text constant, s, []⟩
  | .var n ident =>
    let i := s.refer ident
    ⟨.var n i.value, i.names, i.report⟩
  | .call n callee arguments =>
    let i := s.refer callee
    let args := resolveNamesAll i.names arguments
    ⟨.call n i.value args.value, args.names, i.report ++ args.report⟩
  | .block n body result =>
    let b := resolveNamesAll s.enter body
    let r := resolveNamesOpt b.names result
    ⟨.block n b.value r.value, r.names.leave, b.report ++ r.report⟩
  | .bind n ident type value =>
    let v := value.resolveNames s
    let i := v.names.declare ident .letBound type.ty none
    ⟨.bind n i.value type v.value, i.names, v.report ++ i.report⟩
  | .assign n target value =>
    let i := s.refer target
    let v := value.resolveNames i.names
    ⟨.assign n i.value v.value, v.names, i.report ++ v.report⟩
  | .binary n op left right =>
    let l := left.resolveNames s
    let r := right.resolveNames l.names
    ⟨.binary n op l.value r.value, r.names, l.report ++ r.report⟩
  | .unary n op operand =>
    let e := operand.resolveNames s
    ⟨.unary n op e.value, e.names, e.report⟩
  | .group n inner =>
    let e := inner.resolveNames s
    ⟨.group n e.value, e.names, e.report⟩
  | .branch n condition onTrue onFalse =>
    let c := condition.resolveNames s
    let t := onTrue.resolveNames c.names
    let f := resolveNamesOpt t.names onFalse
    ⟨.branch n c.value t.value f.value, f.names, c.report ++ t.report ++ f.report⟩
  | .ret n value =>
    let v := value.resolveNames s
    ⟨.ret n v.value, v.names, v.report⟩
  | .loop n condition body =>
    let c := condition.resolveNames s
    let b := body.resolveNames c.names
    ⟨.loop n c.value b.value, b.names, c.report ++ b.report⟩
  | .brk n => ⟨.brk n, s, []⟩

/-- Binds the names in expressions that follow each other. -/
def resolveNamesAll (s : Names) : List Expr → Resolved (List Expr)
  | [] => ⟨[], s, []⟩
  | e :: es =>
    let first := e.resolveNames s
    let others := resolveNamesAll first.names es
    ⟨first.value :: others.value, others.names, first.report ++ others.report⟩

/-- Binds the names in an expression that may be missing. -/
def resolveNamesOpt (s : Names) : Option Expr → Resolved (Option Expr)
  | none => ⟨none, s, []⟩
  | some e =>
    let r := e.resolveNames s
    ⟨some r.value, r.names, r.report⟩

end

/-- Binds the parts of a list one after another. -/
def resolveEach {α : Type} (resolve : Names → α → Resolved α) : Names → List α → Resolved (List α)
  | s, [] => ⟨[], s, []⟩
  | s, a :: as =>
    let first := resolve s a
    let others := resolveEach resolve first.names as
    ⟨first.value :: others.value, others.names, first.report ++ others.report⟩

/-- Declares a parameter. -/
def Param.resolveNames (s : Names) (p : Param) : Resolved Param :=
  let i := s.declare p.ident .parameter p.type.ty none
  ⟨{ p with ident := i.value }, i.names, i.report⟩

/-- The signature that parameters make. -/
def signatureOf (params : List Param) (variadic : Bool) : Signature :=
  ⟨params.map (·.type.ty), variadic⟩

/-- Declares an external function. Its parameters have a scope of their own, in which nothing else
is looked up. -/
def External.resolveNames (s : Names) (e : External) : Resolved External :=
  let i := s.declare e.ident .external e.returns.ty (some (signatureOf e.params e.variadic))
  let ps := resolveEach Param.resolveNames i.names.enter e.params
  ⟨{ e with ident := i.value, params := ps.value }, ps.names.leave, i.report ++ ps.report⟩

/-- Declares a function. -/
def Function.declareName (s : Names) (f : Function) : Resolved Function :=
  let i := s.declare f.ident .function f.returns.ty (some (signatureOf f.params false))
  ⟨{ f with ident := i.value }, i.names, i.report⟩

/-- Binds the names inside a function. -/
def Function.resolveInside (s : Names) (f : Function) : Resolved Function :=
  let ps := resolveEach Param.resolveNames s.enter f.params
  let b := f.body.resolveNames ps.names
  ⟨{ f with params := ps.value, body := b.value }, b.names.leave, ps.report ++ b.report⟩

/-- Binds all names of a program and makes its declaration table anew. -/
def Program.resolveNames (p : Program) : Program × Report :=
  let es := resolveEach External.resolveNames ({} : Names).enter p.externals
  let fs := resolveEach Function.declareName es.names p.functions
  let bs := resolveEach Function.resolveInside fs.names fs.value
  (⟨bs.value, es.value, bs.names.table⟩, es.report ++ fs.report ++ bs.report)

end Ilang
