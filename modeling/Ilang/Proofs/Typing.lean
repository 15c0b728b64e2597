import Ilang.Literal
import Ilang.Program
import Mathlib.Logic.Function.Basic
/-!
# The type system

The rules by which programs are well typed, over names and types alone. An environment says what the
visible names stand for: variables have a type, functions a signature and the type of their result.
`HasType` gives an expression its type; `Proceeds` and `ProceedsAll` go through the statements of a
block, where each `let` makes a new environment for what follows it. No scope may declare a name
twice: neither the program its functions, nor a function its parameters, nor a block its variables.
-/
namespace Ilang

/-- What a name stands for. -/
inductive Meaning where
  | value (ty : Ty)
  | callable (signature : Signature) (returns : Ty)
deriving DecidableEq, Repr

/-- What the visible names stand for. -/
abbrev Env := String → Option Meaning

/-- An environment with new names, of which later ones hide earlier ones. -/
def Env.extend (Γ : Env) (names : List (String × Meaning)) : Env :=
  names.foldl (fun Γ x => Function.update Γ x.1 (some x.2)) Γ

/-- The types of arguments that a function takes: those of its parameters and, if it is variadic,
any behind these. -/
def Signature.Accepts (s : Signature) (ts : List Ty) : Prop :=
  if s.variadic then s.params <+: ts else ts = s.params

/-- The names that an expression declares as a statement of a block. -/
def Expr.declared : Expr → List String
  | .bind _ ident _ _ => [ident.name]
  | _ => []

/-! ## Expressions -/

mutual

/-- The type of an expression in a function that returns `returns`, inside a loop of it or not. -/
inductive HasType (returns : Ty) : (inLoop : Bool) → Env → Expr → Ty → Prop
  | literal {l Γ n text constant t} (h : Literal.type? text = some t) :
    HasType returns l Γ (.literal n text constant) t
  | var {l Γ n ident t} (h : Γ ident.name = some (.value t)) : HasType returns l Γ (.var n ident) t
  | call {l Γ n callee arguments signature ts t}
      (h : Γ callee.name = some (.callable signature t)) (ha : HaveTypes returns l Γ arguments ts)
      (hts : signature.Accepts ts) : HasType returns l Γ (.call n callee arguments) t
  | block {l Γ Γ' n body} (hd : (body.flatMap Expr.declared).Nodup)
      (hb : ProceedsAll returns l Γ body Γ') : HasType returns l Γ (.block n body none) .unit
  | blockResult {l Γ Γ' Γ'' n body e t} (hd : ((body ++ [e]).flatMap Expr.declared).Nodup)
      (hb : ProceedsAll returns l Γ body Γ') (he : Proceeds returns l Γ' e t Γ'') :
    HasType returns l Γ (.block n body (some e)) t
  | assign {l Γ n target value t} (h : Γ target.name = some (.value t))
      (hv : HasType returns l Γ value t) : HasType returns l Γ (.assign n target value) t
  | binary {l Γ n op left right t} (hl : HasType returns l Γ left t)
      (hr : HasType returns l Γ right t) (ho : op.appliesTo t) :
    HasType returns l Γ (.binary n op left right) t
  | unary {l Γ n op operand t} (he : HasType returns l Γ operand t) (ho : op.appliesTo t) :
    HasType returns l Γ (.unary n op operand) t
  | group {l Γ n inner t} (he : HasType returns l Γ inner t) : HasType returns l Γ (.group n inner) t
  | branch {l Γ n condition onTrue t} (hc : HasType returns l Γ condition .bool)
      (ht : HasType returns l Γ onTrue t) : HasType returns l Γ (.branch n condition onTrue none) t
  | branchElse {l Γ n condition onTrue onFalse t} (hc : HasType returns l Γ condition .bool)
      (ht : HasType returns l Γ onTrue t) (hf : HasType returns l Γ onFalse t) :
    HasType returns l Γ (.branch n condition onTrue (some onFalse)) t
  | ret {l Γ n value} (hv : HasType returns l Γ value returns) :
    HasType returns l Γ (.ret n value) returns
  | loop {l Γ n condition body t} (hc : HasType returns l Γ condition .bool)
      (hb : HasType returns true Γ body t) : HasType returns l Γ (.loop n condition body) .unit
  | brk {Γ n} : HasType returns true Γ (.brk n) .unit

/-- The types of expressions that do not see each other. -/
inductive HaveTypes (returns : Ty) : (inLoop : Bool) → Env → List Expr → List Ty → Prop
  | nil {l Γ} : HaveTypes returns l Γ [] []
  | cons {l Γ e es t ts} (he : HasType returns l Γ e t) (hes : HaveTypes returns l Γ es ts) :
    HaveTypes returns l Γ (e :: es) (t :: ts)

/-- The type of a statement of a block, and the environment behind it. A variable is not visible in
its own initial value. -/
inductive Proceeds (returns : Ty) : (inLoop : Bool) → Env → Expr → Ty → Env → Prop
  | value {l Γ e t} (h : HasType returns l Γ e t) : Proceeds returns l Γ e t Γ
  | bind {l Γ n ident type value t} (ht : Ty.ofName? type.name = some t)
      (hv : HasType returns l Γ value t) :
    Proceeds returns l Γ (.bind n ident type value) t
      (Function.update Γ ident.name (some (.value t)))

/-- Statements that follow each other have types. -/
inductive ProceedsAll (returns : Ty) : (inLoop : Bool) → Env → List Expr → Env → Prop
  | nil {l Γ} : ProceedsAll returns l Γ [] Γ
  | cons {l Γ Γ' Γ'' e es t} (he : Proceeds returns l Γ e t Γ')
      (hes : ProceedsAll returns l Γ' es Γ'') : ProceedsAll returns l Γ (e :: es) Γ''

end

/-! ## Programs -/

/-- The types of a header have known names, and its parameters different ones. -/
structure WellFormedHeader (returns : TypeRef) (params : List Param) : Prop where
  known : ∀ type ∈ returns :: params.map Param.type, (Ty.ofName? type.name).isSome
  distinct : (params.map (·.ident.name)).Nodup

/-- A parameter with its meaning. -/
def Param.entry (p : Param) : String × Meaning := (p.ident.name, .value (Ty.ofName p.type.name))

/-- The meaning that a header gives to the name of its function. -/
def headerMeaning (returns : TypeRef) (params : List Param) (variadic : Bool) : Meaning :=
  .callable ⟨params.map fun p => Ty.ofName p.type.name, variadic⟩ (Ty.ofName returns.name)

/-- An external function with its meaning. -/
def External.entry (e : External) : String × Meaning :=
  (e.ident.name, headerMeaning e.returns e.params e.variadic)

/-- A function with its meaning. -/
def Function.entry (f : Function) : String × Meaning :=
  (f.ident.name, headerMeaning f.returns f.params false)

/-- The functions of a program, external ones included, with their meanings. -/
def Program.entries (p : Program) : List (String × Meaning) :=
  p.externals.map External.entry ++ p.functions.map Function.entry

/-- A function is well typed where the other functions are visible: its body has the type that it
returns, and sees its parameters. -/
structure Function.WellTyped (Γ : Env) (f : Function) : Prop where
  header : WellFormedHeader f.returns f.params
  body : HasType (Ty.ofName f.returns.name) false (Γ.extend (f.params.map Param.entry)) f.body
    (Ty.ofName f.returns.name)

/-- A program is well typed. -/
structure Program.WellTyped (p : Program) : Prop where
  distinct : (p.entries.map Prod.fst).Nodup
  externals : ∀ e ∈ p.externals, WellFormedHeader e.returns e.params
  functions : ∀ f ∈ p.functions, f.WellTyped (Env.extend (fun _ => none) p.entries)

end Ilang
