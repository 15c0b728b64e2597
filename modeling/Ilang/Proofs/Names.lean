import Ilang.Analysis.Names
import Ilang.Proofs.Scopes
/-!
# What name resolution does to the names

Going through an expression adds names to the innermost scope and declarations to the table, and
changes nothing else (`Expr.resolveNames_grows`). So the table in the end has all declarations that
any step made, under the same indices.
-/
namespace Ilang

/-- A table has all declarations of another one under the same indices. -/
def DeclTable.Extends (table earlier : DeclTable) : Prop :=
  ∀ (i : Nat) (d : Declaration), earlier[i]? = some d → table[i]? = some d

theorem DeclTable.push_extends (table : DeclTable) (decl : Declaration) :
    DeclTable.Extends (table.push decl) table := by
  intro i d hi
  have hlt := (Array.getElem?_eq_some_iff.1 hi).1
  rw [Array.getElem?_push, if_neg (by omega)]
  exact hi

theorem DeclTable.Extends.find {table earlier : DeclTable} (h : table.Extends earlier)
    {binding : Option Nat} {d : Declaration} (hd : earlier.find binding = some d) :
    table.find binding = some d := by
  obtain ⟨i, rfl, hi⟩ := Option.bind_eq_some_iff.1 hd
  exact h i d hi

namespace Names

/-- Names were added to the innermost scope and declarations to the table. -/
structure Grows (s t : Names) : Prop where
  scopes : s.scopes.Grows t.scopes
  table : t.table.Extends s.table

theorem Grows.refl {s : Names} (h : s.scopes.chain ≠ []) : s.Grows s := ⟨.refl h, fun _ _ hi => hi⟩

theorem Grows.trans {s t u : Names} (hst : s.Grows t) (htu : t.Grows u) : s.Grows u :=
  ⟨hst.scopes.trans htu.scopes, fun i d hi => htu.table i d (hst.table i d hi)⟩

theorem declare_table (s : Names) (i : Ident) (kind : DeclKind) (ty : Ty)
    (signature : Option Signature) : (s.declare i kind ty signature).names.table =
      s.table.push ⟨i.name, kind, ty, i.location, signature⟩ := by
  unfold declare
  dsimp only
  split <;> rfl

theorem declare_value (s : Names) (i : Ident) (kind : DeclKind) (ty : Ty)
    (signature : Option Signature) :
    (s.declare i kind ty signature).value = { i with binding := some s.table.size } := by
  unfold declare
  dsimp only
  split <;> rfl

theorem declare_grows {s : Names} (h : s.scopes.chain ≠ []) (i : Ident) (kind : DeclKind) (ty : Ty)
    (signature : Option Signature) : s.Grows (s.declare i kind ty signature).names := by
  refine ⟨?_, by rw [declare_table]; exact DeclTable.push_extends _ _⟩
  unfold declare
  dsimp only
  rw [Scopes.declare_eq]
  cases s.scopes.innermost? i.name with
  | none => exact Scopes.grows_insert h _ _
  | some existing => exact .refl h

theorem enter_ne_nil (s : Names) : s.enter.scopes.chain ≠ [] := List.cons_ne_nil _ _

/-- A scope that was opened, grew and is closed again leaves the scopes as they were. -/
theorem leave_scopes {s t : Names} (h : s.enter.Grows t) : t.leave.scopes = s.scopes :=
  Scopes.pop_eq_of_push_grows h.scopes

theorem grows_leave {s t : Names} (hs : s.scopes.chain ≠ []) (h : s.enter.Grows t) :
    s.Grows t.leave :=
  ⟨by rw [leave_scopes h]; exact .refl hs, h.table⟩

end Names

theorem DeclTable.Extends.of_grows {table : DeclTable} {s s' : Names} (h : table.Extends s'.table)
    (hs : s.Grows s') : table.Extends s.table :=
  fun i d hi => h i d (hs.table i d hi)

/-- A relation between the names before and behind a step that all steps inside an expression
keep. -/
structure Names.Kept (R : Names → Names → Prop) : Prop where
  refl : ∀ s, R s s
  trans : ∀ {s t u}, R s t → R t u → R s u
  declare : ∀ s i kind ty signature, R s (s.declare i kind ty signature).names
  block : ∀ {s t}, R s.enter t → R s t.leave

section
variable {R : Names → Names → Prop} (hR : Names.Kept R)
include hR

mutual

/-- What each step keeps, an expression keeps. -/
theorem Expr.resolveNames_kept (s : Names) (e : Expr) : R s (e.resolveNames s).names := by
  cases e with
  | literal | var | brk => exact hR.refl s
  | call n callee arguments => exact resolveNamesAll_kept s arguments
  | block n body result =>
    exact hR.block (hR.trans (resolveNamesAll_kept s.enter body) (resolveNamesOpt_kept _ result))
  | bind n ident type value =>
    exact hR.trans (Expr.resolveNames_kept s value) (hR.declare _ _ _ _ _)
  | assign n target value => exact Expr.resolveNames_kept s value
  | binary n op left right =>
    exact hR.trans (Expr.resolveNames_kept s left) (Expr.resolveNames_kept _ right)
  | unary n op operand => exact Expr.resolveNames_kept s operand
  | group n inner => exact Expr.resolveNames_kept s inner
  | branch n condition onTrue onFalse =>
    have ht := hR.trans (Expr.resolveNames_kept s condition) (Expr.resolveNames_kept _ onTrue)
    exact hR.trans ht (resolveNamesOpt_kept _ onFalse)
  | ret n value => exact Expr.resolveNames_kept s value
  | loop n condition body =>
    exact hR.trans (Expr.resolveNames_kept s condition) (Expr.resolveNames_kept _ body)

theorem resolveNamesAll_kept (s : Names) (es : List Expr) : R s (resolveNamesAll s es).names := by
  cases es with
  | nil => exact hR.refl s
  | cons e es => exact hR.trans (Expr.resolveNames_kept s e) (resolveNamesAll_kept _ es)

theorem resolveNamesOpt_kept (s : Names) (e : Option Expr) : R s (resolveNamesOpt s e).names := by
  cases e with
  | none => exact hR.refl s
  | some e => exact Expr.resolveNames_kept s e

end

end

theorem Names.grows_kept : Names.Kept fun s t => s.scopes.chain ≠ [] → s.Grows t where
  refl _ h := .refl h
  trans hst htu h := (hst h).trans (htu (hst h).scopes.ne_nil)
  declare _ i kind ty signature h := declare_grows h i kind ty signature
  block hst h := grows_leave h (hst (enter_ne_nil _))

/-- An expression adds to the innermost scope and to the table. -/
theorem Expr.resolveNames_grows {s : Names} (h : s.scopes.chain ≠ []) (e : Expr) :
    s.Grows (e.resolveNames s).names :=
  Expr.resolveNames_kept Names.grows_kept s e h

theorem resolveNamesAll_grows {s : Names} (h : s.scopes.chain ≠ []) (es : List Expr) :
    s.Grows (resolveNamesAll s es).names :=
  resolveNamesAll_kept Names.grows_kept s es h

theorem resolveNamesOpt_grows {s : Names} (h : s.scopes.chain ≠ []) (e : Option Expr) :
    s.Grows (resolveNamesOpt s e).names :=
  resolveNamesOpt_kept Names.grows_kept s e h

/-- What each part of a list adds, the list adds. -/
theorem resolveEach_grows {α : Type} {resolve : Names → α → Resolved α}
    (hr : ∀ {s : Names}, s.scopes.chain ≠ [] → ∀ a, s.Grows (resolve s a).names)
    {s : Names} (h : s.scopes.chain ≠ []) (as : List α) : s.Grows (resolveEach resolve s as).names := by
  induction as generalizing s with
  | nil => exact .refl h
  | cons a as ih =>
    have ha := hr h a
    exact ha.trans (ih ha.scopes.ne_nil)

theorem Param.resolveNames_grows {s : Names} (h : s.scopes.chain ≠ []) (p : Param) :
    s.Grows (p.resolveNames s).names :=
  Names.declare_grows h _ _ _ _

theorem External.resolveNames_grows {s : Names} (h : s.scopes.chain ≠ []) (e : External) :
    s.Grows (e.resolveNames s).names := by
  have hi := Names.declare_grows h e.ident .external e.returns.ty
    (some (signatureOf e.params e.variadic))
  exact hi.trans (Names.grows_leave hi.scopes.ne_nil
    (resolveEach_grows Param.resolveNames_grows (Names.enter_ne_nil _) _))

theorem Function.declareName_grows {s : Names} (h : s.scopes.chain ≠ []) (f : Function) :
    s.Grows (f.declareName s).names :=
  Names.declare_grows h _ _ _ _

theorem Function.resolveInside_grows {s : Names} (h : s.scopes.chain ≠ []) (f : Function) :
    s.Grows (f.resolveInside s).names := by
  have hps := resolveEach_grows Param.resolveNames_grows s.enter_ne_nil f.params
  exact Names.grows_leave h (hps.trans (Expr.resolveNames_grows hps.scopes.ne_nil f.body))

/-- A function leaves the scopes around it as they were. -/
theorem Function.resolveInside_scopes (s : Names) (f : Function) :
    (f.resolveInside s).names.scopes = s.scopes := by
  have hps := resolveEach_grows Param.resolveNames_grows s.enter_ne_nil f.params
  exact Names.leave_scopes (hps.trans (Expr.resolveNames_grows hps.scopes.ne_nil f.body))

/-! ## Programs -/

namespace Program

/-- The external functions with their names declared. -/
def externalNames (p : Program) : Resolved (List External) :=
  resolveEach External.resolveNames ({} : Names).enter p.externals

/-- The functions with their names declared. -/
def functionNames (p : Program) : Resolved (List Function) :=
  resolveEach Function.declareName p.externalNames.names p.functions

/-- The functions with all their names bound. -/
def insideNames (p : Program) : Resolved (List Function) :=
  resolveEach Function.resolveInside p.functionNames.names p.functionNames.value

/-- The table of all declarations. -/
def declarations (p : Program) : DeclTable := p.insideNames.names.table

theorem externalNames_opened (p : Program) : p.externalNames.names.scopes.chain ≠ [] :=
  (resolveEach_grows External.resolveNames_grows (Names.enter_ne_nil _) _).scopes.ne_nil

theorem functionNames_opened (p : Program) : p.functionNames.names.scopes.chain ≠ [] :=
  (resolveEach_grows Function.declareName_grows p.externalNames_opened _).scopes.ne_nil

theorem declarations_extends_functionNames (p : Program) :
    p.declarations.Extends p.functionNames.names.table :=
  (resolveEach_grows Function.resolveInside_grows p.functionNames_opened _).table

theorem declarations_extends_externalNames (p : Program) :
    p.declarations.Extends p.externalNames.names.table :=
  p.declarations_extends_functionNames.of_grows
    (resolveEach_grows Function.declareName_grows p.externalNames_opened _)

end Program

end Ilang
