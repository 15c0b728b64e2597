import Ilang.Proofs.Reading
import Ilang.Proofs.Typing
import Ilang.Proofs.Visibility
/-!
# What passes

`Expr.Passes` says that none of the passes reports anything in an expression, and which type the
expression gets. For each construct a lemma says when it passes, in terms of its parts. What a name
stands for is told by an environment that describes the open scopes (`Env.Describes`).
-/
namespace Ilang

/-! ## Single rules -/

theorem Names.declare_report_iff (s : Names) (i : Ident) (kind : DeclKind) (ty : Ty)
    (signature : Option Signature) :
    (s.declare i kind ty signature).report = [] ↔ s.scopes.innermost? i.name = none := by
  refine ⟨fun h => (Names.declare_of_clean h).1, fun h => ?_⟩
  simp [Names.declare, Scopes.declare_eq, h]

theorem Ty.isDefined_of_ofName? {name : String} {t : Ty} (h : Ty.ofName? name = some t) :
    t.isDefined := by
  unfold Ty.ofName? at h
  split at h <;> cases h <;> rfl

theorem TypeRef.report_iff {t : TypeRef} (h : t.AsRead) :
    t.report = [] ↔ (Ty.ofName? t.name).isSome := by
  unfold TypeRef.AsRead Ty.ofName at h
  cases ht : Ty.ofName? t.name with
  | none => simp [TypeRef.report, h, ht, Ty.isDefined]
  | some ty => simp [TypeRef.report, h, ht, Ty.isDefined_of_ofName? ht]

theorem Signature.checkArguments_iff (s : Signature) (name : String) (location : Location)
    (position : Nat) (arguments : List Expr) :
    DeclTable.checkArguments name location s.variadic position arguments s.params = [] ↔
      s.Accepts (arguments.map Expr.ty) := by
  obtain ⟨params, variadic⟩ := s
  unfold Signature.Accepts
  dsimp only
  induction arguments generalizing position params with
  | nil => cases params <;> simp [DeclTable.checkArguments, DeclTable.missingArguments]
  | cons a as ih =>
    cases params with
    | nil => cases variadic <;> simp [DeclTable.checkArguments, ih]
    | cons t ts =>
      cases variadic with
      | false => simp [DeclTable.checkArguments, ih]
      | true => simp [DeclTable.checkArguments, ih, @eq_comm _ t]

theorem Signature.admits_of_accepts {s : Signature} {ts : List Ty} (h : s.Accepts ts) :
    s.admits ts.length := by
  unfold Signature.Accepts at h
  unfold Signature.admits
  split at h
  · simpa [*] using h.length_le
  · simp [*]

/-! ## The passes over one construct -/

/-- No pass reports an expression, and it gets the type `t`. -/
@[mk_iff]
structure Expr.Passes (table : DeclTable) (returns : Ty) (depth : Nat) (s : Names) (e : Expr)
    (t : Ty) : Prop where
  names : (e.resolveNames s).report = []
  types : ((e.resolveNames s).value.resolveTypes table).report = []
  checks : ((e.resolveNames s).value.resolveTypes table).value.check table returns depth = []
  ty : ((e.resolveNames s).value.resolveTypes table).value.ty = t

/-- No pass reports expressions that follow each other, and they get the types `ts`. -/
@[mk_iff]
structure PassAll (table : DeclTable) (returns : Ty) (depth : Nat) (s : Names) (es : List Expr)
    (ts : List Ty) : Prop where
  names : (resolveNamesAll s es).report = []
  types : (resolveTypesAll table (resolveNamesAll s es).value).report = []
  checks :
    checkAll table returns depth (resolveTypesAll table (resolveNamesAll s es).value).value = []
  ty : (resolveTypesAll table (resolveNamesAll s es).value).value.map Expr.ty = ts

section
variable {table : DeclTable} {returns : Ty} {depth : Nat} {s : Names} {t : Ty} {n : Node}

theorem passAll_nil {ts : List Ty} : PassAll table returns depth s [] ts ↔ ts = [] := by
  simp [passAll_iff, resolveNamesAll, resolveTypesAll, checkAll, eq_comm]

theorem passAll_cons {e : Expr} {es : List Expr} {us : List Ty} :
    PassAll table returns depth s (e :: es) us ↔ ∃ t ts, us = t :: ts ∧
      e.Passes table returns depth s t ∧
      PassAll table returns depth (e.resolveNames s).names es ts := by
  simp only [passAll_iff, Expr.passes_iff, resolveNamesAll, resolveTypesAll, checkAll,
    List.append_eq_nil_iff, List.map_cons]
  grind

theorem passes_literal {text : String} {constant : Option String} :
    (Expr.literal n text constant).Passes table returns depth s t ↔
      Literal.type? text = some t := by
  cases h : Literal.type? text with
  | none => simp [Expr.passes_iff, Expr.resolveNames, Expr.resolveTypes, h]
  | some u =>
    simp [Expr.passes_iff, Expr.resolveNames, Expr.resolveTypes, Expr.check, h, Expr.ty, Expr.node]

theorem passes_block {body : List Expr} :
    (Expr.block n body none).Passes table returns depth s t ↔
      (∃ ts, PassAll table returns depth s.enter body ts) ∧ t = .unit := by
  simp only [Expr.passes_iff, passAll_iff, Expr.resolveNames, Expr.resolveTypes, Expr.check,
    resolveNamesOpt, resolveTypesOpt, checkOpt]
  simp only [Expr.ty, Expr.node, List.append_eq_nil_iff]
  grind

theorem passes_blockResult {body : List Expr} {e : Expr} :
    (Expr.block n body (some e)).Passes table returns depth s t ↔
      (∃ ts, PassAll table returns depth s.enter body ts) ∧
        e.Passes table returns depth (resolveNamesAll s.enter body).names t := by
  simp only [Expr.passes_iff, passAll_iff, Expr.resolveNames, Expr.resolveTypes, Expr.check,
    resolveNamesOpt, resolveTypesOpt, checkOpt, Option.map_some, Option.getD_some]
  simp only [Expr.ty, Expr.node, List.append_eq_nil_iff]
  grind

theorem passes_bind {ident : Ident} {type : TypeRef} {value : Expr} (h : type.AsRead) :
    (Expr.bind n ident type value).Passes table returns depth s t ↔
      Ty.ofName? type.name = some t ∧ value.Passes table returns depth s t ∧
        (value.resolveNames s).names.scopes.innermost? ident.name = none := by
  have hty : type.ty = (Ty.ofName? type.name).getD .undefined := h
  simp only [Expr.passes_iff, Expr.resolveNames, Expr.resolveTypes, Expr.check,
    List.append_eq_nil_iff, Names.declare_report_iff, TypeRef.report_iff h, hty]
  simp only [Expr.ty, Expr.node]
  cases Ty.ofName? type.name <;> grind

theorem passes_binary {op : BinaryOp} {left right : Expr} :
    (Expr.binary n op left right).Passes table returns depth s t ↔
      left.Passes table returns depth s t ∧
        right.Passes table returns depth (left.resolveNames s).names t ∧ op.appliesTo t := by
  simp only [Expr.passes_iff, Expr.resolveNames, Expr.resolveTypes, Expr.check]
  simp only [Expr.ty, Expr.node, List.append_eq_nil_iff]
  grind

theorem passes_unary {op : UnaryOp} {operand : Expr} :
    (Expr.unary n op operand).Passes table returns depth s t ↔
      operand.Passes table returns depth s t ∧ op.appliesTo t := by
  simp only [Expr.passes_iff, Expr.resolveNames, Expr.resolveTypes, Expr.check]
  simp only [Expr.ty, Expr.node, List.append_eq_nil_iff]
  grind

theorem passes_group {inner : Expr} :
    (Expr.group n inner).Passes table returns depth s t ↔ inner.Passes table returns depth s t := by
  simp only [Expr.passes_iff, Expr.resolveNames, Expr.resolveTypes, Expr.check]
  simp [Expr.ty, Expr.node]

theorem passes_branch {condition onTrue : Expr} :
    (Expr.branch n condition onTrue none).Passes table returns depth s t ↔
      condition.Passes table returns depth s .bool ∧
        onTrue.Passes table returns depth (condition.resolveNames s).names t := by
  simp only [Expr.passes_iff, Expr.resolveNames, Expr.resolveTypes, Expr.check, checkCondition,
    resolveNamesOpt, resolveTypesOpt, checkOpt]
  simp only [Expr.ty, Expr.node, List.append_eq_nil_iff]
  grind

theorem passes_branchElse {condition onTrue onFalse : Expr} :
    (Expr.branch n condition onTrue (some onFalse)).Passes table returns depth s t ↔
      condition.Passes table returns depth s .bool ∧
        onTrue.Passes table returns depth (condition.resolveNames s).names t ∧
        onFalse.Passes table returns depth
          (onTrue.resolveNames (condition.resolveNames s).names).names t := by
  simp only [Expr.passes_iff, Expr.resolveNames, Expr.resolveTypes, Expr.check, checkCondition,
    resolveNamesOpt, resolveTypesOpt, checkOpt]
  simp only [Expr.ty, Expr.node, List.append_eq_nil_iff]
  grind

theorem passes_ret {value : Expr} :
    (Expr.ret n value).Passes table returns depth s t ↔
      value.Passes table returns depth s returns ∧ t = returns := by
  simp only [Expr.passes_iff, Expr.resolveNames, Expr.resolveTypes, Expr.check]
  simp only [Expr.ty, Expr.node, List.append_eq_nil_iff]
  grind

theorem passes_loop {condition body : Expr} :
    (Expr.loop n condition body).Passes table returns depth s t ↔
      condition.Passes table returns depth s .bool ∧
        (∃ u, body.Passes table returns (depth + 1) (condition.resolveNames s).names u) ∧
        t = .unit := by
  simp only [Expr.passes_iff, Expr.resolveNames, Expr.resolveTypes, Expr.check, checkCondition]
  simp only [Expr.ty, Expr.node, List.append_eq_nil_iff]
  grind

theorem passes_brk :
    (Expr.brk n).Passes table returns depth s t ↔ depth ≠ 0 ∧ t = .unit := by
  simp only [Expr.passes_iff, Expr.resolveNames, Expr.resolveTypes, Expr.check]
  simp only [Expr.ty, Expr.node]
  grind

end

/-! ## Names -/

/-- What a declaration makes of its name. -/
def Declaration.Means (d : Declaration) : Meaning → Prop
  | .value t => d.isCallable = false ∧ d.signature = none ∧ d.ty = t
  | .callable signature t => d.isCallable = true ∧ d.signature = some signature ∧ d.ty = t

/-- An environment tells what the names in open scopes stand for. -/
structure Env.Describes (Γ : Env) (table : DeclTable) (s : Names) : Prop where
  opened : s.scopes.chain ≠ []
  visible : ∀ x, Option.Rel (fun m k => ∃ d, table[k]? = some d ∧ d.Means m) (Γ x)
    (s.scopes.lookup x)

/-- A name either stands for nothing and is reported, or is bound to a declaration of its
meaning. -/
theorem Env.Describes.refer {Γ : Env} {table : DeclTable} {s : Names} (h : Γ.Describes table s)
    (i : Ident) :
    (Γ i.name = none ∧ (s.refer i).report ≠ []) ∨
      ∃ m d, Γ i.name = some m ∧ (s.refer i).report = [] ∧
        table.find (s.refer i).value.binding = some d ∧ d.Means m := by
  have hx := h.visible i.name
  unfold Names.refer DeclTable.find
  dsimp only
  revert hx
  generalize Γ i.name = a
  generalize s.scopes.lookup i.name = b
  rintro (⟨d, hd, hm⟩ | _)
  · exact .inr ⟨_, d, rfl, rfl, hd, hm⟩
  · exact .inl ⟨rfl, by simp⟩

section
variable {table : DeclTable} {returns : Ty} {depth : Nat} {s : Names} {t : Ty} {n : Node} {Γ : Env}
  (h : Γ.Describes table s)
include h

theorem passes_var {ident : Ident} :
    (Expr.var n ident).Passes table returns depth s t ↔ Γ ident.name = some (.value t) := by
  simp only [Expr.passes_iff, Expr.resolveNames, Expr.resolveTypes, Expr.check,
    DeclTable.checkValue, DeclTable.reportUntyped, DeclTable.typeOf, DeclTable.typeOf?]
  simp only [Expr.ty, Expr.node]
  obtain ⟨hΓ, hr⟩ | ⟨m, d, hΓ, hr, hd, hm⟩ := h.refer ident
  · simp [hΓ, hr]
  · cases m <;> simp [hΓ, hr, hd, hm.1, hm.2.2]

theorem passes_assign {target : Ident} {value : Expr} :
    (Expr.assign n target value).Passes table returns depth s t ↔
      Γ target.name = some (.value t) ∧ value.Passes table returns depth s t := by
  have hs : (s.refer target).names = s := rfl
  simp only [Expr.passes_iff, Expr.resolveNames, Expr.resolveTypes, Expr.check, hs,
    DeclTable.checkValue, DeclTable.typeOf, DeclTable.typeOf?]
  simp only [Expr.ty, Expr.node]
  obtain ⟨hΓ, hr⟩ | ⟨m, d, hΓ, hr, hd, hm⟩ := h.refer target
  · simp [hΓ, hr]
  · cases m with
    | value u =>
      simp only [hΓ, hr, hd, hm.1, hm.2.2, List.append_eq_nil_iff, Option.map_some,
        Option.getD_some]
      grind
    | callable => simp [hΓ, hr, hd, hm.1]

theorem passes_call {callee : Ident} {arguments : List Expr} :
    (Expr.call n callee arguments).Passes table returns depth s t ↔
      ∃ signature ts, Γ callee.name = some (.callable signature t) ∧
        PassAll table returns depth s arguments ts ∧ signature.Accepts ts := by
  have hs : (s.refer callee).names = s := rfl
  simp only [Expr.passes_iff, passAll_iff, Expr.resolveNames, Expr.resolveTypes, Expr.check, hs,
    DeclTable.checkCall, DeclTable.reportUntyped, DeclTable.typeOf, DeclTable.typeOf?]
  obtain ⟨hΓ, hr⟩ | ⟨m, d, hΓ, hr, hd, hm⟩ := h.refer callee
  · simp [hΓ, hr]
  · cases m with
    | value => simp [hΓ, hr, hd, hm.2.1]
    | callable signature u =>
      simp only [hΓ, hr, hd, hm.2.1, hm.2.2, Signature.checkArguments_iff, List.append_eq_nil_iff,
        Option.map_some, Option.getD_some, Option.isSome_some, Expr.ty, Expr.node]
      constructor
      · rintro ⟨⟨-, hn⟩, ⟨ht, -⟩, ⟨hc, -, ha⟩, rfl⟩
        exact ⟨signature, _, rfl, ⟨hn, ht, hc, rfl⟩, ha⟩
      · rintro ⟨_, _, ⟨⟩, ⟨hn, ht, hc, rfl⟩, ha⟩
        have hlength := Signature.admits_of_accepts ha
        rw [List.length_map] at hlength
        exact ⟨⟨trivial, hn⟩, ⟨ht, rfl⟩, ⟨hc, if_pos hlength, ha⟩, rfl⟩

end

end Ilang
