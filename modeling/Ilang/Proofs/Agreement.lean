import Ilang.Proofs.Passing
import Ilang.Proofs.Trees
/-!
# The passes and the type system agree on expressions

The passes work with a table of declarations and numbers of its entries, the rules with names. Both
go through the same statements, so that an environment describes the open scopes all the way
(`Env.Shows`). The passes let an expression through with a type if and only if the rules give it
that type (`Expr.Agrees`). For each construct this holds if it holds for the parts, so it holds for
all expressions (`Expr.StatementRead.agrees`).
-/
namespace Ilang

/-! ## Values leave the scopes alone -/

/-- What is neither a block nor a `let` goes through its parts in one scope. -/
theorem Expr.resolveNames_children {e : Expr} (hblock : e.isBlock = false)
    (hbind : e.isBind = false) (s : Names) :
    (e.resolveNames s).names = (resolveNamesAll s e.children).names := by
  cases e with
  | block => cases hblock
  | bind => cases hbind
  | branch n condition onTrue onFalse => cases onFalse <;> rfl
  | _ => rfl

theorem resolveNamesAll_scopes {es : List Expr}
    (h : ∀ e ∈ es, ∀ {s : Names}, s.scopes.chain ≠ [] → (e.resolveNames s).names.scopes = s.scopes)
    {s : Names} (hs : s.scopes.chain ≠ []) : (resolveNamesAll s es).names.scopes = s.scopes := by
  induction es generalizing s with
  | nil => rfl
  | cons e es ih =>
    have he := h e List.mem_cons_self hs
    have hes := ih (fun d hd => h d (List.mem_cons_of_mem _ hd)) (he ▸ hs)
    exact hes.trans he

theorem Expr.ValueRead.resolveNames_scopes {e : Expr} (h : e.ValueRead) {s : Names}
    (hs : s.scopes.chain ≠ []) : (e.resolveNames s).names.scopes = s.scopes := by
  induction e using Expr.induction_children generalizing s with
  | _ e ih =>
    cases hblock : e.isBlock with
    | true =>
      obtain ⟨n, body, result, rfl⟩ : ∃ n body result, e = .block n body result := by
        cases e <;> simp_all [Expr.isBlock]
      have hb := resolveNamesAll_grows s.enter_ne_nil body
      exact Names.leave_scopes (hb.trans (resolveNamesOpt_grows hb.scopes.ne_nil result))
    | false =>
      rw [Expr.resolveNames_children hblock h.notBind]
      refine resolveNamesAll_scopes (fun c hc s hs => ih c hc ?_ hs) hs
      exact Expr.StatementRead.child h.everywhere (by rintro _ _ _ rfl; cases hblock) c hc

/-! ## Environments and scopes -/

section
variable {Γ : Env} {table : DeclTable} {s : Names}

theorem Env.Describes.congr (h : Γ.Describes table s) {s' : Names} (hs : s'.scopes = s.scopes) :
    Γ.Describes table s' := by
  obtain ⟨hopen, hvisible⟩ := h
  rw [← hs] at hopen hvisible
  exact ⟨hopen, hvisible⟩

/-- The same names are visible behind a value. -/
theorem Env.Describes.after (h : Γ.Describes table s) {e : Expr} (he : e.ValueRead) :
    Γ.Describes table (e.resolveNames s).names :=
  h.congr (he.resolveNames_scopes h.opened)

/-- An environment tells what the names in open scopes stand for, and `declared` are the names of
the innermost one. -/
structure Env.Shows (Γ : Env) (table : DeclTable) (s : Names) (declared : List String) : Prop
    extends Γ.Describes table s where
  inner : ∀ x, s.scopes.innermost? x = none ↔ x ∉ declared
  distinct : declared.Nodup

theorem Env.Describes.enter (h : Γ.Describes table s) : Γ.Shows table s.enter [] where
  opened := s.enter_ne_nil
  visible x := by
    rw [Names.enter, Scopes.lookup_push]
    exact h.visible x
  inner x := by simp [Names.enter, Scopes.push, Scopes.innermost?]
  distinct := .nil

theorem Env.Shows.congr {declared : List String} (h : Γ.Shows table s declared) {s' : Names}
    (hs : s'.scopes = s.scopes) : Γ.Shows table s' declared :=
  ⟨h.toDescribes.congr hs, by rw [hs]; exact h.inner, h.distinct⟩

/-- A name that is new in its scope gets the meaning of its declaration. -/
theorem Env.Shows.declare {declared : List String} (h : Γ.Shows table s declared) {i : Ident}
    (hnew : i.name ∉ declared) {kind : DeclKind} {ty : Ty} {signature : Option Signature}
    (htable : table.Extends (s.declare i kind ty signature).names.table) {m : Meaning}
    (hm : Declaration.Means ⟨i.name, kind, ty, i.location, signature⟩ m) :
    Env.Shows (Function.update Γ i.name (some m)) table (s.declare i kind ty signature).names
      (declared ++ [i.name]) := by
  obtain ⟨-, hs⟩ := Names.declare_of_clean
    ((Names.declare_report_iff s i kind ty signature).2 ((h.inner _).2 hnew))
  refine ⟨⟨(Names.declare_grows h.opened i kind ty signature).scopes.ne_nil, ?_⟩, ?_, ?_⟩
  · intro x
    rw [hs, Scopes.lookup_insert, Function.update_apply]
    split
    · refine .some ⟨_, htable _ _ ?_, hm⟩
      rw [Names.declare_table, Array.getElem?_push_size]
    · exact h.visible x
  · intro x
    rw [hs, Scopes.innermost?_insert]
    have := h.inner x
    grind
  · have := h.distinct
    grind

end

/-! ## Statements -/

/-- The part of a statement that is computed: the initial value of a `let`, else all of it. -/
def Expr.computed : Expr → Expr
  | .bind _ _ _ value => value
  | e => e

theorem Expr.computed_of_notBind {e : Expr} (h : e.isBind = false) : e.computed = e := by
  cases e <;> first | rfl | cases h

theorem Expr.declared_of_notBind {e : Expr} (h : e.isBind = false) : e.declared = [] := by
  cases e <;> first | rfl | cases h

theorem HasType.notBind {returns t : Ty} {inLoop : Bool} {Γ : Env} {e : Expr}
    (h : HasType returns inLoop Γ e t) : e.isBind = false := by
  cases h <;> rfl

/-- The passes and the rules agree on the types that an expression can have. -/
def Expr.Agrees (table : DeclTable) (returns : Ty) (e : Expr) : Prop :=
  ∀ ⦃depth : Nat⦄ ⦃inLoop : Bool⦄ ⦃s : Names⦄ ⦃Γ : Env⦄ ⦃t : Ty⦄, (inLoop = true ↔ depth ≠ 0) →
    Γ.Describes table s → table.Extends (e.resolveNames s).names.table →
    (e.Passes table returns depth s t ↔ HasType returns inLoop Γ e t)

section
variable {table : DeclTable} {returns : Ty} {depth : Nat} {inLoop : Bool} {s : Names} {Γ : Env}
  {t : Ty} {declared : List String}

/-- A well-typed statement leaves the names that its rule says. -/
theorem Env.Shows.proceed (h : Γ.Shows table s declared) {e : Expr} (hread : e.StatementRead)
    {Γ' : Env} (he : Proceeds returns inLoop Γ e t Γ') (hnew : (declared ++ e.declared).Nodup)
    (htable : table.Extends (e.resolveNames s).names.table) :
    Γ'.Shows table (e.resolveNames s).names (declared ++ e.declared) := by
  cases he with
  | value he =>
    have hv : e.ValueRead := ⟨he.notBind, hread⟩
    rw [Expr.declared_of_notBind he.notBind, List.append_nil]
    exact h.congr (hv.resolveNames_scopes h.opened)
  | @bind _ _ n ident type value _ ht hv =>
    have hvalue : value.ValueRead := hread.child (by simp) value (by simp [Expr.children])
    have hty : type.ty = t := by
      have := (Expr.everywhere_iff.1 hread).1.1
      rw [this, Ty.ofName, ht, Option.getD_some]
    refine (h.congr (hvalue.resolveNames_scopes h.opened)).declare ?_ htable ⟨rfl, rfl, hty⟩
    simp only [Expr.declared] at hnew
    grind

/-- What the passes and the rules say about a statement. -/
theorem Expr.passes_iff_proceeds {e : Expr} (hread : e.StatementRead)
    (he : e.computed.Agrees table returns) (hdepth : inLoop = true ↔ depth ≠ 0)
    (h : Γ.Shows table s declared) (htable : table.Extends (e.resolveNames s).names.table) :
    e.Passes table returns depth s t ↔
      (∃ Γ', Proceeds returns inLoop Γ e t Γ') ∧ (declared ++ e.declared).Nodup := by
  cases hb : e.isBind with
  | false =>
    rw [Expr.computed_of_notBind hb] at he
    rw [Expr.declared_of_notBind hb, List.append_nil, he hdepth h.toDescribes htable]
    constructor
    · exact fun ht => ⟨⟨Γ, .value ht⟩, h.distinct⟩
    · rintro ⟨⟨Γ', ht | _⟩, -⟩
      · assumption
      · cases hb
  | true =>
    obtain ⟨n, ident, type, value, rfl⟩ : ∃ n ident type value, e = .bind n ident type value := by
      cases e <;> simp_all [Expr.isBind]
    have hvalue : value.ValueRead := hread.child (by simp) value (by simp [Expr.children])
    have he : value.Agrees table returns := he
    have hgrows := Expr.resolveNames_grows h.opened value
    have hvtable : table.Extends (value.resolveNames s).names.table :=
      htable.of_grows (Names.declare_grows hgrows.scopes.ne_nil ident .letBound type.ty none)
    rw [passes_bind (Expr.everywhere_iff.1 hread).1.1, he hdepth h.toDescribes hvtable,
      hvalue.resolveNames_scopes h.opened, h.inner]
    simp only [Expr.declared]
    constructor
    · rintro ⟨ht, hv, hnew⟩
      refine ⟨⟨_, .bind ht hv⟩, ?_⟩
      have := h.distinct
      grind
    · rintro ⟨⟨Γ', hv | ⟨ht, hv⟩⟩, hnew⟩
      · cases hv
      · exact ⟨ht, hv, by grind⟩

end

/-! ## Expressions that follow each other -/

section
variable {table : DeclTable} {returns : Ty} {depth : Nat} {inLoop : Bool} {s : Names} {Γ : Env}
  {t : Ty} {declared : List String}

theorem passAll_iff_haveTypes {es : List Expr} {ts : List Ty} (hread : ∀ e ∈ es, e.ValueRead)
    (hes : ∀ e ∈ es, e.Agrees table returns) (hdepth : inLoop = true ↔ depth ≠ 0)
    (h : Γ.Describes table s) (htable : table.Extends (resolveNamesAll s es).names.table) :
    PassAll table returns depth s es ts ↔ HaveTypes returns inLoop Γ es ts := by
  induction es generalizing s ts with
  | nil =>
    rw [passAll_nil]
    exact ⟨by rintro rfl; exact .nil, by rintro ⟨⟩; rfl⟩
  | cons e es ih =>
    rw [List.forall_mem_cons] at hread hes
    have hafter := h.after hread.1
    have hetable := htable.of_grows (resolveNamesAll_grows hafter.opened es)
    simp only [passAll_cons, hes.1 hdepth h hetable, ih hread.2 hes.2 hafter htable]
    constructor
    · rintro ⟨t, ts, rfl, he, hes⟩
      exact .cons he hes
    · rintro (_ | ⟨he, hes⟩)
      exact ⟨_, _, rfl, he, hes⟩

/-- Well-typed statements leave the names that their rules say. -/
theorem Env.Shows.proceedAll {es : List Expr} (h : Γ.Shows table s declared)
    (hread : ∀ e ∈ es, e.StatementRead) {Γ' : Env} (hes : ProceedsAll returns inLoop Γ es Γ')
    (hnew : (declared ++ es.flatMap Expr.declared).Nodup)
    (htable : table.Extends (resolveNamesAll s es).names.table) :
    Γ'.Shows table (resolveNamesAll s es).names (declared ++ es.flatMap Expr.declared) := by
  induction es generalizing s Γ declared with
  | nil =>
    cases hes
    rw [List.flatMap_nil, List.append_nil]
    exact h
  | cons e es ih =>
    rw [List.forall_mem_cons] at hread
    rw [List.flatMap_cons, ← List.append_assoc] at hnew ⊢
    obtain _ | ⟨he, hes⟩ := hes
    have hgrows := Expr.resolveNames_grows h.opened e
    have hfirst := h.proceed hread.1 he (List.nodup_append.1 hnew).1
      (htable.of_grows (resolveNamesAll_grows hgrows.scopes.ne_nil es))
    exact ih hfirst hread.2 hes hnew htable

theorem passAll_iff_proceedsAll {es : List Expr} (hread : ∀ e ∈ es, e.StatementRead)
    (hes : ∀ e ∈ es, e.computed.Agrees table returns) (hdepth : inLoop = true ↔ depth ≠ 0)
    (h : Γ.Shows table s declared) (htable : table.Extends (resolveNamesAll s es).names.table) :
    (∃ ts, PassAll table returns depth s es ts) ↔
      (∃ Γ', ProceedsAll returns inLoop Γ es Γ') ∧
        (declared ++ es.flatMap Expr.declared).Nodup := by
  induction es generalizing s Γ declared with
  | nil =>
    simp only [passAll_nil, List.flatMap_nil, List.append_nil]
    exact ⟨fun _ => ⟨⟨Γ, .nil⟩, h.distinct⟩, fun _ => ⟨[], rfl⟩⟩
  | cons e es ih =>
    rw [List.forall_mem_cons] at hread hes
    have hetable := htable.of_grows
      (resolveNamesAll_grows (Expr.resolveNames_grows h.opened e).scopes.ne_nil es)
    have he (t : Ty) : e.Passes table returns depth s t ↔ _ :=
      Expr.passes_iff_proceeds hread.1 hes.1 hdepth h hetable
    rw [List.flatMap_cons, ← List.append_assoc]
    simp only [passAll_cons]
    constructor
    · rintro ⟨_, t, ts, rfl, hp, hps⟩
      obtain ⟨⟨Γ', hp⟩, hnew⟩ := (he t).1 hp
      obtain ⟨⟨Γ'', hps⟩, hnews⟩ :=
        (ih hread.2 hes.2 (h.proceed hread.1 hp hnew hetable) htable).1 ⟨ts, hps⟩
      exact ⟨⟨Γ'', .cons hp hps⟩, hnews⟩
    · rintro ⟨⟨Γ'', _ | ⟨hp, hps⟩⟩, hnews⟩
      have hnew := (List.nodup_append.1 hnews).1
      obtain ⟨ts, hts⟩ :=
        (ih hread.2 hes.2 (h.proceed hread.1 hp hnew hetable) htable).2 ⟨⟨Γ'', hps⟩, hnews⟩
      exact ⟨_, _, ts, rfl, (he _).2 ⟨⟨_, hp⟩, hnew⟩, hts⟩

end

/-! ## One construct -/

section
variable {table : DeclTable} {returns : Ty} {n : Node}

theorem agrees_literal {text : String} {constant : Option String} :
    (Expr.literal n text constant).Agrees table returns := by
  intro depth inLoop s Γ t _ _ _
  rw [passes_literal]
  constructor
  · exact .literal
  · intro ht
    cases ht with
    | literal h => exact h

theorem agrees_var {ident : Ident} : (Expr.var n ident).Agrees table returns := by
  intro depth inLoop s Γ t _ h _
  rw [passes_var h]
  constructor
  · exact .var
  · intro ht
    cases ht with
    | var hx => exact hx

theorem agrees_call {callee : Ident} {arguments : List Expr} (hread : ∀ e ∈ arguments, e.ValueRead)
    (ha : ∀ e ∈ arguments, e.Agrees table returns) :
    (Expr.call n callee arguments).Agrees table returns := by
  intro depth inLoop s Γ t hdepth h htable
  simp only [passes_call h, passAll_iff_haveTypes hread ha hdepth h htable]
  constructor
  · rintro ⟨signature, ts, hc, ha, hts⟩
    exact .call hc ha hts
  · intro ht
    cases ht with
    | call hc ha hts => exact ⟨_, _, hc, ha, hts⟩

theorem agrees_block {body : List Expr} (hread : ∀ e ∈ body, e.StatementRead)
    (hb : ∀ e ∈ body, e.computed.Agrees table returns) :
    (Expr.block n body none).Agrees table returns := by
  intro depth inLoop s Γ t hdepth h htable
  rw [passes_block, passAll_iff_proceedsAll hread hb hdepth h.enter htable, List.nil_append]
  constructor
  · rintro ⟨⟨⟨Γ', hb⟩, hd⟩, rfl⟩
    exact .block hd hb
  · intro ht
    cases ht with
    | block hd hb => exact ⟨⟨⟨_, hb⟩, hd⟩, rfl⟩

theorem agrees_blockResult {body : List Expr} {e : Expr}
    (hread : ∀ d ∈ body ++ [e], d.StatementRead)
    (hb : ∀ d ∈ body ++ [e], d.computed.Agrees table returns) :
    (Expr.block n body (some e)).Agrees table returns := by
  intro depth inLoop s Γ t hdepth h htable
  rw [List.forall_mem_append, List.forall_mem_singleton] at hread hb
  have hgrows := resolveNamesAll_grows s.enter_ne_nil body
  have hetable : table.Extends (e.resolveNames (resolveNamesAll s.enter body).names).names.table :=
    htable
  have hbtable := hetable.of_grows (Expr.resolveNames_grows hgrows.scopes.ne_nil e)
  rw [passes_blockResult, passAll_iff_proceedsAll hread.1 hb.1 hdepth h.enter hbtable]
  constructor
  · rintro ⟨⟨⟨Γ', hps⟩, hd⟩, hp⟩
    obtain ⟨⟨Γ'', hp⟩, hd⟩ := (Expr.passes_iff_proceeds hread.2 hb.2 hdepth
      (h.enter.proceedAll hread.1 hps hd hbtable) hetable).1 hp
    exact .blockResult (by simpa using hd) hps hp
  · intro ht
    cases ht with
    | blockResult hd hps hp =>
      rw [List.flatMap_append, List.flatMap_singleton] at hd
      have hd' := (List.nodup_append.1 hd).1
      exact ⟨⟨⟨_, hps⟩, hd'⟩, (Expr.passes_iff_proceeds hread.2 hb.2 hdepth
        (h.enter.proceedAll hread.1 hps hd' hbtable) hetable).2 ⟨⟨_, hp⟩, hd⟩⟩

theorem agrees_assign {target : Ident} {value : Expr} (hv : value.Agrees table returns) :
    (Expr.assign n target value).Agrees table returns := by
  intro depth inLoop s Γ t hdepth h htable
  rw [passes_assign h, hv hdepth h htable]
  constructor
  · rintro ⟨hx, hv⟩
    exact .assign hx hv
  · intro ht
    cases ht with
    | assign hx hv => exact ⟨hx, hv⟩

theorem agrees_binary {op : BinaryOp} {left right : Expr} (hread : left.ValueRead)
    (hl : left.Agrees table returns) (hr : right.Agrees table returns) :
    (Expr.binary n op left right).Agrees table returns := by
  intro depth inLoop s Γ t hdepth h htable
  have hafter := h.after hread
  rw [passes_binary, hr hdepth hafter htable,
    hl hdepth h (htable.of_grows (Expr.resolveNames_grows hafter.opened right))]
  constructor
  · rintro ⟨hl, hr, ho⟩
    exact .binary hl hr ho
  · intro ht
    cases ht with
    | binary hl hr ho => exact ⟨hl, hr, ho⟩

theorem agrees_unary {op : UnaryOp} {operand : Expr} (he : operand.Agrees table returns) :
    (Expr.unary n op operand).Agrees table returns := by
  intro depth inLoop s Γ t hdepth h htable
  rw [passes_unary, he hdepth h htable]
  constructor
  · rintro ⟨he, ho⟩
    exact .unary he ho
  · intro ht
    cases ht with
    | unary he ho => exact ⟨he, ho⟩

theorem agrees_group {inner : Expr} (he : inner.Agrees table returns) :
    (Expr.group n inner).Agrees table returns := by
  intro depth inLoop s Γ t hdepth h htable
  rw [passes_group, he hdepth h htable]
  constructor
  · exact .group
  · intro ht
    cases ht with
    | group he => exact he

theorem agrees_branch {condition onTrue : Expr} (hread : condition.ValueRead)
    (hc : condition.Agrees table returns) (ht : onTrue.Agrees table returns) :
    (Expr.branch n condition onTrue none).Agrees table returns := by
  intro depth inLoop s Γ t hdepth h htable
  have hafter := h.after hread
  rw [passes_branch, ht hdepth hafter htable,
    hc hdepth h (htable.of_grows (Expr.resolveNames_grows hafter.opened onTrue))]
  constructor
  · rintro ⟨hc, ht⟩
    exact .branch hc ht
  · intro ht
    cases ht with
    | branch hc ht => exact ⟨hc, ht⟩

theorem agrees_branchElse {condition onTrue onFalse : Expr} (hread : condition.ValueRead)
    (hread' : onTrue.ValueRead) (hc : condition.Agrees table returns)
    (ht : onTrue.Agrees table returns) (hf : onFalse.Agrees table returns) :
    (Expr.branch n condition onTrue (some onFalse)).Agrees table returns := by
  intro depth inLoop s Γ t hdepth h htable
  have hafter := h.after hread
  have hafter' := hafter.after hread'
  have httable := htable.of_grows (Expr.resolveNames_grows hafter'.opened onFalse)
  rw [passes_branchElse, hf hdepth hafter' htable, ht hdepth hafter httable,
    hc hdepth h (httable.of_grows (Expr.resolveNames_grows hafter.opened onTrue))]
  constructor
  · rintro ⟨hc, ht, hf⟩
    exact .branchElse hc ht hf
  · intro ht
    cases ht with
    | branchElse hc ht hf => exact ⟨hc, ht, hf⟩

theorem agrees_ret {value : Expr} (hv : value.Agrees table returns) :
    (Expr.ret n value).Agrees table returns := by
  intro depth inLoop s Γ t hdepth h htable
  rw [passes_ret, hv hdepth h htable]
  constructor
  · rintro ⟨hv, rfl⟩
    exact .ret hv
  · intro ht
    cases ht with
    | ret hv => exact ⟨hv, rfl⟩

theorem agrees_loop {condition body : Expr} (hread : condition.ValueRead)
    (hc : condition.Agrees table returns) (hb : body.Agrees table returns) :
    (Expr.loop n condition body).Agrees table returns := by
  intro depth inLoop s Γ t hdepth h htable
  have hafter := h.after hread
  have hinner : true = true ↔ depth + 1 ≠ 0 := by simp
  simp only [passes_loop, hb hinner hafter htable,
    hc hdepth h (htable.of_grows (Expr.resolveNames_grows hafter.opened body))]
  constructor
  · rintro ⟨hc, ⟨u, hb⟩, rfl⟩
    exact .loop hc hb
  · intro ht
    cases ht with
    | loop hc hb => exact ⟨hc, ⟨_, hb⟩, rfl⟩

theorem agrees_brk : (Expr.brk n).Agrees table returns := by
  intro depth inLoop s Γ t hdepth _ _
  rw [passes_brk, ← hdepth]
  constructor
  · rintro ⟨rfl, rfl⟩
    exact .brk
  · intro ht
    cases ht with
    | brk => exact ⟨rfl, rfl⟩

end

/-- The passes and the rules agree on every expression that a text can write. -/
theorem Expr.StatementRead.agrees {e : Expr} (h : e.StatementRead) (table : DeclTable)
    (returns : Ty) : e.computed.Agrees table returns := by
  induction e using Expr.induction_children with
  | _ e ih =>
    have hread := (Expr.everywhere_iff.1 h).2
    -- Only a block has statements below it, so the parts of all else are values.
    have hparts : (∀ n body result, e ≠ .block n body result) →
        ∀ d ∈ e.children, d.ValueRead ∧ d.Agrees table returns := by
      intro hblock d hd
      have hd' := h.child hblock d hd
      have hagrees := ih d hd hd'.everywhere
      rw [Expr.computed_of_notBind hd'.notBind] at hagrees
      exact ⟨hd', hagrees⟩
    cases e with
    | literal => exact agrees_literal
    | var => exact agrees_var
    | brk => exact agrees_brk
    | call n callee arguments =>
      have ha := hparts (by simp)
      exact agrees_call (fun a h => (ha a h).1) fun a h => (ha a h).2
    | block n body result =>
      cases result with
      | none =>
        rw [show (Expr.block n body none).children = body from List.append_nil body] at *
        exact agrees_block hread fun d hd => ih d hd (hread d hd)
      | some e => exact agrees_blockResult hread fun d hd => ih d hd (hread d hd)
    | bind => exact (List.forall_mem_singleton.1 (hparts (by simp))).2
    | assign => exact agrees_assign (List.forall_mem_singleton.1 (hparts (by simp))).2
    | unary => exact agrees_unary (List.forall_mem_singleton.1 (hparts (by simp))).2
    | group => exact agrees_group (List.forall_mem_singleton.1 (hparts (by simp))).2
    | ret => exact agrees_ret (List.forall_mem_singleton.1 (hparts (by simp))).2
    | binary =>
      obtain ⟨hl, hr⟩ := List.forall_mem_cons.1 (hparts (by simp))
      exact agrees_binary hl.1 hl.2 (List.forall_mem_singleton.1 hr).2
    | loop =>
      obtain ⟨hc, hb⟩ := List.forall_mem_cons.1 (hparts (by simp))
      exact agrees_loop hc.1 hc.2 (List.forall_mem_singleton.1 hb).2
    | branch n condition onTrue onFalse =>
      obtain ⟨hc, hparts⟩ := List.forall_mem_cons.1 (hparts (by simp))
      obtain ⟨ht, hparts⟩ := List.forall_mem_cons.1 hparts
      cases onFalse with
      | none => exact agrees_branch hc.1 hc.2 ht.2
      | some onFalse =>
        exact agrees_branchElse hc.1 ht.1 hc.2 ht.2 (List.forall_mem_singleton.1 hparts).2

end Ilang
