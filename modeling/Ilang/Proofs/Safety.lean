import Ilang.Proofs.Truths
/-!
# The code of expressions is safe

From a machine inside a function whose variables of type `bool` are truth values, the code of an
expression is safe if what follows it is (`Expr.safe`). There is one lemma for each kind of
expression, which takes the parts of it as safe. A loop goes back to its start with fewer steps
left.
-/
namespace Ilang

/-! ## Places in a function -/

/-- What follows the code of an expression of a type is safe. -/
def Scene.Resumes (x : Scene) (waiting : List Word) (scopes : Scopes Nat) (ty : Ty)
    (rest : List Line) : Prop :=
  ∀ w s m, Fits x.toSite x.frame waiting scopes w s m → (ty = .bool → IsTruth w) → x.Safe rest m

/-- Where the code of an expression stands. If no word waits that was put on the stack inside the
loop around it, that loop can be left. -/
structure Scene.Context (x : Scene) (env : Surroundings) (clear : Bool) (waiting : List Word)
    (f : Frame) : Prop where
  ready : x.Ready
  vars : env.frame.vars = x.frame.vars
  functions : env.functions = x.functions.map (·.ident.name)
  regular : f.Regular
  nonempty : f.scopes.chain ≠ []
  breaks : clear = true → ∀ label, env.frame.currentLoop? = some label →
    ∃ code, Line.codeAt label x.listing = some code ∧ x.Resumes waiting f.scopes .unit code

/-- An expression is as it was written, its types fit, and its `break`s leave no word behind. -/
structure Expr.Fine (x : Scene) (clear : Bool) (e : Expr) : Prop where
  read : e.StatementRead
  conforms : e.Everywhere (Expr.Conforms x.functions x.externals x.frame x.returns)
  clear : e.breaksClear clear = true

variable {x : Scene} {env : Surroundings} {clear : Bool} {waiting : List Word} {f g : Frame}
  {l l' : Labels} {e : Expr} {code rest : List Line} {scopes : Scopes Nat} {latest w : Word}
  {s : Store} {m : Machine}

theorem Expr.Fine.own (h : e.Fine x clear) :
    e.Conforms x.functions x.externals x.frame x.returns :=
  h.conforms e .here

theorem Expr.Fine.child (h : e.Fine x clear) {c : Expr} (hc : c ∈ e.children) {inner : Bool}
    (hclear : c.breaksClear inner = true) : c.Fine x inner :=
  ⟨(Expr.everywhere_iff.1 h.read).2 c hc, (Expr.everywhere_iff.1 h.conforms).2 c hc, hclear⟩

theorem Expr.Fine.within (h : e.Fine x clear) (j : Nat) : e.Fine (x.within j) clear :=
  ⟨h.read, h.conforms, h.clear⟩

namespace Scene

theorem Resumes.within {ty : Ty} (h : x.Resumes waiting scopes ty rest) {j : Nat}
    (hj : j ≤ x.budget) : (x.within j).Resumes waiting scopes ty rest :=
  fun w s m hm hw => (h w s m hm hw).within hj

/-- A label is passed. -/
theorem Resumes.label {ty : Ty} (h : x.Resumes waiting scopes ty rest) (name : String) :
    x.Resumes waiting scopes ty (.instr (.label name) :: rest) :=
  fun w s m hm hw => Safe.exec rfl (h w s m hm hw)

/-- What follows is safe behind a jump to it. -/
theorem Resumes.jmp {ty : Ty} {label : String} (h : x.Resumes waiting scopes ty code)
    (hcode : Line.codeAt label x.listing = some code) (rest : List Line) :
    x.Resumes waiting scopes ty (.instr (.jmp label) :: rest) :=
  fun w s m hm hw => Safe.jmp hcode fun _ hj => (h w s m hm hw).within (Nat.le_of_lt hj)

namespace Context

theorem within (h : x.Context env clear waiting f) {j : Nat} (hj : j ≤ x.budget) :
    (x.within j).Context env clear waiting f where
  ready := h.ready.within hj
  vars := h.vars
  functions := h.functions
  regular := h.regular
  nonempty := h.nonempty
  breaks hclear label hlabel := by
    obtain ⟨code, hcode, hsafe⟩ := h.breaks hclear label hlabel
    exact ⟨code, hcode, hsafe.within hj⟩

/-- Behind a value, what is visible is the same. -/
theorem behind (h : x.Context env clear waiting f) (hl : Listed env f l e code l' g)
    (hread : e.ValueRead) : g.scopes = f.scopes ∧ x.Context env clear waiting g := by
  have hgrows := hl.laid.grows h.nonempty
  have hscopes := hl.laid.scopes_eq h.nonempty hread
  refine ⟨hscopes, h.ready, h.vars, h.functions, hgrows.regular h.regular, hgrows.scopes.ne_nil, ?_⟩
  rw [hscopes]
  exact h.breaks

/-- Inside a block, a `break` leaves the scope of the block as well. -/
theorem enter (h : x.Context env clear waiting f) (hg : f.enter.Grows g) :
    x.Context env clear waiting g where
  ready := h.ready
  vars := h.vars
  functions := h.functions
  regular := hg.regular h.regular.enter
  nonempty := hg.scopes.ne_nil
  breaks hclear label hlabel := by
    obtain ⟨code, hcode, hsafe⟩ := h.breaks hclear label hlabel
    refine ⟨code, hcode, fun w s m hm hw => ?_⟩
    -- Behind the loop, what the block has declared is out of sight.
    have hleft := hm.leave
    rw [Scopes.pop_eq_of_push_grows hg.scopes] at hleft
    exact hsafe w _ m hleft hw

/-- While a word waits, no `break` may leave the loop. -/
theorem pushed (h : x.Context env clear waiting f) (w : Word) :
    x.Context env false (w :: waiting) f :=
  ⟨h.ready, h.vars, h.functions, h.regular, h.nonempty, by simp⟩

/-- A loop has an end to which its `break`s go. -/
theorem inLoop (h : x.Context env clear waiting f) {label : String}
    (hend : .instr (.label label) :: rest <:+ x.listing)
    (hrest : x.Resumes waiting f.scopes .unit rest) :
    x.Context (env.inLoop label) true waiting f where
  ready := h.ready
  vars := h.vars
  functions := h.functions
  regular := h.regular
  nonempty := h.nonempty
  breaks := by
    rintro - _ ⟨⟩
    exact ⟨_, Line.codeAt_of_suffix h.ready.nodup hend, hrest.label label⟩

theorem slotOf (h : x.Context env clear waiting f) {i : Ident} {k : Nat} {place : Operand}
    (hi : i.slot = some k) (hp : env.frame.slotOf i = .ok place) :
    k < x.count ∧ place = .mem (-(8 * (k + 1) : Nat)) .rbp := by
  refine Frame.slotOf_eq (fun k v hv => ?_) hi hp
  rw [h.vars] at hv
  exact h.ready.offset k v hv

end Context

end Scene

/-! ## Expressions -/

/-- The code of an expression is safe wherever it stands, if what follows it is. -/
def Expr.SafeAs
    (lists : Surroundings → Frame → Labels → Expr → List Line → Labels → Frame → Prop) (e : Expr) :
    Prop :=
  ∀ ⦃x : Scene⦄ ⦃env clear waiting f g l l' code rest latest s m⦄, x.Context env clear waiting f →
    e.Fine x clear → lists env f l e code l' g → code ++ rest <:+ x.listing →
    Fits x.toSite x.frame waiting f.scopes latest s m → x.Resumes waiting g.scopes e.ty rest →
    x.Safe (code ++ rest) m

/-- The note behind the code of an expression holds. -/
theorem Expr.SafeAs.listed (h : e.SafeAs Lists) : e.SafeAs Listed := by
  intro x env clear waiting f g l l' code rest latest s m hc he hl hsuffix hm hrest
  cases hl with
  | intro hlaid hlists =>
    rw [List.append_assoc, List.singleton_append] at hsuffix ⊢
    refine h hc he hlists hsuffix hm fun w s m hm hw => ?_
    exact Process.Safe.note (hm.truthful_done hc.vars hc.ready.offset hw x.world)
      (hrest w s m hm hw)

/-- The code of statements is safe if what follows it is. -/
theorem AllListed.safe {es : List Expr} {base : Frame} (ih : ∀ e ∈ es, e.SafeAs Listed)
    (hc : x.Context env clear waiting base) (hf : base.enter.Grows f)
    (hes : ∀ e ∈ es, e.Fine x clear) (hl : AllListed env f l es code l' g)
    (hsuffix : code ++ rest <:+ x.listing)
    (hm : Fits x.toSite x.frame waiting f.scopes latest s m)
    (hrest : x.Resumes waiting g.scopes .unit rest) : x.Safe (code ++ rest) m := by
  induction es generalizing f l code latest s m with
  | nil =>
    cases hl
    exact hrest latest s m hm (by simp)
  | cons e es ihes =>
    cases hl with | cons he hes' =>
    obtain ⟨hih, hihs⟩ := List.forall_mem_cons.1 ih
    obtain ⟨hfine, hfines⟩ := List.forall_mem_cons.1 hes
    rw [List.append_assoc] at hsuffix ⊢
    refine hih (hc.enter hf) hfine he hsuffix hm fun w s m hm _ => ?_
    have hg := hf.trans (he.laid.grows hf.scopes.ne_nil)
    exact ihes hihs hg hfines hes' (suffix_right hsuffix) hm

/-- The code of an expression that may be missing is safe if what follows it is. A missing one
leaves zero. -/
theorem OptListed.safe {o : Option Expr} {ty : Ty} (ih : ∀ e ∈ o.toList, e.SafeAs Listed)
    (hc : x.Context env clear waiting f) (ho : ∀ e ∈ o.toList, e.Fine x clear)
    (hl : OptListed env f l o code l' g) (hsuffix : code ++ rest <:+ x.listing)
    (hm : Fits x.toSite x.frame waiting f.scopes latest s m)
    (hty : ty = .bool → ∀ e ∈ o, e.ty = .bool) (hrest : x.Resumes waiting g.scopes ty rest) :
    x.Safe (code ++ rest) m := by
  cases hl with
  | none =>
    -- Zero is a truth value, so a missing `else` may have any type.
    have hexec : m.exec x.world (.mov (.imm 0) Reg.rax) = Option.some (m.setReg .rax (.word 0)) :=
      rfl
    exact Scene.Safe.exec hexec (hrest 0 s _ (hm.same (Machine.same_setReg_rax _) rfl)
      fun _ => ⟨false, rfl⟩)
  | some he =>
    refine ih _ (by simp) hc (ho _ (by simp)) he hsuffix hm fun w s m hm hw => ?_
    exact hrest w s m hm fun h => hw (hty h _ rfl)

/-- The code of arguments leaves their words on the stack. -/
theorem ArgumentsListed.safe {es : List Expr} (ih : ∀ e ∈ es, e.SafeAs Listed)
    (hc : x.Context env clear waiting f) (hread : ∀ e ∈ es, e.ValueRead)
    (hconforms : ∀ e ∈ es, e.Everywhere (Expr.Conforms x.functions x.externals x.frame x.returns))
    (hclear : argumentsBreakClear clear es = true) (hl : ArgumentsListed env f l es code l' g)
    (hsuffix : code ++ rest <:+ x.listing)
    (hm : Fits x.toSite x.frame waiting f.scopes latest s m)
    (hrest : ∀ words s m, List.Forall₂ (fun e w => e.ty = .bool → IsTruth w) es words →
      Stands x.toSite (words.reverse ++ waiting) f.scopes s m →
      x.frame.Truths s.scopes f.scopes → m.filled = 0 → x.Safe rest m) :
    x.Safe (code ++ rest) m := by
  induction es generalizing clear waiting f l code latest s m with
  | nil =>
    cases hl
    exact hrest [] s m .nil hm.toStands hm.truths hm.filled
  | cons e es ihes =>
    cases hl with | cons he hes =>
    obtain ⟨hih, hihs⟩ := List.forall_mem_cons.1 ih
    obtain ⟨hv, hvs⟩ := List.forall_mem_cons.1 hread
    obtain ⟨ht, hts⟩ := List.forall_mem_cons.1 hconforms
    rw [argumentsBreakClear, Bool.and_eq_true] at hclear
    obtain ⟨hscopes, hg⟩ := hc.behind he hv
    simp only [List.append_assoc, List.cons_append] at hsuffix ⊢
    refine hih hc ⟨hv.everywhere, ht, hclear.1⟩ he hsuffix hm fun w s m hm hw => ?_
    obtain ⟨m₁, hexec, hm₁⟩ := hm.push
    refine Scene.Safe.exec hexec (ihes hihs (hg.pushed w) hvs hts hclear.2 hes
      (suffix_tail (suffix_right hsuffix)) hm₁ fun words s m hwords hstands htruths hfilled => ?_)
    rw [hscopes] at hstands htruths
    refine hrest (w :: words) s m (.cons hw hwords) ?_ htruths hfilled
    rwa [List.reverse_cons, List.append_assoc]

namespace Expr.SafeAs

variable {n : Node}

theorem literal {text : String} {constant : Option String} :
    (Expr.literal n text constant).SafeAs Lists := by
  intro x env clear waiting f g l l' code rest latest s m hc he hl hsuffix hm hrest
  cases hl with | literal hs hcode =>
  have htype : Literal.type? text = some n.ty := he.own.literal
  obtain ⟨w, m', hw, hreach, hm'⟩ := hm.toHolds.literal htype hs hcode []
  rw [List.append_nil] at hreach
  refine Scene.Safe.reaches (straight_literalCode hcode) hreach
    (hrest w s m' ⟨hm', hm.truths⟩ fun hty => ?_)
  exact Literal.isTruth_word (htype.trans (congrArg some hty)) hw

theorem var {i : Ident} : (Expr.var n i).SafeAs Lists := by
  intro x env clear waiting f g l l' code rest latest s m hc he hl hsuffix hm hrest
  cases hl with | var hk hs hp =>
  obtain ⟨-, rfl⟩ := hc.slotOf hs hp
  obtain ⟨w, hw, m', hexec, hm'⟩ := hm.toHolds.read hk
  refine Scene.Safe.exec hexec (hrest w s m' ⟨hm', hm.truths⟩ fun hty => ?_)
  exact hm.isTruth_of_lookup hk hw ((Frame.isBool_iff hs he.own.named).2 hty)

theorem call {callee : Ident} {arguments : List Expr} (ih : ∀ e ∈ arguments, e.SafeAs Listed) :
    (Expr.call n callee arguments).SafeAs Lists := by
  intro x env clear waiting f g l l' code rest latest s m hc he hl hsuffix hm hrest
  cases hl with | call ha hp =>
  have hread := he.read.child (by simp)
  rw [ha.laid.scopes_eq hc.nonempty hread] at hrest
  simp only [List.append_assoc, List.cons_append, List.nil_append] at hsuffix ⊢
  refine ha.safe ih hc hread (Expr.everywhere_iff.1 he.conforms).2 he.clear hsuffix hm
    fun words s m hwords hstands htruths hfilled => ?_
  rw [hwords.length_eq] at hp
  rw [hc.functions]
  -- Whether the call goes to the program or out of it is settled by the names alone.
  rcases he.own.named with ⟨f', hf', hname, hreturns, hparams⟩ | ⟨hnot, e', he', hname, hreturns⟩
  · have hcontains : (x.functions.map (·.ident.name)).contains callee.name = true := by
      simpa using ⟨f', hf', hname⟩
    have hfit : ArgumentsFit f'.params words := by
      have htypes : List.Forall₂ (fun t w => t = Ty.bool → IsTruth w) (arguments.map Expr.ty)
          words := List.forall₂_map_left_iff.2 hwords
      rw [← hparams] at htypes
      exact List.forall₂_map_left_iff.1 htypes
    rw [hcontains, ← hname]
    exact hc.ready.callFunction hf' hstands htruths hp hfit fun w s m hm hw =>
      hrest w s m hm fun hty => hw (hreturns.trans hty)
  · have hcontains : (x.functions.map (·.ident.name)).contains callee.name = false := by
      simpa using hnot
    rw [hcontains, ← hname]
    exact hc.ready.callExternal he' hstands htruths hfilled hp fun w s m hm hw =>
      hrest w s m hm fun hty => hw (hreturns.trans hty)

theorem block {body : List Expr} {result : Option Expr} (ihb : ∀ e ∈ body, e.SafeAs Listed)
    (ihr : ∀ e ∈ result.toList, e.SafeAs Listed) : (Expr.block n body result).SafeAs Lists := by
  intro x env clear waiting f g l l' code rest latest s m hc he hl hsuffix hm hrest
  cases hl with | @block _ _ g h _ k _ _ _ _ b r hb hr =>
  have hclear := Expr.breaksClear_block he.clear
  have hbody : ∀ e ∈ body, e.Fine x clear := fun e hmem =>
    he.child (by simp [Expr.children, hmem]) (hclear.1 e hmem)
  have hresult : ∀ e ∈ result.toList, e.Fine x clear := fun e hmem =>
    he.child (by simp_all [Expr.children]) (hclear.2 e hmem)
  have hg : f.enter.Grows g := hb.laid.grows (List.cons_ne_nil _ _)
  rw [List.append_assoc] at hsuffix ⊢
  refine hb.safe ihb hc (.refl (List.cons_ne_nil _ _)) hbody hsuffix hm.enter fun w s m hm _ => ?_
  refine hr.safe ihr (hc.enter hg) hresult (suffix_right hsuffix) hm (fun hty e hmem => ?_)
    fun w s m hm hw => hrest w _ m hm.leave hw
  have hown : n.ty = (result.map Expr.ty).getD .unit := he.own.consistent
  rw [Option.mem_def.1 hmem] at hown
  exact hown.symm.trans hty

theorem bind {i : Ident} {type : TypeRef} {value : Expr} (ih : value.SafeAs Listed) :
    (Expr.bind n i type value).SafeAs Lists := by
  intro x env clear waiting f g l l' code rest latest s m hc he hl hsuffix hm hrest
  cases hl with | bind hv hk hs hp =>
  obtain ⟨hcount, rfl⟩ := hc.slotOf hs hp
  have hregular := (hv.laid.grows hc.nonempty).regular hc.regular
  have hown : n.ty = type.ty ∧ value.ty = type.ty := he.own.consistent
  simp only [List.append_assoc, List.cons_append, List.nil_append] at hsuffix ⊢
  refine ih hc (he.child (by simp [Expr.children]) he.clear) hv hsuffix hm fun w s m hm hw => ?_
  -- The variable has the type that was declared, which is that of the value.
  have htruth : n.ty = .bool → IsTruth w := fun hty => hw (hown.2.trans (hown.1.symm.trans hty))
  have hdeclared := hm.declare hregular hk hcount fun hbool =>
    htruth ((Frame.isBool_iff hs he.own.named).1 hbool)
  exact Scene.Safe.exec (hm.exec_store rfl hm.rax _) (hrest w _ _ hdeclared htruth)

theorem assign {i : Ident} {value : Expr} (ih : value.SafeAs Listed) :
    (Expr.assign n i value).SafeAs Lists := by
  intro x env clear waiting f g l l' code rest latest s m hc he hl hsuffix hm hrest
  cases hl with | assign hv hk hs hp =>
  obtain ⟨hcount, rfl⟩ := hc.slotOf hs hp
  have hregular := (hv.laid.grows hc.nonempty).regular hc.regular
  have hown : x.frame.typeOf? i = some n.ty ∧ value.ty = n.ty := he.own.named
  simp only [List.append_assoc, List.cons_append, List.nil_append] at hsuffix ⊢
  refine ih hc (he.child (by simp [Expr.children]) he.clear) hv hsuffix hm fun w s m hm hw => ?_
  have htruth : n.ty = .bool → IsTruth w := fun hty => hw (hown.2.trans hty)
  have hassigned := hm.assign hregular hk hcount fun hbool =>
    htruth ((Frame.isBool_iff hs hown.1).1 hbool)
  exact Scene.Safe.exec (hm.exec_store rfl hm.rax _) (hrest w _ _ hassigned htruth)

theorem binary {op : BinaryOp} {left right : Expr} (ihl : left.SafeAs Listed)
    (ihr : right.SafeAs Listed) : (Expr.binary n op left right).SafeAs Lists := by
  intro x env clear waiting f g l l' code rest latest s m hc he hl hsuffix hm hrest
  cases hl with | binary hr hl =>
  have hclear := he.clear
  rw [Expr.breaksClear, Bool.and_eq_true] at hclear
  have hread := he.read.child (by simp)
  obtain ⟨hgs, hg⟩ := hc.behind hl (hread _ (by simp [Expr.children]))
  obtain ⟨hhs, -⟩ := hg.behind hr (hread _ (by simp [Expr.children]))
  obtain ⟨hty, hsame, hop⟩ : n.ty = left.ty ∧ right.ty = left.ty ∧ op.appliesTo left.ty :=
    he.own.consistent
  simp only [List.append_assoc, List.cons_append] at hsuffix ⊢
  -- The right operand is computed first, with what is visible in front of the left one.
  rw [← hgs] at hm
  refine ihr hg (he.child (by simp [Expr.children]) hclear.1) hr hsuffix hm
    fun right s m hm hright => ?_
  obtain ⟨m₁, hexec, hm₁⟩ := hm.push
  rw [hhs, hgs] at hm₁
  refine Scene.Safe.exec hexec (ihl (hc.pushed right) (he.child (by simp [Expr.children]) hclear.2)
    hl (suffix_tail (suffix_right hsuffix)) hm₁ fun left s m hm hleft => ?_)
  refine Scene.Safe.binary hm hleft hright fun w m hw hm => ?_
  rw [← hhs] at hm
  refine hrest w s m hm fun hbool => ?_
  -- An operator whose result is `bool` has operands of type `bool`.
  have hlbool : _ = Ty.bool := hty.symm.trans hbool
  rw [hlbool] at hop
  exact BinaryOp.isTruth_apply hop (hleft hlbool) (hright (hsame.trans hlbool)) hw

theorem unary {op : UnaryOp} {operand : Expr} (ih : operand.SafeAs Listed) :
    (Expr.unary n op operand).SafeAs Lists := by
  intro x env clear waiting f g l l' code rest latest s m hc he hl hsuffix hm hrest
  cases hl with | unary hl =>
  obtain ⟨hty, hop⟩ : n.ty = operand.ty ∧ op.appliesTo operand.ty := he.own.consistent
  rw [List.append_assoc] at hsuffix ⊢
  refine ih hc (he.child (by simp [Expr.children]) he.clear) hl hsuffix hm fun w s m hm hw => ?_
  obtain ⟨m', hreach, hrax, hsame⟩ := UnaryOp.reaches_code op hm.rax []
  rw [List.append_nil] at hreach
  refine Scene.Safe.reaches op.straight_code hreach (hrest _ s m' (hm.same hsame hrax)
    fun hbool => ?_)
  rw [← hty, show n.ty = .bool from hbool] at hop
  exact UnaryOp.isTruth_apply hop w

theorem group {inner : Expr} (ih : inner.SafeAs Listed) : (Expr.group n inner).SafeAs Lists := by
  intro x env clear waiting f g l l' code rest latest s m hc he hl hsuffix hm hrest
  cases hl with | group hl =>
  have hty : n.ty = inner.ty := he.own.consistent
  exact ih hc (he.child (by simp [Expr.children]) he.clear) hl hsuffix hm (hty ▸ hrest)

theorem branch {condition onTrue : Expr} {onFalse : Option Expr} (ihc : condition.SafeAs Listed)
    (iht : onTrue.SafeAs Listed) (ihf : ∀ e ∈ onFalse.toList, e.SafeAs Listed) :
    (Expr.branch n condition onTrue onFalse).SafeAs Lists := by
  intro x env clear waiting f g l l' code rest latest s m hc he hl hsuffix hm hrest
  cases hl with | branch hlc hlt hlf =>
  have hclear := he.clear
  rw [Expr.breaksClear, Bool.and_eq_true, Bool.and_eq_true] at hclear
  have hread := he.read.child (by simp)
  obtain ⟨hgs, hg⟩ := hc.behind hlc (hread _ (by simp [Expr.children]))
  obtain ⟨hhs, hh⟩ := hg.behind hlt (hread _ (by simp [Expr.children]))
  have his := hlf.laid.scopes_eq hh.nonempty fun d hd => hread d (by simp_all [Expr.children])
  obtain ⟨hty, hfalse⟩ : n.ty = onTrue.ty ∧ ∀ e ∈ onFalse, e.ty = onTrue.ty := he.own.consistent
  simp only [List.append_assoc, List.cons_append, List.nil_append] at hsuffix ⊢
  have htrue := suffix_tail (suffix_tail (suffix_right hsuffix))
  have helse := suffix_tail (suffix_right htrue)
  have hend := suffix_right (suffix_tail helse)
  have hnodup := hc.ready.nodup
  refine ihc hc (he.child (by simp [Expr.children]) hclear.1.1) hlc hsuffix hm fun w s m hm _ => ?_
  refine Scene.Safe.test (Line.codeAt_of_suffix hnodup helse) hm (fun m hm => ?_) fun m hm => ?_
  · rw [← hhs] at hm
    refine Scene.Safe.exec rfl (hlf.safe ihf hh (fun e hmem => ?_) (suffix_tail helse) hm ?_
      (hrest.label _))
    · exact he.child (by simp_all [Expr.children]) (optBreaksClear_of_mem hclear.2 e hmem)
    · exact fun hbool e hmem => (hfalse e hmem).trans (hty.symm.trans hbool)
  · refine iht hg (he.child (by simp [Expr.children]) hclear.1.2) hlt htrue hm ?_
    rw [← hty, ← his]
    exact (hrest.label _).jmp (Line.codeAt_of_suffix hnodup hend) _

theorem ret {value : Expr} (ih : value.SafeAs Listed) : (Expr.ret n value).SafeAs Lists := by
  intro x env clear waiting f g l l' code rest latest s m hc he hl hsuffix hm hrest
  cases hl with | ret hl =>
  have hty : value.ty = x.returns := he.own.consistent
  simp only [List.append_assoc, List.cons_append, List.nil_append] at hsuffix ⊢
  refine ih hc (he.child (by simp [Expr.children]) he.clear) hl hsuffix hm fun w s m hm hw => ?_
  exact hc.ready.returned hm (hty ▸ hw) rest

theorem loop {condition body : Expr} (ihc : condition.SafeAs Listed) (ihb : body.SafeAs Listed) :
    (Expr.loop n condition body).SafeAs Lists := by
  intro x env clear waiting f g l l' code rest latest s m hc he hl hsuffix hm hrest
  cases hl with | loop hlc hlb =>
  have hclear := he.clear
  rw [Expr.breaksClear, Bool.and_eq_true] at hclear
  have hread := he.read.child (by simp)
  have hgs := hlc.laid.scopes_eq hc.nonempty (hread _ List.mem_cons_self)
  have hhs := hlb.laid.scopes_eq (hgs ▸ hc.nonempty) (hread _ (by simp [Expr.children]))
  have hty : n.ty = .unit := he.own.consistent
  simp only [List.append_assoc, List.cons_append, List.nil_append] at hsuffix ⊢
  have hbody := suffix_tail (suffix_tail (suffix_right (suffix_tail hsuffix)))
  have hend := suffix_tail (suffix_right hbody)
  have hstart := Line.codeAt_of_suffix hc.ready.nodup hsuffix
  rw [show (Expr.loop n condition body).ty = .unit from hty, hhs, hgs] at hrest
  -- Each round is safe for the steps that are left, by induction on their number.
  suffices hround : ∀ j ≤ x.budget, (x.within j).Resumes waiting f.scopes .unit _ from
    hround x.budget (Nat.le_refl _) latest s m hm (by simp)
  intro j
  induction j using Nat.strongRecOn with
  | ind j ih =>
    intro hj w s m hm _
    have hrest := hrest.within hj
    have hinner := (hc.within hj).inLoop hend hrest
    obtain ⟨-, hg⟩ := hinner.behind hlc (hread _ List.mem_cons_self)
    have hcondition := (he.child List.mem_cons_self hclear.1).within j
    have hrepeated := (he.child (by simp [Expr.children]) hclear.2).within j
    refine Scene.Safe.exec rfl (ihc hinner hcondition hlc (suffix_tail hsuffix) hm
      fun w s m hm _ => ?_)
    refine Scene.Safe.test (Line.codeAt_of_suffix hc.ready.nodup hend) hm (fun m hm => ?_)
      fun m hm => ihb hg hrepeated hlb hbody hm fun w s m hm _ => ?_
    · exact hrest.label _ w s m (hgs ▸ hm) (by simp)
    · rw [hhs, hgs] at hm
      exact Scene.Safe.jmp hstart fun i hi =>
        ih i hi (Nat.le_of_lt (Nat.lt_of_lt_of_le hi hj)) w s m hm (by simp)

theorem brk : (Expr.brk n).SafeAs Lists := by
  intro x env clear waiting f g l l' code rest latest s m hc he hl hsuffix hm hrest
  cases hl with | brk hlabel =>
  obtain ⟨code, hcode, hsafe⟩ := hc.breaks he.clear _ hlabel
  exact hsafe.jmp hcode rest latest s m hm (by simp)

end Expr.SafeAs

/-- The code of an expression is safe if what follows it is. -/
theorem Expr.safe (e : Expr) : e.SafeAs Listed := by
  induction e using Expr.induction_children with
  | h e ih =>
    have hall : ∀ {c}, c ∈ e.children → c.SafeAs Listed := fun hc => ih _ hc
    refine SafeAs.listed ?_
    cases e with
    | literal => exact SafeAs.literal
    | var => exact SafeAs.var
    | call => exact SafeAs.call ih
    | block =>
      exact SafeAs.block (fun e he => hall (List.mem_append_left _ he))
        fun e he => hall (List.mem_append_right _ he)
    | bind => exact SafeAs.bind (hall List.mem_cons_self)
    | assign => exact SafeAs.assign (hall List.mem_cons_self)
    | binary => exact SafeAs.binary (hall List.mem_cons_self) (hall (by simp [children]))
    | unary => exact SafeAs.unary (hall List.mem_cons_self)
    | group => exact SafeAs.group (hall List.mem_cons_self)
    | branch =>
      exact SafeAs.branch (hall List.mem_cons_self) (hall (by simp [children]))
        fun e he => hall (by simp_all [children])
    | ret => exact SafeAs.ret (hall List.mem_cons_self)
    | loop => exact SafeAs.loop (hall List.mem_cons_self) (hall (by simp [children]))
    | brk => exact SafeAs.brk

end Ilang
