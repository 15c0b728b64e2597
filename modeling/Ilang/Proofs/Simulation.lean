import Ilang.Proofs.Activation
/-!
# Code does what expressions mean

From a machine inside a function, the code of an expression goes where the evaluation of the
expression goes (`Expr.followed`): to the code behind it with the word in `rax`, to the end of the loop
that is left, to the end of the function, or to an end of the run. If the evaluation is spent, the
run lasts as long as its loops were repeated. There is one lemma for each kind of expression, which
takes the parts of it as followed.

A `break` must not leave a loop while a word waits on the stack that was put there inside the loop
(`Expr.breaksClear`): nothing would take it off again.
-/
namespace Ilang

variable {α β : Type} {x : Site} {fuel : Nat} {waiting : List Word} {scopes : Scopes Nat}
  {latest : Word} {s : Store} {m : Machine} {c c' : Point}

/-! ## Runs that follow an evaluation -/

theorem Eval.bind_of_done {e : Eval α} {k : α → Eval β} {a : α} {t : Store} (h : e s = .done a t) :
    (e >>= k) s = k a t := by
  change Eval.bind e k s = k a t
  rw [Eval.bind, h]

/-- A run goes where an evaluation goes. -/
def Meets (x : Site) (fuel : Nat) (exits : Exit → Store → Progress → Prop)
    (arrives : α → Store → Point → Prop) (o : Evaluated α) (c : Point) : Prop :=
  match o with
  | .done a s => ∃ c', Point.Reaches x.world x.program c c' ∧ arrives a s c'
  | .left exit s => ∃ n, exits exit s (c.run x.world x.program n)
  | .spent => Point.Outlasts x.world x.program fuel c

namespace Meets

variable {exits exits' : Exit → Store → Progress → Prop} {arrives : α → Store → Point → Prop}
  {o : Evaluated α}

theorem of_reaches (hc : Point.Reaches x.world x.program c c')
    (h : Meets x fuel exits arrives o c') : Meets x fuel exits arrives o c := by
  cases o with
  | done a s =>
    obtain ⟨c'', hreach, harrives⟩ := h
    exact ⟨c'', hc.trans hreach, harrives⟩
  | left exit s =>
    obtain ⟨n, hn⟩ := h
    obtain ⟨k, hk⟩ := hc.run_eq
    exact ⟨k + n, by rwa [hk]⟩
  | spent => exact hc.outlasts h

/-- A step more lets the run last longer. -/
theorem of_step (hc : c.step x.world x.program = .running c')
    (h : Meets x fuel exits arrives o c') : Meets x (fuel + 1) exits arrives o c := by
  cases o with
  | done | left => exact of_reaches (.of_step hc) h
  | spent => exact Point.Outlasts.of_step hc h

theorem mono (h : Meets x fuel exits arrives o c)
    (hexits : ∀ exit s p, exits exit s p → exits' exit s p) : Meets x fuel exits' arrives o c := by
  cases o with
  | left exit s =>
    obtain ⟨n, hn⟩ := h
    exact ⟨n, hexits exit s _ hn⟩
  | done | spent => exact h

/-- What is reached is not yet where the run is to arrive. -/
theorem onward {arrives' : α → Store → Point → Prop} (h : Meets x fuel exits arrives o c)
    (harrives : ∀ a s c, arrives a s c →
      ∃ c', Point.Reaches x.world x.program c c' ∧ arrives' a s c') :
    Meets x fuel exits arrives' o c := by
  cases o with
  | done a s =>
    obtain ⟨c₁, hreach, ha⟩ := h
    obtain ⟨c₂, hreach', ha'⟩ := harrives a s c₁ ha
    exact ⟨c₂, hreach.trans hreach', ha'⟩
  | left | spent => exact h

theorem bind {e : Eval α} {k : α → Eval β} {arrives' : β → Store → Point → Prop}
    (h : Meets x fuel exits arrives (e s) c)
    (hk : ∀ a s c, arrives a s c → Meets x fuel exits arrives' (k a s) c) :
    Meets x fuel exits arrives' ((e >>= k) s) c := by
  change Meets x fuel exits arrives' (Eval.bind e k s) c
  unfold Eval.bind
  cases he : e s with
  | done a t =>
    rw [he] at h
    obtain ⟨c', hreach, ha⟩ := h
    exact of_reaches hreach (hk a t c' ha)
  | left exit t => rw [he] at h; exact h
  | spent => rw [he] at h; exact h

/-- A loop keeps what each of its rounds keeps. A round that ends takes a step more, so that the run
lasts as long as there are rounds. -/
theorem repeatWhile {condition body : Word → Eval Word} {keeps arrives : Word → Store → Point → Prop}
    {k : Nat} (hk : k ≤ fuel)
    (hround : ∀ w s c, keeps w s c → Meets x fuel exits'
      (fun o s c => match o with
        | none => ∃ c', Point.Reaches x.world x.program c c' ∧ arrives 0 s c'
        | some w => ∃ c', c.step x.world x.program = .running c' ∧ keeps w s c')
      (Eval.round condition body w s) c)
    (hbroke : ∀ w s p, exits' (.broke w) s p →
      ∃ c c', p = .running c ∧ Point.Reaches x.world x.program c c' ∧ arrives w s c')
    (hleft : ∀ exit s p, (∀ w, exit ≠ .broke w) → exits' exit s p → exits exit s p)
    (h : keeps latest s c) :
    Meets x k exits arrives (Eval.repeatWhile condition body k latest s) c := by
  induction k generalizing latest s c with
  | zero => exact ⟨c, rfl⟩
  | succ k ih =>
    have hr := hround latest s c h
    unfold Eval.repeatWhile
    cases ho : Eval.round condition body latest s with
    | done a t =>
      rw [ho] at hr
      obtain ⟨c₁, hreach, h₁⟩ := hr
      cases a with
      | none =>
        obtain ⟨c₂, hreach', h₂⟩ := h₁
        exact ⟨c₂, hreach.trans hreach', h₂⟩
      | some w =>
        obtain ⟨c₂, hstep, h₂⟩ := h₁
        exact of_reaches hreach (of_step hstep (ih (by omega) h₂))
    | left exit t =>
      rw [ho] at hr
      obtain ⟨n, hn⟩ := hr
      cases exit with
      | broke w =>
        obtain ⟨c₁, c₂, hrun, hreach, h₂⟩ := hbroke w t _ hn
        exact ⟨c₂, Point.Reaches.trans ⟨n, hrun⟩ hreach, h₂⟩
      | returned | trapped | abandoned | stuck =>
        exact ⟨n, hleft _ t _ (fun _ => Exit.noConfusion) hn⟩
    | spent =>
      rw [ho] at hr
      exact Point.Outlasts.mono hr hk

end Meets

/-! ## Where evaluations go -/

/-- The run is at some code with a word in `rax`. -/
structure Arrives (x : Site) (waiting : List Word) (scopes : Scopes Nat) (rest : List Instr)
    (w : Word) (s : Store) (c : Point) : Prop where
  code : c.code = rest
  holds : Holds x waiting scopes w s c.machine

/-- The run is where it goes when an evaluation is left. When the loop is left, the words wait that
waited in front of it. -/
def Exits (x : Site) (env : Surroundings) (waiting : List Word) (scopes : Scopes Nat) :
    Exit → Store → Progress → Prop
  | .broke w, s, p => ∃ label code m, env.frame.currentLoop? = some label ∧
      Instr.codeAt label x.program = some code ∧ p = .running ⟨code, m⟩ ∧
      Holds x waiting scopes w s m
  | .returned w, s, p => ∃ rest m, p = .running ⟨.leave :: .ret :: rest, m⟩ ∧
      ∃ waiting scopes, Holds x waiting scopes w s m
  | .trapped, s, p => ∃ m, p = .ended .trapped m ∧ m.calls = s.calls
  | .abandoned, s, p => ∃ m, p = .ended .abandoned m ∧ m.calls = s.calls
  | .stuck, _, _ => False

variable {env : Surroundings} {outer : List Word}

theorem Holds.enter (h : Holds x waiting scopes latest s m) :
    Holds x waiting scopes.push latest { s with scopes := s.scopes.push } m :=
  ⟨⟨h.rbp, h.rsp, h.above, h.vars.push, h.waits, h.calls⟩, h.rax, h.filled⟩

theorem Holds.leave (h : Holds x waiting scopes latest s m) :
    Holds x waiting scopes.pop latest { s with scopes := s.scopes.pop } m :=
  ⟨⟨h.rbp, h.rsp, h.above, h.vars.pop, h.waits, h.calls⟩, h.rax, h.filled⟩

theorem Exits.leave {exit : Exit} {p : Progress} (h : Exits x env waiting scopes exit s p) :
    Exits x env waiting scopes.pop exit { s with scopes := s.scopes.pop } p := by
  cases exit with
  | broke w =>
    obtain ⟨label, code, m, hlabel, hcode, hp, hm⟩ := h
    exact ⟨label, code, m, hlabel, hcode, hp, hm.leave⟩
  | returned w =>
    obtain ⟨rest, m, hp, waiting, scopes, hm⟩ := h
    exact ⟨rest, m, hp, waiting, scopes.pop, hm.leave⟩
  | trapped | abandoned => exact h
  | stuck => exact h

/-- A scope that was opened is closed, however the evaluation ends. -/
theorem Meets.inScope {e : Eval Word} {inner : Scopes Nat} {rest : List Instr}
    (hgrows : scopes.push.Grows inner)
    (h : Meets x fuel (fun exit s p => ∃ t, scopes.push.Grows t ∧ Exits x env outer t exit s p)
      (Arrives x waiting inner rest) (e { s with scopes := s.scopes.push }) c) :
    Meets x fuel (Exits x env outer scopes) (Arrives x waiting scopes rest) (e.inScope s) c := by
  unfold Eval.inScope
  cases he : e { s with scopes := s.scopes.push } with
  | done w t =>
    rw [he] at h
    obtain ⟨c', hreach, hcode, hholds⟩ := h
    have hleave := hholds.leave
    rw [Scopes.pop_eq_of_push_grows hgrows] at hleave
    exact ⟨c', hreach, hcode, hleave⟩
  | left exit t =>
    rw [he] at h
    obtain ⟨n, u, hu, hexit⟩ := h
    have hleave := hexit.leave
    rw [Scopes.pop_eq_of_push_grows hu] at hleave
    exact ⟨n, hleave⟩
  | spent =>
    rw [he] at h
    exact h

/-! ## Values leave the scopes alone -/

mutual

theorem Laid.scopes_eq {f g : Frame} {e : Expr} (hne : f.scopes.chain ≠ []) (h : Laid f e g)
    (hread : e.ValueRead) : g.scopes = f.scopes := by
  have hall : e.StatementRead := hread.everywhere
  cases h with
  | literal | var | brk => rfl
  | call h => exact h.scopes_eq hne (hall.child (by simp))
  | block hb hr =>
    have hg := hb.grows (List.cons_ne_nil _ _)
    exact Scopes.pop_eq_of_push_grows (hg.trans (hr.grows hg.scopes.ne_nil)).scopes
  | bind => exact absurd hread.notBind (by simp [Expr.isBind])
  | assign hv | unary hv | group hv | ret hv =>
    exact hv.scopes_eq hne (hall.child (by simp) _ (by simp [Expr.children]))
  | binary hl hr =>
    have hg := hl.scopes_eq hne (hall.child (by simp) _ (by simp [Expr.children]))
    rw [← hg] at hne ⊢
    exact hr.scopes_eq hne (hall.child (by simp) _ (by simp [Expr.children]))
  | branch hc ht hf =>
    have hg := hc.scopes_eq hne (hall.child (by simp) _ (by simp [Expr.children]))
    rw [← hg] at hne ⊢
    have hh := ht.scopes_eq hne (hall.child (by simp) _ (by simp [Expr.children]))
    rw [← hh] at hne ⊢
    exact hf.scopes_eq hne fun d hd => hall.child (by simp) d (by simp_all [Expr.children])
  | loop hc hb =>
    have hg := hc.scopes_eq hne (hall.child (by simp) _ (by simp [Expr.children]))
    rw [← hg] at hne ⊢
    exact hb.scopes_eq hne (hall.child (by simp) _ (by simp [Expr.children]))

theorem LaidAll.scopes_eq {f g : Frame} {es : List Expr} (hne : f.scopes.chain ≠ [])
    (h : LaidAll f es g) (hread : ∀ e ∈ es, e.ValueRead) : g.scopes = f.scopes := by
  cases h with
  | nil => rfl
  | cons he hes =>
    have hg := he.scopes_eq hne (hread _ List.mem_cons_self)
    rw [← hg] at hne ⊢
    exact hes.scopes_eq hne fun e hmem => hread e (List.mem_cons_of_mem _ hmem)

theorem LaidOpt.scopes_eq {f g : Frame} {o : Option Expr} (hne : f.scopes.chain ≠ [])
    (h : LaidOpt f o g) (hread : ∀ e ∈ o.toList, e.ValueRead) : g.scopes = f.scopes := by
  cases h with
  | none => rfl
  | some h => exact h.scopes_eq hne (hread _ (by simp))

end

/-! ## Constructs -/

theorem suffix_right {a b program : List α} (h : a ++ b <:+ program) : b <:+ program :=
  (List.suffix_append a b).trans h

theorem suffix_tail {i : α} {b program : List α} (h : i :: b <:+ program) : b <:+ program :=
  (List.suffix_cons i b).trans h

theorem Holds.arrives (h : Holds x waiting scopes latest s m) {rest : List Instr}
    {exits : Exit → Store → Progress → Prop} :
    Meets x fuel exits (Arrives x waiting scopes rest) (.done latest s) ⟨rest, m⟩ :=
  ⟨_, .refl _, rfl, h⟩

theorem Holds.push (h : Holds x waiting scopes latest s m) (rest : List Instr) :
    ∃ m', Point.Reaches x.world x.program ⟨.push .rax :: rest, m⟩ ⟨rest, m'⟩ ∧
      Holds x (latest :: waiting) scopes latest s m' := by
  obtain ⟨m', hexec, hstands, hfilled, hregs⟩ := h.toStands.push rfl h.rax
  exact ⟨m', .exec hexec, hstands, (hregs _ (by decide)).trans h.rax, hfilled.trans h.filled⟩

/-- Both operands are taken from the stack, and the operator makes a word of them. -/
theorem Holds.binary {left right : Word} (h : Holds x (right :: waiting) scopes left s m)
    (op : BinaryOp) (rest : List Instr) :
    Meets x fuel (Exits x env outer scopes) (Arrives x waiting scopes rest)
      (Eval.orLeave .trapped (op.apply left right) s)
      ⟨.push .rax :: .pop .rax :: .pop .rbx :: (op.code ++ rest), m⟩ := by
  obtain ⟨m₁, hreach₁, h₁⟩ := h.push (.pop .rax :: .pop .rbx :: (op.code ++ rest))
  obtain ⟨m₂, hexec₂, h₂, hrax₂, -, hfilled₂⟩ := h₁.toStands.pop (r := .rax) rfl (by decide) (by decide)
  obtain ⟨m₃, hexec₃, h₃, hrbx, hother, hfilled₃⟩ := h₂.pop (r := .rbx) rfl (by decide) (by decide)
  have hrax : m₃.regs .rax = .word left := (hother .rax (by decide) (by decide)).trans hrax₂
  have hfilled : m₃.filled = 0 := by
    rw [hfilled₃, if_neg (by decide), hfilled₂, if_neg (by decide), h₁.filled]
  have hop := @BinaryOp.reaches_code x.world x.program op m₃ left right hrax hrbx rest
  refine Meets.of_reaches (hreach₁.trans ((Point.Reaches.exec hexec₂).trans (.exec hexec₃))) ?_
  cases hw : op.apply left right with
  | some w =>
    rw [hw] at hop
    obtain ⟨m', hreach', hrax', hsame⟩ := hop
    exact ⟨_, hreach', rfl, h₃.same hsame, hrax', hsame.filled.trans hfilled⟩
  | none =>
    rw [hw] at hop
    obtain ⟨n, m', hrun, hcalls⟩ := hop
    exact ⟨n, m', hrun, hcalls.trans h₃.calls⟩

/-- The arguments are taken from the stack, and the call is made. -/
theorem Stands.callWith {words : List Word} (h : Stands x (words.reverse ++ waiting) scopes s m)
    (hfilled : m.filled = 0) {pops : List Instr} (hp : popArguments words.length = .ok pops)
    (callee : String) (external : Bool) (rest : List Instr) :
    Meets x fuel (Exits x env outer scopes) (Arrives x waiting scopes rest)
      (Eval.call x.world callee words s)
      ⟨pops ++ .mov (.imm 0) Reg.rax :: .call callee external :: rest, m⟩ := by
  obtain ⟨m₁, hreach, h₁, hfilled₁, hwords, -⟩ := h.takeArguments hp
    (.mov (.imm 0) Reg.rax :: .call callee external :: rest)
  rw [hfilled, Nat.zero_add] at hfilled₁
  have hcall := h₁.call hfilled₁ hwords callee external rest
  refine Meets.of_reaches hreach ?_
  unfold Eval.call
  dsimp only at hcall ⊢
  cases hw : x.world.answer (⟨callee, words⟩ :: s.calls) with
  | some w =>
    rw [hw] at hcall
    obtain ⟨m', hreach', h'⟩ := hcall
    exact ⟨_, hreach', rfl, h'⟩
  | none =>
    rw [hw] at hcall
    obtain ⟨n, m', hrun, hcalls⟩ := hcall
    exact ⟨n, m', hrun, hcalls⟩

/-- A label is passed. -/
theorem Point.Reaches.label {world : World} {program rest : List Instr} {name : String} :
    Point.Reaches world program ⟨.label name :: rest, m⟩ ⟨rest, m⟩ := .exec rfl

theorem Holds.brk (h : Holds x waiting scopes latest s m) (hx : x.Suits env) {label : String}
    (hlabel : env.frame.currentLoop? = some label) (rest : List Instr) :
    ∃ n, Exits x env waiting scopes (.broke latest) s
      (Point.run x.world x.program n ⟨.jmp label :: rest, m⟩) := by
  obtain ⟨code, hcode⟩ := hx.loop label hlabel
  have hstep : Point.step x.world x.program ⟨.jmp label :: rest, m⟩ = .running ⟨code, m⟩ := by
    simp only [Point.step, Machine.jump, hcode]
  exact ⟨1, label, code, m, hlabel, hcode, Point.run_of_step hstep 0, h⟩

/-- A loop has an end to which its `break`s go. -/
theorem Site.Suits.inLoop (hx : x.Suits env) {label : String} {rest : List Instr}
    (hsuffix : .label label :: rest <:+ x.program) : x.Suits (env.inLoop label) := by
  refine ⟨hx.nodup, hx.offset, ?_⟩
  rintro _ ⟨⟩
  exact ⟨_, Instr.codeAt_of_suffix hx.nodup hsuffix⟩

/-- When a loop is left, the run is at its end. -/
theorem Exits.of_broke (hx : x.Suits env) {label : String} {rest : List Instr} {p : Progress}
    (hsuffix : .label label :: rest <:+ x.program)
    (h : Exits x (env.inLoop label) waiting scopes (.broke latest) s p) :
    ∃ c c', p = .running c ∧ Point.Reaches x.world x.program c c' ∧
      Arrives x waiting scopes rest latest s c' := by
  obtain ⟨_, code, m, ⟨⟩, hcode, hp, hm⟩ := h
  rw [Instr.codeAt_of_suffix hx.nodup hsuffix] at hcode
  cases hcode
  exact ⟨_, _, hp, .label, rfl, hm⟩

/-- What leaves more than a loop does not depend on the loop. -/
theorem Exits.of_ne_broke {env' : Surroundings} {waiting' : List Word} {exit : Exit} {p : Progress}
    (hexit : ∀ w, exit ≠ .broke w) (h : Exits x env' waiting' scopes exit s p) :
    Exits x env waiting scopes exit s p := by
  cases exit with
  | broke w => exact absurd rfl (hexit w)
  | returned | trapped | abandoned | stuck => exact h

/-- A branch goes one of two ways, and both lead to its end. -/
theorem Holds.branch {onTrue onFalse : Eval Word} {t f rest : List Instr}
    {elseLabel branchEnd : String} (h : Holds x waiting scopes latest s m)
    (hnodup : (Instr.labels x.program).Nodup)
    (hsuffix : t ++ .jmp branchEnd :: .label elseLabel :: (f ++ .label branchEnd :: rest) <:+ x.program)
    (htrue : ∀ m, Holds x waiting scopes latest s m →
      Meets x fuel (Exits x env outer scopes)
        (Arrives x waiting scopes (.jmp branchEnd :: .label elseLabel :: (f ++ .label branchEnd :: rest)))
        (onTrue s) ⟨t ++ .jmp branchEnd :: .label elseLabel :: (f ++ .label branchEnd :: rest), m⟩)
    (hfalse : ∀ m, Holds x waiting scopes latest s m →
      Meets x fuel (Exits x env outer scopes) (Arrives x waiting scopes (.label branchEnd :: rest))
        (onFalse s) ⟨f ++ .label branchEnd :: rest, m⟩) :
    Meets x fuel (Exits x env outer scopes) (Arrives x waiting scopes rest)
      ((if latest = 0 then onFalse else onTrue) s)
      ⟨.cmp (.imm 0) Reg.rax :: .je elseLabel ::
        (t ++ .jmp branchEnd :: .label elseLabel :: (f ++ .label branchEnd :: rest)), m⟩ := by
  have helse := suffix_tail (suffix_right hsuffix)
  have hend := suffix_right (suffix_tail helse)
  obtain ⟨m₁, h₁, hreach⟩ := h.test hnodup helse
  refine Meets.of_reaches hreach ?_
  by_cases hzero : latest = 0
  · rw [if_pos hzero, if_pos hzero]
    refine Meets.of_reaches .label ((hfalse m₁ h₁).onward ?_)
    rintro w s ⟨_, m⟩ ⟨rfl, h₂⟩
    exact ⟨_, .label, rfl, h₂⟩
  · rw [if_neg hzero, if_neg hzero]
    refine (htrue m₁ h₁).onward ?_
    rintro w s ⟨_, m⟩ ⟨rfl, h₂⟩
    exact ⟨_, (Point.Reaches.of_step (Point.step_jmp hnodup hend)).trans .label, rfl, h₂⟩

/-- A loop goes round until its condition is zero or a `break` leaves it. -/
theorem Holds.loop {condition body : Word → Eval Word} {c b rest : List Instr}
    {loopStart loopEnd : String} (h : Holds x waiting scopes latest s m) (hx : x.Suits env)
    (hsuffix : .label loopStart :: (c ++ .cmp (.imm 0) Reg.rax :: .je loopEnd ::
      (b ++ .jmp loopStart :: .label loopEnd :: rest)) <:+ x.program)
    (hcondition : ∀ w s m, Holds x waiting scopes w s m →
      Meets x fuel (Exits x (env.inLoop loopEnd) waiting scopes)
        (Arrives x waiting scopes (.cmp (.imm 0) Reg.rax :: .je loopEnd ::
          (b ++ .jmp loopStart :: .label loopEnd :: rest))) (condition w s)
        ⟨c ++ .cmp (.imm 0) Reg.rax :: .je loopEnd :: (b ++ .jmp loopStart :: .label loopEnd :: rest), m⟩)
    (hbody : ∀ w s m, Holds x waiting scopes w s m →
      Meets x fuel (Exits x (env.inLoop loopEnd) waiting scopes)
        (Arrives x waiting scopes (.jmp loopStart :: .label loopEnd :: rest)) (body w s)
        ⟨b ++ .jmp loopStart :: .label loopEnd :: rest, m⟩) :
    Meets x fuel (Exits x env outer scopes) (Arrives x waiting scopes rest)
      (Eval.repeatWhile condition body fuel latest s)
      ⟨.label loopStart :: (c ++ .cmp (.imm 0) Reg.rax :: .je loopEnd ::
        (b ++ .jmp loopStart :: .label loopEnd :: rest)), m⟩ := by
  have hend := suffix_tail (suffix_right (suffix_tail (suffix_tail (suffix_right (suffix_tail hsuffix)))))
  have hstart : Arrives x waiting scopes (.label loopStart :: (c ++ .cmp (.imm 0) Reg.rax ::
    .je loopEnd :: (b ++ .jmp loopStart :: .label loopEnd :: rest))) latest s ⟨_, m⟩ := ⟨rfl, h⟩
  refine Meets.repeatWhile (Nat.le_refl fuel) ?_ (fun w s p => Exits.of_broke hx hend)
    (fun exit s p => Exits.of_ne_broke) hstart
  rintro w s ⟨_, m⟩ ⟨rfl, h⟩
  refine Meets.of_reaches .label (Meets.bind (hcondition w s m h) ?_)
  rintro w s ⟨_, m⟩ ⟨rfl, h₁⟩
  obtain ⟨m₂, h₂, hreach⟩ := h₁.test hx.nodup hend
  refine Meets.of_reaches hreach ?_
  by_cases hzero : w = 0
  · subst hzero
    rw [if_pos rfl, if_pos rfl]
    exact ⟨_, .refl _, _, .label, rfl, h₂⟩
  · rw [if_neg hzero, if_neg hzero]
    refine Meets.bind (hbody w s m₂ h₂) ?_
    rintro w s ⟨_, m⟩ ⟨rfl, h₃⟩
    exact ⟨_, .refl _, _, Point.step_jmp hx.nodup hsuffix, rfl, h₃⟩
/-! ## Where the code of an expression stands -/

/-- Where the code of an expression stands. If no word was put on the stack inside the loop around
it, the words that wait are those that waited in front of that loop. -/
structure Site.Context (x : Site) (env : Surroundings) (clear : Bool) (waiting outer : List Word)
    (f : Frame) : Prop where
  suits : x.Suits env
  unmoved : clear = true → waiting = outer
  regular : f.Regular
  nonempty : f.scopes.chain ≠ []

/-- An expression is as it was written, its literals are typed, and its `break`s leave no word
behind. -/
structure Expr.Sound (clear : Bool) (e : Expr) : Prop where
  read : e.StatementRead
  typed : e.Everywhere Expr.LiteralTyped
  clear : e.breaksClear clear = true

theorem Expr.Sound.child {clear inner : Bool} {e c : Expr} (h : e.Sound clear) (hc : c ∈ e.children)
    (hclear : c.breaksClear inner = true) : c.Sound inner :=
  ⟨(Expr.everywhere_iff.1 h.read).2 c hc, (Expr.everywhere_iff.1 h.typed).2 c hc, hclear⟩

namespace Site.Context

variable {clear : Bool} {f g : Frame}

theorem grows (h : x.Context env clear waiting outer f) (hg : f.Grows g) :
    x.Context env clear waiting outer g :=
  ⟨h.suits, h.unmoved, hg.regular h.regular, hg.scopes.ne_nil⟩

/-- Behind a value, what is visible is the same. -/
theorem behind {e : Expr} (h : x.Context env clear waiting outer f) (hl : Laid f e g)
    (hread : e.ValueRead) : g.scopes = f.scopes ∧ x.Context env clear waiting outer g :=
  ⟨hl.scopes_eq h.nonempty hread, h.grows (hl.grows h.nonempty)⟩

theorem enter (h : x.Context env clear waiting outer f) :
    x.Context env clear waiting outer f.enter :=
  ⟨h.suits, h.unmoved, h.regular.enter, List.cons_ne_nil _ _⟩

/-- While a word waits, no `break` may leave the loop. -/
theorem pushed (h : x.Context env clear waiting outer f) (w : Word) :
    x.Context env false (w :: waiting) outer f :=
  ⟨h.suits, by simp, h.regular, h.nonempty⟩

/-- What waits in front of a loop is what its `break`s are to find. -/
theorem inLoop (h : x.Context env clear waiting outer f) {label : String} {rest : List Instr}
    (hsuffix : .label label :: rest <:+ x.program) :
    x.Context (env.inLoop label) true waiting waiting f :=
  ⟨h.suits.inLoop hsuffix, fun _ => rfl, h.regular, h.nonempty⟩

end Site.Context

/-! ## Expressions -/

/-- The run of the code of an expression goes where the evaluation of the expression goes. -/
def Expr.Followed (x : Site) (fuel : Nat) (e : Expr) : Prop :=
  ∀ ⦃env clear waiting outer f g l l' code rest latest s m⦄, x.Context env clear waiting outer f →
    e.Sound clear → Laid f e g → Emits env l e code l' → code ++ rest <:+ x.program →
    Holds x waiting f.scopes latest s m →
    Meets x fuel (Exits x env outer f.scopes) (Arrives x waiting g.scopes rest)
      (e.eval x.world fuel latest s) ⟨code ++ rest, m⟩

section
variable {clear : Bool} {f g : Frame} {l l' : Labels} {code rest : List Instr} {es : List Expr}

/-- The run of the code of arguments leaves their words on the stack. -/
theorem EmitsArguments.meets (ih : ∀ e ∈ es, e.Followed x fuel)
    (hc : x.Context env clear waiting outer f) (hread : ∀ e ∈ es, e.ValueRead)
    (htyped : ∀ e ∈ es, e.Everywhere Expr.LiteralTyped)
    (hclear : argumentsBreakClear clear es = true) (hlaid : LaidAll f es g)
    (hcode : EmitsArguments env l es code l') (hsuffix : code ++ rest <:+ x.program)
    (h : Holds x waiting f.scopes latest s m) :
    Meets x fuel (Exits x env outer f.scopes)
      (fun words s c => c.code = rest ∧ words.length = es.length ∧
        Stands x (words.reverse ++ waiting) f.scopes s c.machine ∧ c.machine.filled = 0)
      (evalArguments x.world fuel latest es s) ⟨code ++ rest, m⟩ := by
  induction es generalizing clear waiting f l code latest s m with
  | nil =>
    cases hcode
    exact ⟨_, .refl _, rfl, rfl, h.toStands, h.filled⟩
  | cons e es ihes =>
    cases hcode with | cons he hes =>
    cases hlaid with | cons hle hles =>
    rw [argumentsBreakClear, Bool.and_eq_true] at hclear
    obtain ⟨hih, hihs⟩ := List.forall_mem_cons.1 ih
    obtain ⟨hv, hvs⟩ := List.forall_mem_cons.1 hread
    obtain ⟨ht, hts⟩ := List.forall_mem_cons.1 htyped
    obtain ⟨hscopes, hg⟩ := hc.behind hle hv
    rw [evalArguments]
    simp only [List.append_assoc, List.cons_append] at hsuffix ⊢
    refine Meets.bind (hih hc ⟨hv.everywhere, ht, hclear.1⟩ hle he hsuffix h) ?_
    rintro w s ⟨_, m⟩ ⟨rfl, h'⟩
    obtain ⟨m', hreach, h''⟩ := h'.push (_ ++ rest)
    have hrest := ihes hihs (hg.pushed w) hvs hts hclear.2 hles hes
      (suffix_tail (suffix_right hsuffix)) h''
    rw [hscopes] at hrest
    refine Meets.of_reaches hreach (Meets.bind hrest ?_)
    rintro words s c ⟨hcode, hlength, hstands, hfilled⟩
    refine ⟨c, .refl _, hcode, by rw [List.length_cons, hlength, List.length_cons], ?_, hfilled⟩
    rwa [List.reverse_cons, List.append_assoc]

/-- The run of the code of statements goes where their evaluation goes. -/
theorem EmitsAll.meets (ih : ∀ e ∈ es, e.Followed x fuel)
    (hc : x.Context env clear waiting outer f) (hes : ∀ e ∈ es, e.Sound clear)
    (hlaid : LaidAll f es g) (hcode : EmitsAll env l es code l')
    (hsuffix : code ++ rest <:+ x.program) (h : Holds x waiting f.scopes latest s m) :
    Meets x fuel (fun exit s p => ∃ t, f.scopes.Grows t ∧ Exits x env outer t exit s p)
      (Arrives x waiting g.scopes rest) (evalAll x.world fuel latest es s) ⟨code ++ rest, m⟩ := by
  induction es generalizing f l code latest s m with
  | nil =>
    cases hcode
    cases hlaid
    exact h.arrives
  | cons e es ihes =>
    cases hcode with | cons he hcodes =>
    cases hlaid with | cons hle hles =>
    obtain ⟨hih, hihs⟩ := List.forall_mem_cons.1 ih
    obtain ⟨hsound, hsounds⟩ := List.forall_mem_cons.1 hes
    have hg := hle.grows hc.nonempty
    rw [evalAll]
    rw [List.append_assoc] at hsuffix ⊢
    refine Meets.bind (Meets.mono (hih hc hsound hle he hsuffix h)
      (fun exit s p hexit => ⟨_, .refl hc.nonempty, hexit⟩)) ?_
    rintro w s ⟨_, m⟩ ⟨rfl, h'⟩
    refine Meets.mono (ihes hihs (hc.grows hg) hsounds hles hcodes (suffix_right hsuffix) h') ?_
    rintro exit s p ⟨t, ht, hexit⟩
    exact ⟨t, hg.scopes.trans ht, hexit⟩

/-- The run of the code of an expression that may be missing goes where its evaluation goes. -/
theorem EmitsOpt.meets {o : Option Expr} (ih : ∀ e ∈ o.toList, e.Followed x fuel)
    (hc : x.Context env clear waiting outer f) (ho : ∀ e ∈ o.toList, e.Sound clear)
    (hlaid : LaidOpt f o g) (hcode : EmitsOpt env l o code l')
    (hsuffix : code ++ rest <:+ x.program) (h : Holds x waiting f.scopes latest s m) :
    Meets x fuel (Exits x env outer f.scopes) (Arrives x waiting g.scopes rest)
      (evalOpt x.world fuel latest o s) ⟨code ++ rest, m⟩ := by
  cases hcode with
  | none =>
    cases hlaid
    obtain ⟨m', hreach, h'⟩ := h.unit rest
    exact Meets.of_reaches hreach h'.arrives
  | some he =>
    cases hlaid with | some hle =>
    exact ih _ (by simp) hc (ho _ (by simp)) hle he hsuffix h

end

namespace Expr.Followed

variable {n : Node}

theorem literal {text : String} {constant : Option String} :
    (Expr.literal n text constant).Followed x fuel := by
  intro env clear waiting outer f g l l' code rest latest s m hc he hlaid hcode hsuffix h
  cases hcode with | literal hcode =>
  cases hlaid with | literal hs =>
  obtain ⟨w, m', hw, hreach, h'⟩ := h.literal (he.typed _ .here) hs hcode rest
  rw [Expr.eval, hw]
  exact Meets.of_reaches hreach h'.arrives

theorem var {i : Ident} : (Expr.var n i).Followed x fuel := by
  intro env clear waiting outer f g l l' code rest latest s m hc he hlaid hcode hsuffix h
  cases hcode with | var hplace =>
  cases hlaid with | var hk hs =>
  obtain ⟨-, rfl⟩ := hc.suits.slotOf hs hplace
  obtain ⟨w, hw, m', hexec, h'⟩ := h.read hk
  rw [Expr.eval, Eval.read, hw]
  exact Meets.of_reaches (.exec hexec) h'.arrives

theorem call {callee : Ident} {arguments : List Expr} (ih : ∀ e ∈ arguments, e.Followed x fuel) :
    (Expr.call n callee arguments).Followed x fuel := by
  intro env clear waiting outer f g l l' code rest latest s m hc he hlaid hcode hsuffix h
  cases hcode with | call hmax ha hp =>
  cases hlaid with | call hargs =>
  have hread := he.read.child (by simp)
  rw [hargs.scopes_eq hc.nonempty hread, Expr.eval]
  simp only [List.append_assoc, List.cons_append, List.nil_append] at hsuffix ⊢
  refine Meets.bind (ha.meets ih hc hread (Expr.everywhere_iff.1 he.typed).2 he.clear hargs
    hsuffix h) ?_
  rintro words s ⟨_, m⟩ ⟨rfl, hlength, hstands, hfilled⟩
  rw [← hlength] at hp
  exact hstands.callWith hfilled hp _ _ rest

theorem block {body : List Expr} {result : Option Expr} (ihb : ∀ e ∈ body, e.Followed x fuel)
    (ihr : ∀ e ∈ result.toList, e.Followed x fuel) :
    (Expr.block n body result).Followed x fuel := by
  intro env clear waiting outer f g l l' code rest latest s m hc he hlaid hcode hsuffix h
  cases hcode with | block hb hr =>
  cases hlaid with | block hlb hlr =>
  have hclear := Expr.breaksClear_block he.clear
  have hbody : ∀ e ∈ body, e.Sound clear := fun e hmem =>
    he.child (by simp [Expr.children, hmem]) (hclear.1 e hmem)
  have hresult : ∀ e ∈ result.toList, e.Sound clear := fun e hmem =>
    he.child (by simp_all [Expr.children]) (hclear.2 e hmem)
  have hg := hlb.grows (List.cons_ne_nil _ _)
  have hgrows := (hg.trans (hlr.grows hg.scopes.ne_nil)).scopes
  rw [List.append_assoc] at hsuffix ⊢
  rw [Expr.eval]
  unfold Frame.leave
  rw [Scopes.pop_eq_of_push_grows hgrows]
  refine Meets.inScope hgrows (Meets.bind (hb.meets ihb hc.enter hbody hlb hsuffix h.enter) ?_)
  rintro w s ⟨_, m⟩ ⟨rfl, h'⟩
  refine Meets.mono (hr.meets ihr (hc.enter.grows hg) hresult hlr (suffix_right hsuffix) h') ?_
  exact fun exit s p hexit => ⟨_, hg.scopes, hexit⟩

theorem bind {i : Ident} {type : TypeRef} {value : Expr} (ih : value.Followed x fuel) :
    (Expr.bind n i type value).Followed x fuel := by
  intro env clear waiting outer f g l l' code rest latest s m hc he hlaid hcode hsuffix h
  cases hcode with | bind hcv hplace =>
  cases hlaid with | bind hv hk hs =>
  obtain ⟨hcount, rfl⟩ := hc.suits.slotOf hs hplace
  have hregular := (hv.grows hc.nonempty).regular hc.regular
  rw [Expr.eval]
  simp only [List.append_assoc, List.cons_append, List.nil_append] at hsuffix ⊢
  refine Meets.bind (ih hc (he.child (by simp [Expr.children]) he.clear) hv hcv hsuffix h) ?_
  rintro w s ⟨_, m⟩ ⟨rfl, h'⟩
  exact Meets.of_reaches (.exec (h'.exec_store rfl h'.rax _)) (h'.declare hregular hk hcount).arrives

theorem assign {i : Ident} {value : Expr} (ih : value.Followed x fuel) :
    (Expr.assign n i value).Followed x fuel := by
  intro env clear waiting outer f g l l' code rest latest s m hc he hlaid hcode hsuffix h
  cases hcode with | assign hcv hplace =>
  cases hlaid with | assign hv hk hs =>
  obtain ⟨hcount, rfl⟩ := hc.suits.slotOf hs hplace
  have hscopes := hv.scopes_eq hc.nonempty (he.read.child (by simp) _ (List.mem_singleton_self _))
  rw [hscopes] at hk ⊢
  rw [Expr.eval]
  simp only [List.append_assoc, List.cons_append, List.nil_append] at hsuffix ⊢
  refine Meets.bind (ih hc (he.child (by simp [Expr.children]) he.clear) hv hcv hsuffix h) ?_
  rintro w s ⟨_, m⟩ ⟨rfl, h'⟩
  rw [hscopes] at h'
  rw [Eval.bind_of_done (h'.eval_assign hk w)]
  exact Meets.of_reaches (.exec (h'.exec_store rfl h'.rax _))
    (h'.assign hc.regular hk hcount).arrives

theorem binary {op : BinaryOp} {left right : Expr} (ihl : left.Followed x fuel)
    (ihr : right.Followed x fuel) : (Expr.binary n op left right).Followed x fuel := by
  intro env clear waiting outer f g l l' code rest latest s m hc he hlaid hcode hsuffix h
  cases hcode with | binary hcr hcl =>
  cases hlaid with | binary hl hr =>
  have hclear := he.clear
  rw [Expr.breaksClear, Bool.and_eq_true] at hclear
  have hread := he.read.child (by simp)
  obtain ⟨hgs, hg⟩ := hc.behind hl (hread _ List.mem_cons_self)
  obtain ⟨hhs, -⟩ := hg.behind hr (hread _ (by simp [Expr.children]))
  rw [Expr.eval]
  simp only [List.append_assoc, List.cons_append] at hsuffix ⊢
  rw [hhs, hgs]
  -- The right operand is computed first, with what is visible in front of the left one.
  rw [← hgs] at h
  have hright := ihr hg (he.child (by simp [Expr.children]) hclear.1) hr hcr hsuffix h
  rw [hhs, hgs] at hright
  refine Meets.bind hright ?_
  rintro r s ⟨_, m⟩ ⟨rfl, h₁⟩
  obtain ⟨m₁, hreach, h₁⟩ := h₁.push _
  have hleft := ihl (hc.pushed r) (he.child (by simp [Expr.children]) hclear.2) hl hcl
    (suffix_tail (suffix_right hsuffix)) h₁
  rw [hgs] at hleft
  refine Meets.of_reaches hreach (Meets.bind hleft ?_)
  rintro l s ⟨_, m⟩ ⟨rfl, h₂⟩
  exact h₂.binary _ rest

theorem unary {op : UnaryOp} {operand : Expr} (ih : operand.Followed x fuel) :
    (Expr.unary n op operand).Followed x fuel := by
  intro env clear waiting outer f g l l' code rest latest s m hc he hlaid hcode hsuffix h
  cases hcode with | unary hcode =>
  cases hlaid with | unary hl =>
  rw [Expr.eval]
  rw [List.append_assoc] at hsuffix ⊢
  refine Meets.bind (ih hc (he.child (by simp [Expr.children]) he.clear) hl hcode hsuffix h) ?_
  rintro w s ⟨_, m⟩ ⟨rfl, h'⟩
  obtain ⟨m', hreach, hrax, hsame⟩ := UnaryOp.reaches_code _ h'.rax rest
  exact Meets.of_reaches hreach (h'.same hsame hrax).arrives

theorem group {inner : Expr} (ih : inner.Followed x fuel) :
    (Expr.group n inner).Followed x fuel := by
  intro env clear waiting outer f g l l' code rest latest s m hc he hlaid hcode hsuffix h
  cases hcode with | group hcode =>
  cases hlaid with | group hl =>
  rw [Expr.eval_group]
  exact ih hc (he.child (by simp [Expr.children]) he.clear) hl hcode hsuffix h

theorem branch {condition onTrue : Expr} {onFalse : Option Expr}
    (ihc : condition.Followed x fuel) (iht : onTrue.Followed x fuel)
    (ihf : ∀ e ∈ onFalse.toList, e.Followed x fuel) :
    (Expr.branch n condition onTrue onFalse).Followed x fuel := by
  intro env clear waiting outer f g l l' code rest latest s m hc he hlaid hcode hsuffix h
  cases hcode with | branch hcc hct hcf =>
  cases hlaid with | branch hlc hlt hlf =>
  have hclear := he.clear
  rw [Expr.breaksClear, Bool.and_eq_true, Bool.and_eq_true] at hclear
  have hread := he.read.child (by simp)
  obtain ⟨hgs, hg⟩ := hc.behind hlc (hread _ List.mem_cons_self)
  obtain ⟨hhs, hh⟩ := hg.behind hlt (hread _ (by simp [Expr.children]))
  have his := hlf.scopes_eq hh.nonempty fun d hd => hread d (by simp_all [Expr.children])
  rw [Expr.eval]
  simp only [List.append_assoc, List.cons_append, List.nil_append] at hsuffix ⊢
  have htail := suffix_tail (suffix_tail (suffix_right hsuffix))
  have hcondition := ihc hc (he.child (by simp [Expr.children]) hclear.1.1) hlc hcc hsuffix h
  rw [← hgs] at hcondition
  rw [his, hhs, ← hgs]
  refine Meets.bind hcondition ?_
  rintro w s ⟨_, m⟩ ⟨rfl, h₁⟩
  refine h₁.branch hc.suits.nodup htail (fun m h₂ => ?_) (fun m h₂ => ?_)
  · have htrue := iht hg (he.child (by simp [Expr.children]) hclear.1.2) hlt hct htail h₂
    rwa [hhs] at htrue
  · rw [← hhs] at h₂ ⊢
    have hfalse := hcf.meets ihf hh (fun d hd => he.child (by simp_all [Expr.children])
      (optBreaksClear_of_mem hclear.2 d hd)) hlf (suffix_tail (suffix_tail (suffix_right htail))) h₂
    rwa [his] at hfalse

theorem ret {value : Expr} (ih : value.Followed x fuel) : (Expr.ret n value).Followed x fuel := by
  intro env clear waiting outer f g l l' code rest latest s m hc he hlaid hcode hsuffix h
  cases hcode with | ret hcode =>
  cases hlaid with | ret hl =>
  rw [Expr.eval]
  simp only [List.append_assoc, List.cons_append, List.nil_append] at hsuffix ⊢
  refine Meets.bind (ih hc (he.child (by simp [Expr.children]) he.clear) hl hcode hsuffix h) ?_
  rintro w s ⟨_, m⟩ ⟨rfl, h'⟩
  exact ⟨0, _, _, rfl, _, _, h'⟩

theorem loop {condition body : Expr} (ihc : condition.Followed x fuel)
    (ihb : body.Followed x fuel) : (Expr.loop n condition body).Followed x fuel := by
  intro env clear waiting outer f g l l' code rest latest s m hc he hlaid hcode hsuffix h
  cases hcode with | loop hcc hcb =>
  cases hlaid with | loop hlc hlb =>
  have hclear := he.clear
  rw [Expr.breaksClear, Bool.and_eq_true] at hclear
  have hread := he.read.child (by simp)
  rw [Expr.eval]
  simp only [List.append_assoc, List.cons_append, List.nil_append] at hsuffix ⊢
  have htail := suffix_tail (suffix_tail (suffix_right (suffix_tail hsuffix)))
  have hinner := hc.inLoop (suffix_tail (suffix_right htail))
  obtain ⟨hgs, hg⟩ := hinner.behind hlc (hread _ List.mem_cons_self)
  obtain ⟨hhs, -⟩ := hg.behind hlb (hread _ (by simp [Expr.children]))
  rw [hhs, hgs]
  refine h.loop hc.suits hsuffix (fun w s m h₁ => ?_) (fun w s m h₁ => ?_)
  · have hcondition := ihc hinner (he.child (by simp [Expr.children]) hclear.1) hlc hcc
      (suffix_tail hsuffix) h₁
    rwa [hgs] at hcondition
  · rw [← hgs] at h₁ ⊢
    have hbody := ihb hg (he.child (by simp [Expr.children]) hclear.2) hlb hcb htail h₁
    rwa [hhs] at hbody

theorem brk : (Expr.brk n).Followed x fuel := by
  intro env clear waiting outer f g l l' code rest latest s m hc he hlaid hcode hsuffix h
  cases hcode with | brk hlabel =>
  cases hlaid
  obtain rfl := hc.unmoved he.clear
  exact h.brk hc.suits hlabel rest

end Expr.Followed

/-- Wherever the code of an expression stands, its run follows the evaluation of the expression. -/
theorem Expr.followed (x : Site) (fuel : Nat) (e : Expr) : e.Followed x fuel := by
  induction e using Expr.induction_children with
  | h e ih =>
    have hall : ∀ {c}, c ∈ e.children → c.Followed x fuel := fun hc => ih _ hc
    cases e with
    | literal => exact Followed.literal
    | var => exact Followed.var
    | call => exact Followed.call ih
    | block =>
      exact Followed.block (fun e he => hall (List.mem_append_left _ he))
        fun e he => hall (List.mem_append_right _ he)
    | bind => exact Followed.bind (hall List.mem_cons_self)
    | assign => exact Followed.assign (hall List.mem_cons_self)
    | binary => exact Followed.binary (hall List.mem_cons_self) (hall (by simp [children]))
    | unary => exact Followed.unary (hall List.mem_cons_self)
    | group => exact Followed.group (hall List.mem_cons_self)
    | branch =>
      exact Followed.branch (hall List.mem_cons_self) (hall (by simp [children]))
        fun e he => hall (by simp_all [children])
    | ret => exact Followed.ret (hall List.mem_cons_self)
    | loop => exact Followed.loop (hall List.mem_cons_self) (hall (by simp [children]))
    | brk => exact Followed.brk

end Ilang
