import Ilang.Assembly
/-!
# The code of an expression

`Emits env l e c m` says that `c` is the code of `e`, without comments, and that making it takes the
free labels from `l` to `m`. It has one rule for each kind of expression, so what a piece of code
looks like is read off by cases. Code that is made is such code (`Expr.emits_of_ok`).
-/
namespace Ilang

/-! ## Making code step by step -/

namespace Labels

/-- The label at the start of what is done if a condition does not hold. -/
def elseLabel (l : Labels) : String := l.branches.label l.branches.issued

/-- The label behind a branch. -/
def branchEnd (l : Labels) : String := l.branches.label (l.branches.issued + 1)

/-- The labels that a branch leaves free. -/
def afterBranch (l : Labels) : Labels :=
  { l with branches := { l.branches with issued := l.branches.issued + 2 } }

/-- The label before the condition of a loop. -/
def loopStart (l : Labels) : String := l.loops.label l.loops.issued

/-- The label behind a loop. -/
def loopEnd (l : Labels) : String := l.loops.label (l.loops.issued + 1)

/-- The labels that a loop leaves free. -/
def afterLoop (l : Labels) : Labels :=
  { l with loops := { l.loops with issued := l.loops.issued + 2 } }

end Labels

namespace Emit

variable {α β : Type} {l : Labels} {m : Labels}

theorem bind_apply (x : Emit α) (f : α → Emit β) (l : Labels) :
    (x >>= f) l = match x l with
      | .ok (a, m) => f a m
      | .error e => .error e := by
  show (x l >>= fun p => f p.1 p.2) = _
  cases x l <;> rfl

theorem bind_eq_ok {x : Emit α} {f : α → Emit β} {b : β} (h : (x >>= f) l = .ok (b, m)) :
    ∃ a k, x l = .ok (a, k) ∧ f a k = .ok (b, m) := by
  rw [bind_apply] at h
  cases hx : x l with
  | ok p => exact ⟨p.1, p.2, rfl, by simpa only [hx] using h⟩
  | error e => rw [hx] at h; cases h

theorem bind_lift_eq_ok {x : Except GenError α} {f : α → Emit β} {b : β}
    (h : ((liftM x : Emit α) >>= f) l = .ok (b, m)) : ∃ a, x = .ok a ∧ f a l = .ok (b, m) := by
  rw [bind_apply] at h
  cases x with
  | ok a => exact ⟨a, rfl, h⟩
  | error e => cases h

theorem branchLabels_eq_ok {f : String → String → Emit β} {b : β}
    (h : (branchLabel >>= fun x => branchLabel >>= fun y => f x y) l = .ok (b, m)) :
    f l.elseLabel l.branchEnd l.afterBranch = .ok (b, m) :=
  h

theorem loopLabels_eq_ok {f : String → String → Emit β} {b : β}
    (h : (loopLabel >>= fun x => loopLabel >>= fun y => f x y) l = .ok (b, m)) :
    f l.loopStart l.loopEnd l.afterLoop = .ok (b, m) :=
  h

theorem pure_eq_ok {a b : α} (h : (pure a : Emit α) l = .ok (b, m)) : b = a ∧ m = l := by
  cases h
  exact ⟨rfl, rfl⟩

end Emit

/-- The surroundings of what stands in a loop. -/
def Surroundings.inLoop (env : Surroundings) (endLabel : String) : Surroundings :=
  { env with frame := env.frame.pushLoop endLabel }

/-! ## Code -/

/-- Whether a line is a comment. -/
def Instr.isComment : Instr → Bool
  | comment _ => true
  | _ => false

/-- Instructions without comments. -/
def Instr.plain (is : List Instr) : List Instr := is.filter (!·.isComment)

@[simp] theorem Instr.plain_nil : plain [] = [] := rfl

@[simp] theorem Instr.plain_append (is js : List Instr) : plain (is ++ js) = plain is ++ plain js :=
  List.filter_append ..

theorem Instr.plain_cons (i : Instr) (is : List Instr) :
    plain (i :: is) = if i.isComment then plain is else i :: plain is := by
  simp [plain, List.filter_cons]
  cases i.isComment <;> rfl

@[simp] theorem Instr.plain_remark (wanted : Bool) (text : String) :
    plain (remark wanted text) = [] := by
  cases wanted <;> rfl

/-- The instructions of a piece of code without comments. -/
def Code.instructions (c : Code) : List Instr := Instr.plain c.toList

@[simp] theorem Code.instructions_append (a b : Code) :
    (a ++ b).instructions = a.instructions ++ b.instructions := by
  simp [instructions]

@[simp] theorem Code.instructions_instrs (is : List Instr) :
    (Code.instrs is).instructions = Instr.plain is := by
  simp [instructions]

theorem plain_literalCode {n : Node} {text : String} {constant : Option String} {is : List Instr}
    (h : literalCode n text constant = .ok is) : Instr.plain is = is := by
  unfold literalCode at h
  dsimp only at h
  repeat' split at h
  all_goals cases h
  all_goals rfl

theorem popArguments_succ {k : Nat} {is : List Instr} (h : popArguments (k + 1) = .ok is) :
    ∃ r pops, Convention.argumentReg k = .ok r ∧ popArguments k = .ok pops ∧ is = .pop r :: pops := by
  unfold popArguments at h
  cases hr : Convention.argumentReg k with
  | error e => rw [hr] at h; cases h
  | ok r =>
    cases hp : popArguments k with
    | error e => rw [hr, hp] at h; cases h
    | ok pops =>
      rw [hr, hp] at h
      cases h
      exact ⟨r, pops, rfl, rfl, rfl⟩

theorem plain_popArguments {k : Nat} {is : List Instr} (h : popArguments k = .ok is) :
    Instr.plain is = is := by
  induction k generalizing is with
  | zero => cases h; rfl
  | succ k ih =>
    obtain ⟨r, pops, -, hp, rfl⟩ := popArguments_succ h
    rw [Instr.plain_cons, ih hp]
    rfl

theorem storeParams_cons {frame : Frame} {index : Nat} {p : Param} {ps : List Param}
    {is : List Instr} (h : storeParams frame index (p :: ps) = .ok is) :
    ∃ r place stores, Convention.argumentReg index = .ok r ∧ frame.slotOf p.ident = .ok place ∧
      storeParams frame (index + 1) ps = .ok stores ∧ is = .mov r place :: stores := by
  unfold storeParams at h
  cases hr : Convention.argumentReg index with
  | error e => rw [hr] at h; cases h
  | ok r =>
    cases hp : frame.slotOf p.ident with
    | error e => rw [hr, hp] at h; cases h
    | ok place =>
      cases hs : storeParams frame (index + 1) ps with
      | error e => rw [hr, hp, hs] at h; cases h
      | ok stores =>
        rw [hr, hp, hs] at h
        cases h
        exact ⟨r, place, stores, rfl, rfl, rfl, rfl⟩

theorem BinaryOp.plain_code (op : BinaryOp) : Instr.plain op.code = op.code := by
  cases op <;> rfl

theorem UnaryOp.plain_code (op : UnaryOp) : Instr.plain op.code = op.code := by
  cases op <;> rfl

mutual

/-- The code of an expression. -/
inductive Emits : Surroundings → Labels → Expr → List Instr → Labels → Prop
  | literal {env l n text constant is} (h : literalCode n text constant = .ok is) :
    Emits env l (.literal n text constant) is l
  | var {env l n i place} (h : env.frame.slotOf i = .ok place) :
    Emits env l (.var n i) [.mov place Reg.rax] l
  | call {env l m n callee arguments args pops} (hmax : arguments.length ≤ Convention.maxArguments)
    (ha : EmitsArguments env l arguments args m) (hp : popArguments arguments.length = .ok pops) :
    Emits env l (.call n callee arguments)
      (args ++ (pops ++ [.mov (.imm 0) Reg.rax,
        .call callee.name (!env.functions.contains callee.name)])) m
  | block {env l m k n body result b r} (hb : EmitsAll env l body b m)
    (hr : EmitsOpt env m result r k) : Emits env l (.block n body result) (b ++ r) k
  | bind {env l m n i type value v place} (hv : Emits env l value v m)
    (h : env.frame.slotOf i = .ok place) :
    Emits env l (.bind n i type value) (v ++ [.mov Reg.rax place]) m
  | assign {env l m n i value v place} (hv : Emits env l value v m)
    (h : env.frame.slotOf i = .ok place) :
    Emits env l (.assign n i value) (v ++ [.mov Reg.rax place]) m
  | binary {env l m k n op left right lc rc} (hr : Emits env l right rc m)
    (hl : Emits env m left lc k) :
    Emits env l (.binary n op left right)
      (rc ++ .push .rax :: (lc ++ .push .rax :: .pop .rax :: .pop .rbx :: op.code)) k
  | unary {env l m n op operand c} (h : Emits env l operand c m) :
    Emits env l (.unary n op operand) (c ++ op.code) m
  | group {env l m n inner c} (h : Emits env l inner c m) : Emits env l (.group n inner) c m
  | branch {env l m k j n condition onTrue onFalse c t f} (hc : Emits env l.afterBranch condition c m)
    (ht : Emits env m onTrue t k) (hf : EmitsOpt env k onFalse f j) :
    Emits env l (.branch n condition onTrue onFalse)
      (c ++ .cmp (.imm 0) Reg.rax :: .je l.elseLabel ::
        (t ++ .jmp l.branchEnd :: .label l.elseLabel :: (f ++ [.label l.branchEnd]))) j
  | ret {env l m n value v} (h : Emits env l value v m) :
    Emits env l (.ret n value) (v ++ [.leave, .ret]) m
  | loop {env l m k n condition body c b}
    (hc : Emits (env.inLoop l.loopEnd) l.afterLoop condition c m)
    (hb : Emits (env.inLoop l.loopEnd) m body b k) :
    Emits env l (.loop n condition body)
      (.label l.loopStart :: (c ++ .cmp (.imm 0) Reg.rax :: .je l.loopEnd ::
        (b ++ [.jmp l.loopStart, .label l.loopEnd]))) k
  | brk {env l n endLabel} (h : env.frame.currentLoop? = some endLabel) :
    Emits env l (.brk n) [.jmp endLabel] l

/-- The code of expressions that follow each other. -/
inductive EmitsAll : Surroundings → Labels → List Expr → List Instr → Labels → Prop
  | nil {env l} : EmitsAll env l [] [] l
  | cons {env l m k e es c cs} (he : Emits env l e c m) (hes : EmitsAll env m es cs k) :
    EmitsAll env l (e :: es) (c ++ cs) k

/-- The code of arguments, each of which is put on the stack. -/
inductive EmitsArguments : Surroundings → Labels → List Expr → List Instr → Labels → Prop
  | nil {env l} : EmitsArguments env l [] [] l
  | cons {env l m k e es c cs} (he : Emits env l e c m) (hes : EmitsArguments env m es cs k) :
    EmitsArguments env l (e :: es) (c ++ .push .rax :: cs) k

/-- The code of an expression that may be missing. -/
inductive EmitsOpt : Surroundings → Labels → Option Expr → List Instr → Labels → Prop
  | none {env l} : EmitsOpt env l none unitCode l
  | some {env l m e c} (h : Emits env l e c m) : EmitsOpt env l (some e) c m

end

theorem Emits.of_eq {env : Surroundings} {l m : Labels} {e : Expr} {c d : List Instr}
    (h : Emits env l e c m) (hd : d = c) : Emits env l e d m :=
  hd ▸ h

mutual

/-- The code that is made for an expression is its code. -/
theorem Expr.emits_of_ok {env : Surroundings} {l m : Labels} {e : Expr} {c : Code}
    (h : e.emit env l = .ok (c, m)) : Emits env l e c.instructions m := by
  cases e with
  | literal n text constant =>
    rw [Expr.emit] at h
    obtain ⟨is, his, h₁⟩ := Emit.bind_lift_eq_ok h
    obtain ⟨rfl, rfl⟩ := Emit.pure_eq_ok h₁
    exact .of_eq (.literal his) (by simp [plain_literalCode his])
  | var n ident =>
    rw [Expr.emit] at h
    obtain ⟨place, hp, h₁⟩ := Emit.bind_lift_eq_ok h
    obtain ⟨rfl, rfl⟩ := Emit.pure_eq_ok h₁
    exact .of_eq (.var hp) (by simp [Instr.isComment, Instr.plain_cons])
  | call n callee arguments =>
    rw [Expr.emit] at h
    split at h
    · cases h
    · rename_i hmax
      obtain ⟨args, k, ha, h₁⟩ := Emit.bind_eq_ok h
      obtain ⟨pops, hp, h₂⟩ := Emit.bind_lift_eq_ok h₁
      obtain ⟨rfl, rfl⟩ := Emit.pure_eq_ok h₂
      exact .of_eq (.call (Nat.le_of_not_lt hmax) (emitsArguments_of_ok ha) hp)
        (by simp [Instr.isComment, Instr.plain_cons, plain_popArguments hp])
  | block n body result =>
    rw [Expr.emit] at h
    obtain ⟨b, k, hb, h₁⟩ := Emit.bind_eq_ok h
    obtain ⟨r, k', hr, h₂⟩ := Emit.bind_eq_ok h₁
    obtain ⟨rfl, rfl⟩ := Emit.pure_eq_ok h₂
    exact .of_eq (.block (emitsAll_of_ok hb) (emitsOpt_of_ok (Instr.plain_remark ..) hr)) (by simp)
  | bind n ident type value =>
    rw [Expr.emit] at h
    obtain ⟨v, k, hv, h₁⟩ := Emit.bind_eq_ok h
    obtain ⟨place, hp, h₂⟩ := Emit.bind_lift_eq_ok h₁
    obtain ⟨rfl, rfl⟩ := Emit.pure_eq_ok h₂
    exact .of_eq (.bind (Expr.emits_of_ok hv) hp) (by simp [Instr.isComment, Instr.plain_cons])
  | assign n target value =>
    rw [Expr.emit] at h
    obtain ⟨v, k, hv, h₁⟩ := Emit.bind_eq_ok h
    obtain ⟨place, hp, h₂⟩ := Emit.bind_lift_eq_ok h₁
    obtain ⟨rfl, rfl⟩ := Emit.pure_eq_ok h₂
    exact .of_eq (.assign (Expr.emits_of_ok hv) hp) (by simp [Instr.isComment, Instr.plain_cons])
  | binary n op left right =>
    rw [Expr.emit] at h
    obtain ⟨r, k, hr, h₁⟩ := Emit.bind_eq_ok h
    obtain ⟨lc, k', hl, h₂⟩ := Emit.bind_eq_ok h₁
    obtain ⟨rfl, rfl⟩ := Emit.pure_eq_ok h₂
    exact .of_eq (.binary (Expr.emits_of_ok hr) (Expr.emits_of_ok hl))
      (by simp [Instr.isComment, Instr.plain_cons, BinaryOp.plain_code])
  | unary n op operand =>
    rw [Expr.emit] at h
    obtain ⟨c, k, hc, h₁⟩ := Emit.bind_eq_ok h
    obtain ⟨rfl, rfl⟩ := Emit.pure_eq_ok h₁
    exact .of_eq (.unary (Expr.emits_of_ok hc)) (by simp [UnaryOp.plain_code])
  | group n inner =>
    rw [Expr.emit] at h
    exact .group (Expr.emits_of_ok h)
  | branch n condition onTrue onFalse =>
    rw [Expr.emit] at h
    obtain ⟨c, k₁, hc, h₁⟩ := Emit.bind_eq_ok (Emit.branchLabels_eq_ok h)
    obtain ⟨t, k₂, ht, h₂⟩ := Emit.bind_eq_ok h₁
    obtain ⟨f, k₃, hf, h₃⟩ := Emit.bind_eq_ok h₂
    obtain ⟨rfl, rfl⟩ := Emit.pure_eq_ok h₃
    exact .of_eq (.branch (Expr.emits_of_ok hc) (Expr.emits_of_ok ht) (emitsOpt_of_ok rfl hf))
      (by simp [Instr.isComment, Instr.plain_cons])
  | ret n value =>
    rw [Expr.emit] at h
    obtain ⟨v, k, hv, h₁⟩ := Emit.bind_eq_ok h
    obtain ⟨rfl, rfl⟩ := Emit.pure_eq_ok h₁
    exact .of_eq (.ret (Expr.emits_of_ok hv)) (by simp [Instr.isComment, Instr.plain_cons])
  | loop n condition body =>
    rw [Expr.emit] at h
    obtain ⟨c, k₁, hc, h₁⟩ := Emit.bind_eq_ok (Emit.loopLabels_eq_ok h)
    obtain ⟨b, k₂, hb, h₂⟩ := Emit.bind_eq_ok h₁
    obtain ⟨rfl, rfl⟩ := Emit.pure_eq_ok h₂
    exact .of_eq (.loop (Expr.emits_of_ok hc) (Expr.emits_of_ok hb))
      (by simp [Instr.isComment, Instr.plain_cons])
  | brk n =>
    rw [Expr.emit] at h
    cases hl : env.frame.currentLoop? with
    | some endLabel =>
      rw [hl] at h
      obtain ⟨rfl, rfl⟩ := Emit.pure_eq_ok h
      exact .of_eq (.brk hl) (by simp [Instr.isComment, Instr.plain_cons])
    | none => rw [hl] at h; cases h

theorem emitsAll_of_ok {env : Surroundings} {l m : Labels} {es : List Expr} {c : Code}
    (h : emitAll env es l = .ok (c, m)) : EmitsAll env l es c.instructions m := by
  cases es with
  | nil =>
    obtain ⟨rfl, rfl⟩ := Emit.pure_eq_ok h
    exact .nil
  | cons e es =>
    rw [emitAll] at h
    obtain ⟨first, k, he, h₁⟩ := Emit.bind_eq_ok h
    obtain ⟨others, k', hes, h₂⟩ := Emit.bind_eq_ok h₁
    obtain ⟨rfl, rfl⟩ := Emit.pure_eq_ok h₂
    simpa using EmitsAll.cons (Expr.emits_of_ok he) (emitsAll_of_ok hes)

theorem emitsArguments_of_ok {env : Surroundings} {l m : Labels} {es : List Expr} {c : Code}
    (h : emitArguments env es l = .ok (c, m)) : EmitsArguments env l es c.instructions m := by
  cases es with
  | nil =>
    obtain ⟨rfl, rfl⟩ := Emit.pure_eq_ok h
    exact .nil
  | cons e es =>
    rw [emitArguments] at h
    obtain ⟨first, k, he, h₁⟩ := Emit.bind_eq_ok h
    obtain ⟨others, k', hes, h₂⟩ := Emit.bind_eq_ok h₁
    obtain ⟨rfl, rfl⟩ := Emit.pure_eq_ok h₂
    simpa [Instr.isComment, Instr.plain_cons] using
      EmitsArguments.cons (Expr.emits_of_ok he) (emitsArguments_of_ok hes)

theorem emitsOpt_of_ok {env : Surroundings} {l m : Labels} {heading : List Instr}
    {e : Option Expr} {c : Code} (hh : Instr.plain heading = [])
    (h : emitOpt env heading e l = .ok (c, m)) : EmitsOpt env l e c.instructions m := by
  cases e with
  | none =>
    obtain ⟨rfl, rfl⟩ := Emit.pure_eq_ok h
    exact .none
  | some e =>
    rw [emitOpt] at h
    obtain ⟨c, k, he, h₁⟩ := Emit.bind_eq_ok h
    obtain ⟨rfl, rfl⟩ := Emit.pure_eq_ok h₁
    simpa [hh] using EmitsOpt.some (Expr.emits_of_ok he)

end

/-! ## Breaks -/

mutual

/-- No `break` leaves a loop while a word waits that was put on the stack inside the loop. `clear`
says that none waits where the expression stands. -/
def Expr.breaksClear (clear : Bool) : Expr → Bool
  | .literal .. | .var .. => true
  | .call _ _ arguments => argumentsBreakClear clear arguments
  | .block _ body result => allBreakClear clear body && optBreaksClear clear result
  | .bind _ _ _ value | .assign _ _ value | .unary _ _ value | .group _ value | .ret _ value =>
    value.breaksClear clear
  | .binary _ _ left right => right.breaksClear clear && left.breaksClear false
  | .branch _ condition onTrue onFalse =>
    condition.breaksClear clear && onTrue.breaksClear clear && optBreaksClear clear onFalse
  | .loop _ condition body => condition.breaksClear true && body.breaksClear true
  | .brk _ => clear

def allBreakClear (clear : Bool) : List Expr → Bool
  | [] => true
  | e :: es => e.breaksClear clear && allBreakClear clear es

/-- The word of an argument waits while those behind it are evaluated. -/
def argumentsBreakClear (clear : Bool) : List Expr → Bool
  | [] => true
  | e :: es => e.breaksClear clear && argumentsBreakClear false es

def optBreaksClear (clear : Bool) : Option Expr → Bool
  | none => true
  | some e => e.breaksClear clear

end

theorem allBreakClear_of_mem {clear : Bool} {es : List Expr} (h : allBreakClear clear es = true) :
    ∀ e ∈ es, e.breaksClear clear = true := by
  induction es with
  | nil => simp
  | cons e es ih =>
    rw [allBreakClear, Bool.and_eq_true] at h
    exact List.forall_mem_cons.2 ⟨h.1, ih h.2⟩

theorem optBreaksClear_of_mem {clear : Bool} {o : Option Expr} (h : optBreaksClear clear o = true) :
    ∀ e ∈ o.toList, e.breaksClear clear = true := by
  cases o with
  | none => simp
  | some e => simpa [optBreaksClear] using h

/-- No word waits inside a block that does not wait in front of it. -/
theorem Expr.breaksClear_block {clear : Bool} {n : Node} {body : List Expr} {result : Option Expr}
    (h : (Expr.block n body result).breaksClear clear = true) :
    (∀ e ∈ body, e.breaksClear clear = true) ∧ ∀ e ∈ result.toList, e.breaksClear clear = true := by
  rw [Expr.breaksClear, Bool.and_eq_true] at h
  exact ⟨allBreakClear_of_mem h.1, optBreaksClear_of_mem h.2⟩

/-! ## Functions -/

theorem plain_storeParams {frame : Frame} {index : Nat} {ps : List Param} {is : List Instr}
    (h : storeParams frame index ps = .ok is) : Instr.plain is = is := by
  induction ps generalizing index is with
  | nil => cases h; rfl
  | cons p ps ih =>
    obtain ⟨r, place, stores, -, -, hs, rfl⟩ := storeParams_cons h
    rw [Instr.plain_cons, ih hs]
    rfl

/-- The code of a function that has been placed in a frame. -/
inductive EmitsFunction (functions : List String) :
    Labels → Function → Frame → List Instr → Labels → Prop
  | intro {l m f frame comments stores body} (hmax : f.params.length ≤ Convention.maxArguments)
    (hs : storeParams frame 0 f.params = .ok stores)
    (hb : Emits ⟨frame, functions, comments⟩ l f.body body m) :
    EmitsFunction functions l f frame
      (.label frame.function :: .push .rbp :: .mov Reg.rsp Reg.rbp ::
        .sub (.imm frame.size) Reg.rsp :: (stores ++ (body ++ [.leave, .ret]))) m

/-- The code of functions with their frames. -/
inductive EmitsFunctions (functions : List String) :
    Labels → List (Function × Frame) → List Instr → Labels → Prop
  | nil {l} : EmitsFunctions functions l [] [] l
  | cons {l m k f frame fs c cs} (hf : EmitsFunction functions l f frame c m)
    (hfs : EmitsFunctions functions m fs cs k) :
    EmitsFunctions functions l ((f, frame) :: fs) (c ++ cs) k

theorem Function.emits_of_ok {comments : Bool} {functions : List String} {frame : Frame}
    {f : Function} {l m : Labels} {c : Code}
    (h : f.emit comments functions frame l = .ok (c, m)) :
    EmitsFunction functions l f frame c.instructions m := by
  rw [Function.emit] at h
  split at h
  · cases h
  · rename_i hmax
    obtain ⟨stores, hs, h₁⟩ := Emit.bind_lift_eq_ok h
    obtain ⟨body, k, hb, h₂⟩ := Emit.bind_eq_ok h₁
    obtain ⟨rfl, rfl⟩ := Emit.pure_eq_ok h₂
    have hf := EmitsFunction.intro (Nat.le_of_not_lt hmax) hs (Expr.emits_of_ok hb)
    simpa [Instr.isComment, Instr.plain_cons, plain_storeParams hs] using hf

theorem emitsFunctions_of_ok {comments : Bool} {functions : List String}
    {fs : List (Function × Frame)} {l m : Labels} {c : Code}
    (h : emitFunctions comments functions fs l = .ok (c, m)) :
    EmitsFunctions functions l fs c.instructions m := by
  induction fs generalizing l m c with
  | nil =>
    obtain ⟨rfl, rfl⟩ := Emit.pure_eq_ok h
    exact .nil
  | cons x fs ih =>
    rw [emitFunctions] at h
    obtain ⟨first, k, hf, h₁⟩ := Emit.bind_eq_ok h
    obtain ⟨others, k', hfs, h₂⟩ := Emit.bind_eq_ok h₁
    obtain ⟨rfl, rfl⟩ := Emit.pure_eq_ok h₂
    simpa using EmitsFunctions.cons (Function.emits_of_ok hf) (ih hfs)

/-- The assembly of functions is their code behind a header, and the lines of the constants. -/
theorem PlacedFunctions.assemble_eq_ok {placed : PlacedFunctions} {options : GenOptions}
    {assembly : Assembly} {labels : Labels} (h : placed.assemble options = .ok (assembly, labels)) :
    ∃ code, emitFunctions options.comments (placed.functions.map (·.ident.name))
        (placed.functions.zip placed.frames) {} = .ok (code, labels) ∧
      assembly.code = header options ++ code.toList ∧
      placed.constants.dataLines = .ok assembly.data := by
  unfold PlacedFunctions.assemble at h
  cases hrun : emitFunctions options.comments (placed.functions.map (·.ident.name))
      (placed.functions.zip placed.frames) {} with
  | error e =>
    simp only [StateT.run, hrun] at h
    cases h
  | ok r =>
    simp only [StateT.run, hrun] at h
    cases hdata : placed.constants.dataLines with
    | error e => rw [hdata] at h; cases h
    | ok data =>
      rw [hdata] at h
      cases h
      exact ⟨r.1, rfl, rfl, rfl⟩

/-- Without comments, the code is that of the functions behind two directives. -/
theorem PlacedFunctions.emits_of_ok {placed : PlacedFunctions} {options : GenOptions}
    {assembly : Assembly} {labels : Labels} (h : placed.assemble options = .ok (assembly, labels)) :
    ∃ code, Instr.plain assembly.code =
        .directive ".text" :: .directive (".globl " ++ options.entryPoint) :: code ∧
      EmitsFunctions (placed.functions.map (·.ident.name)) {}
        (placed.functions.zip placed.frames) code labels := by
  obtain ⟨code, hrun, hcode, -⟩ := PlacedFunctions.assemble_eq_ok h
  refine ⟨code.instructions, ?_, emitsFunctions_of_ok hrun⟩
  rw [hcode]
  simp [header, Instr.isComment, Instr.plain_cons, Code.instructions]

end Ilang
