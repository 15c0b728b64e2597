import Ilang.Proofs.Emission
import Ilang.Proofs.Trees
/-!
# Limits of code generation

There is no code for floating point numbers, and none for more arguments than there are registers
for them. If the notes of all passes are in order, these are the only reasons why no code can be
made for an expression (`Expr.emit_limited`).
-/
namespace Ilang

/-! ## Limits -/

/-- An error is about a limit of the generator, and not about a mistake that analysis would have
found. -/
def GenError.IsLimit : GenError → Prop
  | missingEntryPoint _ | tooManyParameters .. | tooManyArguments .. => True
  | unsupportedLiteral _ ty _ => ty = .float
  | _ => False

/-- A step succeeds if what it works on is small enough, and otherwise reports a limit. -/
def Limited {α : Type} (small : Prop) : Except GenError α → Prop
  | .ok _ => small
  | .error e => e.IsLimit ∧ ¬small

namespace Limited

variable {α β : Type} {P Q : Prop}

theorem congr {r : Except GenError α} (h : Limited P r) (hPQ : P ↔ Q) : Limited Q r := by
  rwa [← propext hPQ]

theorem bind {x : Emit α} {f : α → Emit β} {l : Labels} (hx : Limited P (x l))
    (hf : ∀ a m, Limited Q (f a m)) : Limited (P ∧ Q) ((x >>= f) l) := by
  rw [Emit.bind_apply]
  cases h : x l with
  | ok r =>
    rw [h] at hx
    exact (hf r.1 r.2).congr ⟨fun hq => ⟨hx, hq⟩, And.right⟩
  | error e =>
    rw [h] at hx
    exact ⟨hx.1, fun hpq => hx.2 hpq.1⟩

theorem bind_lift {x : Except GenError α} {f : α → Emit β} {l : Labels} (hx : Limited P x)
    (hf : ∀ a, Limited Q (f a l)) : Limited (P ∧ Q) (((liftM x : Emit α) >>= f) l) := by
  rw [Emit.bind_apply]
  cases x with
  | ok a => exact (hf a).congr ⟨fun hq => ⟨hx, hq⟩, And.right⟩
  | error e => exact ⟨hx.1, fun hpq => hx.2 hpq.1⟩

/-- A step that always succeeds does not limit what follows. -/
theorem bind_ok {x : Except GenError α} (hx : ∃ a, x = .ok a) {f : α → Emit β} {l : Labels}
    (hf : ∀ a, Limited Q (f a l)) : Limited Q (((liftM x : Emit α) >>= f) l) := by
  obtain ⟨a, rfl⟩ := hx
  exact hf a

/-- What is made of the result of a step does not limit it. -/
theorem map {x : Emit α} {f : α → β} {l : Labels} (hx : Limited P (x l)) :
    Limited P ((x >>= fun a => pure (f a)) l) := by
  refine (Limited.bind (Q := True) hx ?_).congr (and_iff_left trivial)
  intro a m
  trivial

theorem map_lift {x : Except GenError α} {f : α → β} {l : Labels} (hx : Limited P x) :
    Limited P (((liftM x : Emit α) >>= fun a => pure (f a)) l) := by
  refine (Limited.bind_lift (Q := True) hx ?_).congr (and_iff_left trivial)
  intro a
  trivial

theorem branchLabels {f : String → String → Emit β} {l : Labels}
    (h : Limited P (f l.elseLabel l.branchEnd l.afterBranch)) :
    Limited P ((Emit.branchLabel >>= fun x => Emit.branchLabel >>= fun y => f x y) l) :=
  h

theorem loopLabels {f : String → String → Emit β} {l : Labels}
    (h : Limited P (f l.loopStart l.loopEnd l.afterLoop)) :
    Limited P ((Emit.loopLabel >>= fun x => Emit.loopLabel >>= fun y => f x y) l) :=
  h

end Limited

/-! ## Trees that code can be made for -/

namespace Expr

/-- A node is within the limits: it is no floating point number, and no call with more arguments
than there are registers. -/
def Small : Expr → Prop
  | literal _ text _ => Literal.type? text ≠ some .float
  | call _ _ arguments => arguments.length ≤ 6
  | _ => True

/-- A literal has the type of its text. -/
def LiteralTyped : Expr → Prop
  | literal n text _ => Literal.type? text = some n.ty
  | _ => True

/-- A string has its label, and a name of a variable one of `count` variables. -/
def Located (count : Nat) : Expr → Prop
  | literal n _ constant => n.ty = .string → ∃ label, constant = some label
  | var _ i | bind _ i _ _ | assign _ i _ => ∃ k < count, i.slot = some k
  | _ => True

/-- The notes of a node are in order. -/
def Noted (count : Nat) (e : Expr) : Prop := e.LiteralTyped ∧ e.Located count

end Expr

theorem literalCode_limited {n : Node} {text : String} {constant : Option String}
    (ht : Literal.type? text = some n.ty) (hs : n.ty = .string → ∃ label, constant = some label) :
    Limited (Literal.type? text ≠ some .float) (literalCode n text constant) := by
  rw [ht]
  unfold literalCode
  cases hty : n.ty with
  | int =>
    have hi : (Text.int64? text).isSome := by
      rw [hty] at ht
      unfold Literal.type? at ht
      grind
    obtain ⟨i, hi⟩ := Option.isSome_iff_exists.1 hi
    simp [hi, Limited]
  | bool =>
    have hb : text = "true" ∨ text = "false" := by
      rw [hty] at ht
      unfold Literal.type? at ht
      grind
    rcases hb with rfl | rfl <;> simp [Limited]
  | string =>
    obtain ⟨label, rfl⟩ := hs hty
    simp [Limited]
  | unit => simp [Limited]
  | float => simp [Limited, GenError.IsLimit]
  | undefined =>
    rw [hty] at ht
    unfold Literal.type? at ht
    grind

theorem Frame.slotOf_ok {f : Frame} {i : Ident} (h : ∃ k < f.vars.size, i.slot = some k) :
    ∃ place, f.slotOf i = .ok place := by
  obtain ⟨k, hk, hi⟩ := h
  simp [Frame.slotOf, hi, hk]

theorem Convention.argumentReg_ok {k : Nat} (h : k < 6) : ∃ r, argumentReg k = .ok r := by
  have hk : k < argumentRegs.length := h
  exact ⟨argumentRegs[k], by simp [argumentReg, hk]⟩

theorem popArguments_ok {k : Nat} (h : k ≤ 6) : ∃ pops, popArguments k = .ok pops := by
  induction k with
  | zero => exact ⟨[], rfl⟩
  | succ k ih =>
    obtain ⟨r, hr⟩ := Convention.argumentReg_ok (k := k) (by omega)
    obtain ⟨pops, hp⟩ := ih (by omega)
    exact ⟨.pop r :: pops, by rw [popArguments, hr, hp]; rfl⟩

mutual

/-- Each `break` stands in a loop of the tree, or there is a loop around the tree. -/
def Expr.Enclosed (inLoop : Prop) : Expr → Prop
  | .literal .. | .var .. => True
  | .call _ _ arguments => enclosedAll inLoop arguments
  | .block _ body result => enclosedAll inLoop body ∧ enclosedOpt inLoop result
  | .bind _ _ _ value | .assign _ _ value | .unary _ _ value | .group _ value | .ret _ value =>
    value.Enclosed inLoop
  | .binary _ _ left right => left.Enclosed inLoop ∧ right.Enclosed inLoop
  | .branch _ condition onTrue onFalse =>
    condition.Enclosed inLoop ∧ onTrue.Enclosed inLoop ∧ enclosedOpt inLoop onFalse
  | .loop _ condition body => condition.Enclosed True ∧ body.Enclosed True
  | .brk _ => inLoop

def enclosedAll (inLoop : Prop) : List Expr → Prop
  | [] => True
  | e :: es => e.Enclosed inLoop ∧ enclosedAll inLoop es

def enclosedOpt (inLoop : Prop) : Option Expr → Prop
  | none => True
  | some e => e.Enclosed inLoop

end

/-! ## Emission -/

mutual

/-- Code is made for a tree whose notes are in order, unless a node is beyond the limits. -/
theorem Expr.emit_limited {env : Surroundings} {q : Prop} (hq : q → env.frame.loops ≠ []) {e : Expr}
    (hn : e.Everywhere (Expr.Noted env.frame.vars.size)) (hb : e.Enclosed q) (l : Labels) :
    Limited (e.Everywhere Expr.Small) (e.emit env l) := by
  obtain ⟨he, hcs⟩ := Expr.everywhere_iff.1 hn
  rw [propext Expr.everywhere_iff]
  cases e with
  | literal n text constant =>
    rw [Expr.emit]
    refine (literalCode_limited he.1 he.2).map_lift.congr ?_
    simp [Expr.Small, Expr.children]
  | var n ident =>
    rw [Expr.emit]
    refine .bind_ok (Frame.slotOf_ok he.2) fun _ => ?_
    exact ⟨trivial, by simp [Expr.children]⟩
  | call n callee arguments =>
    rw [Expr.emit]
    split
    · rename_i hmany
      exact ⟨trivial, fun h => absurd h.1 (Nat.not_le_of_lt hmany)⟩
    · rename_i hfew
      have hlength : arguments.length ≤ 6 := Nat.le_of_not_lt hfew
      refine (Limited.bind (emitArguments_limited hq hcs hb l) (Q := True) fun _ _ => ?_).congr ?_
      · exact .bind_ok (popArguments_ok hlength) fun _ => trivial
      · simp [Expr.Small, Expr.children, hlength]
  | block n body result =>
    rw [Expr.emit]
    simp only [Expr.children, List.forall_mem_append] at hcs
    refine (Limited.bind (emitAll_limited hq hcs.1 hb.1 l) fun _ m =>
      (emitOpt_limited hq hcs.2 hb.2 m).map).congr ?_
    simp only [Expr.Small, Expr.children, List.forall_mem_append, true_and]
  | bind n ident type value =>
    rw [Expr.emit]
    have hv := Expr.emit_limited hq (hcs value (by simp [Expr.children])) hb l
    refine .congr (.bind (Q := True) hv fun _ _ => .bind_ok (Frame.slotOf_ok he.2) fun _ => trivial) ?_
    simp [Expr.Small, Expr.children]
  | assign n target value =>
    rw [Expr.emit]
    have hv := Expr.emit_limited hq (hcs value (by simp [Expr.children])) hb l
    refine .congr (.bind (Q := True) hv fun _ _ => .bind_ok (Frame.slotOf_ok he.2) fun _ => trivial) ?_
    simp [Expr.Small, Expr.children]
  | binary n op left right =>
    rw [Expr.emit]
    refine (Limited.bind (Expr.emit_limited hq (hcs right (by simp [Expr.children])) hb.2 l) fun _ m =>
      (Expr.emit_limited hq (hcs left (by simp [Expr.children])) hb.1 m).map).congr ?_
    simp [Expr.Small, Expr.children, and_comm]
  | unary n op operand =>
    rw [Expr.emit]
    refine (Expr.emit_limited hq (hcs operand (by simp [Expr.children])) hb l).map.congr ?_
    simp [Expr.Small, Expr.children]
  | group n inner =>
    rw [Expr.emit]
    refine (Expr.emit_limited hq (hcs inner (by simp [Expr.children])) hb l).congr ?_
    simp [Expr.Small, Expr.children]
  | branch n condition onTrue onFalse =>
    rw [Expr.emit]
    simp only [Expr.children, List.forall_mem_cons] at hcs
    refine .congr (.branchLabels (.bind (Expr.emit_limited hq hcs.1 hb.1 _) fun _ m =>
      .bind (Expr.emit_limited hq hcs.2.1 hb.2.1 m) fun _ k =>
        (emitOpt_limited hq hcs.2.2 hb.2.2 k).map)) ?_
    simp only [Expr.Small, Expr.children, List.forall_mem_cons, true_and]
  | ret n value =>
    rw [Expr.emit]
    refine (Expr.emit_limited hq (hcs value (by simp [Expr.children])) hb l).map.congr ?_
    simp [Expr.Small, Expr.children]
  | loop n condition body =>
    rw [Expr.emit]
    have hinside : True → (env.inLoop l.loopEnd).frame.loops ≠ [] := fun _ => List.cons_ne_nil _ _
    simp only [Expr.children, List.forall_mem_cons] at hcs
    refine .congr (.loopLabels (.bind (Expr.emit_limited hinside hcs.1 hb.1 _) fun _ m =>
      (Expr.emit_limited hinside hcs.2.1 hb.2 m).map)) ?_
    simp [Expr.Small, Expr.children]
  | brk n =>
    rw [Expr.emit]
    obtain ⟨label, labels, hlabels⟩ := List.exists_cons_of_ne_nil (hq hb)
    simp only [Frame.currentLoop?, hlabels, List.head?_cons]
    exact ⟨trivial, by simp [Expr.children]⟩

theorem emitAll_limited {env : Surroundings} {q : Prop} (hq : q → env.frame.loops ≠ [])
    {es : List Expr} (hn : ∀ e ∈ es, e.Everywhere (Expr.Noted env.frame.vars.size))
    (hb : enclosedAll q es) (l : Labels) :
    Limited (∀ e ∈ es, e.Everywhere Expr.Small) (emitAll env es l) := by
  cases es with
  | nil => exact fun e he => absurd he (List.not_mem_nil)
  | cons e es =>
    rw [emitAll]
    simp only [List.forall_mem_cons] at hn ⊢
    exact (Expr.emit_limited hq hn.1 hb.1 l).bind fun _ m => (emitAll_limited hq hn.2 hb.2 m).map

theorem emitArguments_limited {env : Surroundings} {q : Prop} (hq : q → env.frame.loops ≠ [])
    {es : List Expr} (hn : ∀ e ∈ es, e.Everywhere (Expr.Noted env.frame.vars.size))
    (hb : enclosedAll q es) (l : Labels) :
    Limited (∀ e ∈ es, e.Everywhere Expr.Small) (emitArguments env es l) := by
  cases es with
  | nil => exact fun e he => absurd he (List.not_mem_nil)
  | cons e es =>
    rw [emitArguments]
    simp only [List.forall_mem_cons] at hn ⊢
    exact (Expr.emit_limited hq hn.1 hb.1 l).bind fun _ m =>
      (emitArguments_limited hq hn.2 hb.2 m).map

theorem emitOpt_limited {env : Surroundings} {q : Prop} (hq : q → env.frame.loops ≠ [])
    {heading : List Instr} {e : Option Expr}
    (hn : ∀ x ∈ e.toList, x.Everywhere (Expr.Noted env.frame.vars.size)) (hb : enclosedOpt q e)
    (l : Labels) : Limited (∀ x ∈ e.toList, x.Everywhere Expr.Small) (emitOpt env heading e l) := by
  cases e with
  | none => exact fun x hx => absurd hx (List.not_mem_nil)
  | some e =>
    rw [emitOpt]
    refine (Expr.emit_limited hq (hn e (by simp)) hb l).map.congr ?_
    simp

end

/-! ## Functions -/

/-- A function is within the limits. -/
def Function.Small (f : Function) : Prop := f.params.length ≤ 6 ∧ f.body.Everywhere Expr.Small

/-- All that making the code of a function takes for granted. -/
structure Function.Ready (f : Function) (frame : Frame) : Prop where
  params : ∀ p ∈ f.params, ∃ k < frame.vars.size, p.ident.slot = some k
  notes : f.body.Everywhere (Expr.Noted frame.vars.size)
  enclosed : f.body.Enclosed False

theorem storeParams_ok {frame : Frame} {index : Nat} {ps : List Param}
    (hs : ∀ p ∈ ps, ∃ k < frame.vars.size, p.ident.slot = some k) (hfew : index + ps.length ≤ 6) :
    ∃ stores, storeParams frame index ps = .ok stores := by
  induction ps generalizing index with
  | nil => exact ⟨[], rfl⟩
  | cons p ps ih =>
    simp only [List.length_cons, List.forall_mem_cons] at hs hfew
    obtain ⟨r, hr⟩ := Convention.argumentReg_ok (k := index) (by omega)
    obtain ⟨place, hplace⟩ := Frame.slotOf_ok hs.1
    obtain ⟨stores, hstores⟩ := ih hs.2 (by omega : index + 1 + ps.length ≤ 6)
    exact ⟨.mov r place :: stores, by rw [storeParams, hr, hplace, hstores]; rfl⟩

theorem Function.emit_limited {f : Function} {frame : Frame} (h : f.Ready frame)
    (comments : Bool) (functions : List String) (l : Labels) :
    Limited f.Small (f.emit comments functions frame l) := by
  rw [Function.emit]
  split
  · rename_i hmany
    exact ⟨trivial, fun hsmall => absurd hsmall.1 (Nat.not_le_of_lt hmany)⟩
  · rename_i hfew
    have hlength : f.params.length ≤ 6 := Nat.le_of_not_lt hfew
    have hstores := storeParams_ok h.params (by omega : 0 + f.params.length ≤ 6)
    refine .congr (.bind_ok hstores fun _ =>
      (Expr.emit_limited False.elim h.notes h.enclosed l).map) ?_
    simp [Function.Small, hlength]

theorem emitFunctions_limited {fs : List (Function × Frame)} (h : ∀ x ∈ fs, x.1.Ready x.2)
    (comments : Bool) (functions : List String) (l : Labels) :
    Limited (∀ x ∈ fs, x.1.Small) (emitFunctions comments functions fs l) := by
  induction fs generalizing l with
  | nil => exact fun x hx => absurd hx List.not_mem_nil
  | cons x fs ih =>
    rw [emitFunctions]
    simp only [List.forall_mem_cons] at h ⊢
    exact (Function.emit_limited h.1 comments functions l).bind fun _ m => (ih h.2 m).map

end Ilang
