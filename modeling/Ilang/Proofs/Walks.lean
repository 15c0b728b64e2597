import Ilang.Proofs.Emission
import Ilang.Proofs.Trees
/-!
# On the way to a node

A pass over a tree comes to the nodes in it one after the other, each time with what it knows by
then. `Walk part s e path t x` says that a pass that starts at `e` knowing `s` comes to `x`, which
stands at `path` in `e`, knowing `t`; `part` says how it goes from a node to its children.

For the making of code these steps are `EmitsPart`. Whatever is put where a node stands is made with
what is known there, and its code is put between pieces that do not depend on it (`Walk.contains`).
If code is made, all nodes are come to (`Expr.walk_of_ok`).
-/
namespace Ilang

/-! ## Places in a tree -/

/-- The expression at a place in a tree, which is given by the numbers of the children that lead
there. -/
def Expr.at? : List Nat → Expr → Option Expr
  | [], e => some e
  | i :: path, e => e.children[i]?.bind (at? path)

theorem eq_of_getElem?_singleton {α : Type} {a c : α} {i : Nat} (h : [a][i]? = some c) :
    i = 0 ∧ c = a := by
  cases i with
  | zero => exact ⟨rfl, (Option.some.inj h).symm⟩
  | succ i => cases h

/-- An expression with another child. -/
def Expr.withChild : Expr → Nat → Expr → Expr
  | .call n callee arguments, i, x => .call n callee (arguments.set i x)
  | .block n body result, i, x =>
    if i < body.length then .block n (body.set i x) result else .block n body (result.map fun _ => x)
  | .bind n ident type _, _, x => .bind n ident type x
  | .assign n target _, _, x => .assign n target x
  | .binary n op _ right, 0, x => .binary n op x right
  | .binary n op left _, _ + 1, x => .binary n op left x
  | .unary n op _, _, x => .unary n op x
  | .group n _, _, x => .group n x
  | .branch n _ onTrue onFalse, 0, x => .branch n x onTrue onFalse
  | .branch n condition _ onFalse, 1, x => .branch n condition x onFalse
  | .branch n condition onTrue onFalse, _ + 2, x => .branch n condition onTrue (onFalse.map fun _ => x)
  | .ret n _, _, x => .ret n x
  | .loop n _ body, 0, x => .loop n x body
  | .loop n condition _, _ + 1, x => .loop n condition x
  | e, _, _ => e

/-- A tree with another expression at a place. -/
def Expr.put : Expr → List Nat → Expr → Expr
  | _, [], x => x
  | e, i :: path, x =>
    match e.children[i]? with
    | some c => e.withChild i (c.put path x)
    | none => e

theorem Expr.put_cons {e c : Expr} {i : Nat} (hc : e.children[i]? = some c) (path : List Nat)
    (x : Expr) : e.put (i :: path) x = e.withChild i (c.put path x) := by
  rw [put, hc]

theorem Expr.node_withChild (e : Expr) (i : Nat) (x : Expr) : (e.withChild i x).node = e.node := by
  unfold withChild
  split
  case h_2 => split <;> rfl
  all_goals rfl

theorem Expr.withChild_self {e c : Expr} {i : Nat} (hc : e.children[i]? = some c) :
    e.withChild i c = e := by
  cases e with
  | literal | var | brk => cases hc
  | call n callee arguments =>
    obtain ⟨hi, rfl⟩ := List.getElem?_eq_some_iff.1 hc
    exact congrArg (call n callee) (List.set_getElem_self hi)
  | block n body result =>
    rw [children, List.getElem?_append] at hc
    split at hc
    · rename_i hi
      obtain ⟨-, rfl⟩ := List.getElem?_eq_some_iff.1 hc
      rw [withChild, if_pos hi, List.set_getElem_self]
    · rename_i hi
      cases result with
      | none => cases hc
      | some e =>
        obtain ⟨-, rfl⟩ := eq_of_getElem?_singleton hc
        rw [withChild, if_neg hi, Option.map_some]
  | bind | assign | unary | group | ret =>
    obtain ⟨rfl, rfl⟩ := eq_of_getElem?_singleton hc
    rfl
  | binary | loop => rcases i with _ | _ | i <;> cases hc <;> rfl
  | branch n condition onTrue onFalse =>
    rcases i with _ | _ | i
    · cases hc
      rfl
    · cases hc
      rfl
    · cases onFalse with
      | none => cases hc
      | some e =>
        obtain ⟨rfl, rfl⟩ := eq_of_getElem?_singleton (a := e) hc
        rfl

/-- What stands above a place looks the same if what is put there does. -/
theorem Expr.face_put {e x y : Expr} {path : List Nat} (h : e.at? path = some x)
    (hy : y.face = x.face) : (e.put path y).face = e.face := by
  cases path with
  | nil =>
    cases h
    exact hy
  | cons i path =>
    obtain ⟨c, hc, -⟩ := Option.bind_eq_some_iff.1 h
    rw [put_cons hc, face, face, ty, ty, location, location, node_withChild]

theorem Expr.put_self {e x : Expr} {path : List Nat} (h : e.at? path = some x) :
    e.put path x = e := by
  induction path generalizing e with
  | nil =>
    cases h
    rfl
  | cons i path ih =>
    obtain ⟨c, hc, hx⟩ := Option.bind_eq_some_iff.1 h
    rw [put_cons hc, ih hx, withChild_self hc]

/-- A pass comes from one node to another that stands at a place in it. -/
inductive Walk {σ : Type} (part : σ → Expr → Nat → σ → Expr → Prop) :
    σ → Expr → List Nat → σ → Expr → Prop
  | here {s e} : Walk part s e [] s e
  | down {s t u e c x i path} (h : part s e i t c) (hw : Walk part t c path u x) :
    Walk part s e (i :: path) u x

namespace Walk

variable {σ : Type} {part : σ → Expr → Nat → σ → Expr → Prop} {s t : σ} {e x : Expr}
  {path : List Nat}

/-- A pass that can go on to every child of a node can go on to everything in it. -/
theorem of_at? {P : σ → Expr → Prop} (hpart : ∀ s e i c, P s e → e.children[i]? = some c →
    ∃ t, part s e i t c ∧ P t c) (hs : P s e) (h : e.at? path = some x) :
    ∃ t, Walk part s e path t x ∧ P t x := by
  induction path generalizing s e with
  | nil =>
    cases h
    exact ⟨s, .here, hs⟩
  | cons i path ih =>
    obtain ⟨c, hc, hx⟩ := Option.bind_eq_some_iff.1 h
    obtain ⟨t, ht, hPt⟩ := hpart s e i c hs hc
    obtain ⟨u, hw, hu⟩ := ih hPt hx
    exact ⟨u, .down ht hw, hu⟩

end Walk

theorem Expr.Inside.exists_at? {x e : Expr} (h : x.Inside e) : ∃ path, e.at? path = some x := by
  induction h with
  | here => exact ⟨[], rfl⟩
  | child hc _ ih =>
    obtain ⟨path, hpath⟩ := ih
    obtain ⟨i, hi⟩ := List.mem_iff_getElem?.1 hc
    exact ⟨i :: path, by rw [Expr.at?, hi, Option.bind_some, hpath]⟩

/-! ## Code inside other code -/

namespace Code

/-- A piece of code stands in another one. -/
def StandsIn (a b : Code) : Prop := a.toList <:+: b.toList

namespace StandsIn

variable {a b c : Code}

theorem refl (a : Code) : a.StandsIn a := List.infix_refl _

theorem trans (h : a.StandsIn b) (h' : b.StandsIn c) : a.StandsIn c := List.IsInfix.trans h h'

theorem left (h : a.StandsIn b) : a.StandsIn (b ++ c) := by
  rw [StandsIn, toList_append]
  exact List.IsInfix.trans h List.infix_append_left

theorem right (h : a.StandsIn c) : a.StandsIn (b ++ c) := by
  rw [StandsIn, toList_append]
  exact List.IsInfix.trans h List.infix_append_right

end StandsIn

/-- Other code is put before and behind a piece of code. -/
def Around (g : Code → Code) : Prop :=
  ∃ before behind, ∀ c, (g c).toList = before ++ c.toList ++ behind

namespace Around

variable {g : Code → Code}

theorem refl : Around fun c => c := ⟨[], [], fun c => by simp⟩

theorem left {d : Code} (h : Around g) : Around fun c => g c ++ d := by
  obtain ⟨before, behind, hg⟩ := h
  exact ⟨before, behind ++ d.toList, fun c => by simp [hg]⟩

theorem right {d : Code} (h : Around g) : Around fun c => d ++ g c := by
  obtain ⟨before, behind, hg⟩ := h
  exact ⟨d.toList ++ before, behind, fun c => by simp [hg]⟩

end Around

end Code

namespace Emit

/-- Makes what stands before instructions and behind them. -/
def between (around : Emit (List Instr × List Instr)) (is : List Instr) : Emit (List Instr) := do
  let (before, behind) ← around
  return before ++ is ++ behind

theorem exists_between_between (inner outer : Emit (List Instr × List Instr)) :
    ∃ around, ∀ is, between inner is >>= between outer = between around is := by
  refine ⟨do
    let (before, behind) ← inner
    let (before', behind') ← outer
    return (before' ++ before, behind ++ behind'), fun is => ?_⟩
  simp [between]

/-- All that is done with a piece of code is to make what stands around it. -/
def Encloses (f : Code → Emit Code) : Prop :=
  ∃ around, ∀ c, Code.toList <$> f c = between around c.toList

namespace Encloses

theorem pure {g : Code → Code} (h : Code.Around g) : Encloses fun c => Pure.pure (g c) := by
  obtain ⟨before, behind, hg⟩ := h
  exact ⟨Pure.pure (before, behind), fun c => by simp [between, hg]⟩

theorem bind {α : Type} {x : Emit α} {f : α → Code → Emit Code} (h : ∀ a, Encloses (f a)) :
    Encloses fun c => x >>= fun a => f a c := by
  obtain ⟨around, hf⟩ := Classical.skolem.1 h
  exact ⟨x >>= around, fun c => by simp [between, hf]⟩

end Encloses

/-- Whatever `a` is, making `x a` comes to making `y a`, and what is made around its code does not
depend on `a`. -/
def Contains {ι : Type} (x : ι → Emit Code) (l : Labels) (y : ι → Emit Code) (m : Labels) : Prop :=
  ∃ around, ∀ a, (Code.toList <$> x a) l = (y a >>= fun c => between around c.toList) m

theorem bind_eq_bind {α β : Type} {x y : Emit α} {l m : Labels} (h : x l = y m) (f : α → Emit β) :
    (x >>= f) l = (y >>= f) m := by
  rw [bind_apply, bind_apply, h]

namespace Contains

variable {α ι κ : Type} {x y : ι → Emit Code} {l m k : Labels}

theorem refl (x : ι → Emit Code) (l : Labels) : Contains x l x l :=
  ⟨pure ([], []), fun a => by simp [between]⟩

/-- What is done before has been done. -/
theorem after {x : Emit α} {a : α} {f : α → ι → Emit Code} (hx : x l = .ok (a, k))
    (h : Contains (f a) k y m) : Contains (fun b => x >>= fun a => f a b) l y m := by
  obtain ⟨around, hf⟩ := h
  refine ⟨around, fun b => ?_⟩
  rw [map_bind, bind_apply, hx]
  exact hf b

theorem trans {z : κ → Emit Code} {g : κ → ι} (h : Contains x l y m)
    (h' : Contains (fun b => y (g b)) m z k) : Contains (fun b => x (g b)) l z k := by
  obtain ⟨outer, hx⟩ := h
  obtain ⟨inner, hy⟩ := h'
  obtain ⟨around, hboth⟩ := exists_between_between inner outer
  refine ⟨around, fun b => ?_⟩
  calc (Code.toList <$> x (g b)) l
      = (Code.toList <$> y (g b) >>= between outer) m := by rw [hx, bind_map_left]
    _ = (z b >>= fun c => between inner c.toList >>= between outer) k := by
        rw [bind_eq_bind (hy b), bind_assoc]
    _ = _ := by simp only [hboth]

/-- What is done behind a piece of code may be anything that encloses it. -/
theorem bind {f : Code → Emit Code} (h : Contains x l y m) (hf : Encloses f) :
    Contains (fun a => x a >>= f) l y m := by
  obtain ⟨around, hf⟩ := hf
  have hbehind : Contains (fun z : Emit Code => z >>= f) l (fun z => z) l :=
    ⟨around, fun z => by simp only [map_bind, hf]⟩
  exact hbehind.trans h

theorem error {err : GenError} {a : ι} (h : Contains x l y m) (hy : y a m = .error err) :
    x a l = .error err := by
  obtain ⟨around, hx⟩ := h
  have hx := hx a
  rw [bind_apply, hy, map_eq_pure_bind, bind_apply] at hx
  cases hxa : x a l with
  | error e =>
    rw [hxa] at hx
    cases hx
    rfl
  | ok p => rw [hxa] at hx; cases hx

theorem ok {whole : Code} {k : Labels} {a : ι} (h : Contains x l y m) (hx : x a l = .ok (whole, k)) :
    ∃ c j, y a m = .ok (c, j) ∧ c.StandsIn whole := by
  obtain ⟨around, heq⟩ := h
  have hcode := heq a
  rw [map_eq_pure_bind, bind_apply, hx] at hcode
  obtain ⟨c, j, hy, hwhole⟩ := bind_eq_ok hcode.symm
  obtain ⟨⟨before, behind⟩, j', -, hwhole⟩ := bind_eq_ok hwhole
  obtain ⟨hwhole, -⟩ := pure_eq_ok hwhole
  exact ⟨c, j, hy, before, behind, hwhole.symm⟩

end Contains

end Emit

/-- How the making of code goes from a node to its children. What comes before a child has been made
by then. -/
inductive EmitsPart : Surroundings × Labels → Expr → Nat → Surroundings × Labels → Expr → Prop
  | argument {env l m n callee arguments i c code}
    (hmax : arguments.length ≤ Convention.maxArguments) (hc : arguments[i]? = some c)
    (h : emitArguments env (arguments.take i) l = .ok (code, m)) :
    EmitsPart (env, l) (.call n callee arguments) i (env, m) c
  | statement {env l m n body result i c code} (hc : body[i]? = some c)
    (h : emitAll env (body.take i) l = .ok (code, m)) :
    EmitsPart (env, l) (.block n body result) i (env, m) c
  | result {env l m n body c code} (h : emitAll env body l = .ok (code, m)) :
    EmitsPart (env, l) (.block n body (some c)) body.length (env, m) c
  | bound {env l n ident type value} :
    EmitsPart (env, l) (.bind n ident type value) 0 (env, l) value
  | assigned {env l n target value} : EmitsPart (env, l) (.assign n target value) 0 (env, l) value
  | right {env l n op left right} : EmitsPart (env, l) (.binary n op left right) 1 (env, l) right
  | left {env l m n op left right code} (h : right.emit env l = .ok (code, m)) :
    EmitsPart (env, l) (.binary n op left right) 0 (env, m) left
  | operand {env l n op operand} : EmitsPart (env, l) (.unary n op operand) 0 (env, l) operand
  | inner {env l n inner} : EmitsPart (env, l) (.group n inner) 0 (env, l) inner
  | test {env l n condition onTrue onFalse} :
    EmitsPart (env, l) (.branch n condition onTrue onFalse) 0 (env, l.afterBranch) condition
  | onTrue {env l m n condition onTrue onFalse code}
    (h : condition.emit env l.afterBranch = .ok (code, m)) :
    EmitsPart (env, l) (.branch n condition onTrue onFalse) 1 (env, m) onTrue
  | onFalse {env l m k n condition onTrue onFalse code code'}
    (h : condition.emit env l.afterBranch = .ok (code, m))
    (h' : onTrue.emit env m = .ok (code', k)) :
    EmitsPart (env, l) (.branch n condition onTrue (some onFalse)) 2 (env, k) onFalse
  | returned {env l n value} : EmitsPart (env, l) (.ret n value) 0 (env, l) value
  | condition {env l n condition body} :
    EmitsPart (env, l) (.loop n condition body) 0 (env.inLoop l.loopEnd, l.afterLoop) condition
  | body {env l m n condition body code}
    (h : condition.emit (env.inLoop l.loopEnd) l.afterLoop = .ok (code, m)) :
    EmitsPart (env, l) (.loop n condition body) 1 (env.inLoop l.loopEnd, m) body

theorem EmitsPart.child {s t : Surroundings × Labels} {e c : Expr} {i : Nat}
    (h : EmitsPart s e i t c) : e.children[i]? = some c := by
  cases h with
  | argument hmax hc h => exact hc
  | statement hc h =>
    obtain ⟨hlt, -⟩ := List.getElem?_eq_some_iff.1 hc
    rw [Expr.children, List.getElem?_append_left hlt, hc]
  | result h => simp [Expr.children]
  | _ => rfl

/-- Comments are wanted or not wanted for the whole. -/
theorem EmitsPart.comments_eq {s t : Surroundings × Labels} {e c : Expr} {i : Nat}
    (h : EmitsPart s e i t c) : t.1.comments = s.1.comments := by
  cases h <;> rfl

theorem Walk.comments_eq {s t : Surroundings × Labels} {e x : Expr} {path : List Nat}
    (h : Walk EmitsPart s e path t x) : t.1.comments = s.1.comments := by
  induction h with
  | here => rfl
  | down hc _ ih => exact ih.trans hc.comments_eq

/-! ## Expressions that follow each other -/

/-- Code is made for expressions one after the other, and the pieces are joined. -/
structure Emit.InTurn (env : Surroundings) (emit : List Expr → Emit Code)
    (join : Code → Code → Code) : Prop where
  nil : emit [] = pure (.instrs [])
  cons : ∀ e es, emit (e :: es) = do
    let first ← e.emit env
    let others ← emit es
    pure (join first others)
  first : ∀ b, Code.Around fun a => join a b
  others : ∀ a, Code.Around fun b => join a b

theorem inTurn_emitAll (env : Surroundings) : Emit.InTurn env (emitAll env) (· ++ ·) where
  nil := by rw [emitAll]
  cons e es := by rw [emitAll]
  first _ := Code.Around.refl.left
  others _ := Code.Around.refl.right

theorem inTurn_emitArguments (env : Surroundings) :
    Emit.InTurn env (emitArguments env) fun a b => a ++ .instrs [.push .rax] ++ b where
  nil := by rw [emitArguments]
  cons e es := by rw [emitArguments]
  first _ := Code.Around.refl.left.left
  others _ := Code.Around.refl.right

namespace Emit.InTurn

variable {env : Surroundings} {emit : List Expr → Emit Code} {join : Code → Code → Code}
  {l m : Labels} {es : List Expr} {c : Expr} {i : Nat} {code : Code}

theorem contains (hemit : InTurn env emit join) (hi : i < es.length)
    (h : emit (es.take i) l = .ok (code, m)) :
    Contains (fun x => emit (es.set i x)) l (fun x => x.emit env) m := by
  induction es generalizing i l code with
  | nil => cases hi
  | cons e es ih =>
    cases i with
    | zero =>
      rw [List.take_zero, hemit.nil] at h
      obtain ⟨-, rfl⟩ := pure_eq_ok h
      simp only [List.set_cons_zero, hemit.cons]
      exact (Contains.refl _ _).bind (.bind fun others => .pure (hemit.first others))
    | succ i =>
      rw [List.take_succ_cons, hemit.cons] at h
      obtain ⟨first, j, hfirst, h⟩ := bind_eq_ok h
      obtain ⟨others, j', hothers, h⟩ := bind_eq_ok h
      obtain ⟨-, rfl⟩ := pure_eq_ok h
      simp only [List.set_cons_succ, hemit.cons]
      exact .after hfirst ((ih (Nat.lt_of_succ_lt_succ hi) hothers).bind (.pure (hemit.others first)))

/-- Of expressions that all have code, so have the first ones. -/
theorem take_ok (hemit : InTurn env emit join) (h : emit es l = .ok (code, m)) (i : Nat) :
    ∃ code' k, emit (es.take i) l = .ok (code', k) := by
  induction es generalizing i l m code with
  | nil => exact ⟨_, _, List.take_nil ▸ h⟩
  | cons e es ih =>
    cases i with
    | zero =>
      rw [List.take_zero, hemit.nil]
      exact ⟨_, _, rfl⟩
    | succ i =>
      rw [hemit.cons] at h
      obtain ⟨first, j, hfirst, h⟩ := bind_eq_ok h
      obtain ⟨others, j', hothers, -⟩ := bind_eq_ok h
      obtain ⟨code', k, htake⟩ := ih hothers i
      refine ⟨join first code', k, ?_⟩
      rw [List.take_succ_cons, hemit.cons, bind_apply, hfirst]
      dsimp only
      rw [bind_apply, htake]
      rfl

end Emit.InTurn

/-! ## Expressions -/

/-- Code for an expression that is there is made behind a heading. -/
theorem emitOpt_contains (env : Surroundings) (heading : List Instr) (l : Labels) :
    Emit.Contains (fun x => emitOpt env heading (some x)) l (fun x => x.emit env) l := by
  simp only [emitOpt]
  exact (Emit.Contains.refl _ _).bind (.pure Code.Around.refl.right)

/-- Making the code of a node comes to a child with what is known there, whatever the child is. -/
theorem EmitsPart.contains {s t : Surroundings × Labels} {e c : Expr} {i : Nat}
    (h : EmitsPart s e i t c) :
    Emit.Contains (fun x => (e.withChild i x).emit s.1) s.2 (fun x => x.emit t.1) t.2 := by
  have hrefl := Emit.Contains.refl (fun x : Expr => x.emit t.1) t.2
  cases h with
  | argument hmax hc h =>
    have hi := (List.getElem?_eq_some_iff.1 hc).1
    simp only [Expr.withChild, Expr.emit, List.length_set, if_neg (Nat.not_lt.2 hmax)]
    exact ((inTurn_emitArguments _).contains hi h).bind
      (.bind fun pops => .pure Code.Around.refl.right.left.left)
  | statement hc h =>
    have hi := (List.getElem?_eq_some_iff.1 hc).1
    simp only [Expr.withChild, if_pos hi, Expr.emit]
    exact ((inTurn_emitAll _).contains hi h).bind
      (.bind fun last => .pure Code.Around.refl.right.left)
  | result h =>
    simp only [Expr.withChild, Nat.lt_irrefl, if_false, Option.map_some, Expr.emit]
    exact .after h ((emitOpt_contains ..).bind (.pure Code.Around.refl.right))
  | bound | assigned =>
    simp only [Expr.withChild, Expr.emit]
    exact hrefl.bind (.bind fun place => .pure Code.Around.refl.left)
  | right =>
    simp only [Expr.withChild, Expr.emit]
    exact hrefl.bind (.bind fun left => .pure Code.Around.refl.right.left.left.left)
  | left h =>
    simp only [Expr.withChild, Expr.emit]
    exact .after h (hrefl.bind (.pure Code.Around.refl.right.left))
  | operand | returned =>
    simp only [Expr.withChild, Expr.emit]
    exact hrefl.bind (.pure Code.Around.refl.right.left)
  | inner =>
    simp only [Expr.withChild, Expr.emit]
    exact hrefl
  | test =>
    simp only [Expr.withChild, Expr.emit]
    exact .after rfl (.after rfl (hrefl.bind (.bind fun onTrue => .bind fun onFalse =>
      .pure Code.Around.refl.right.left.left.left.left.left)))
  | onTrue h =>
    simp only [Expr.withChild, Expr.emit]
    exact .after rfl (.after rfl (.after h (hrefl.bind (.bind fun onFalse =>
      .pure Code.Around.refl.right.left.left.left))))
  | onFalse h h' =>
    simp only [Expr.withChild, Option.map_some, Expr.emit]
    exact .after rfl (.after rfl (.after h (.after h' ((emitOpt_contains ..).bind
      (.pure Code.Around.refl.right.left)))))
  | condition =>
    simp only [Expr.withChild, Expr.emit]
    exact .after rfl (.after rfl (hrefl.bind (.bind fun body =>
      .pure Code.Around.refl.right.left.left.left)))
  | body h =>
    simp only [Expr.withChild, Expr.emit]
    exact .after rfl (.after rfl (.after h (hrefl.bind (.pure Code.Around.refl.right.left))))

namespace Walk

variable {s t : Surroundings × Labels} {e x : Expr} {path : List Nat}

/-- Making the code of a tree comes to a place with what is known there, whatever stands there. -/
theorem contains (h : Walk EmitsPart s e path t x) :
    Emit.Contains (fun y => (e.put path y).emit s.1) s.2 (fun y => y.emit t.1) t.2 := by
  induction h with
  | here => exact .refl _ _
  | down hc _ ih =>
    simp only [Expr.put_cons hc.child]
    exact hc.contains.trans ih

theorem at?_eq (h : Walk EmitsPart s e path t x) : e.at? path = some x := by
  induction h with
  | here => rfl
  | down hc _ ih => rw [Expr.at?, hc.child, Option.bind_some, ih]

/-- An error at a node that is come to is the error of the whole. -/
theorem emit_eq_error {err : GenError} (h : Walk EmitsPart s e path t x)
    (hx : x.emit t.1 t.2 = .error err) : e.emit s.1 s.2 = .error err := by
  have hwhole := h.contains.error hx
  rwa [Expr.put_self h.at?_eq] at hwhole

/-- The code of a node that is come to stands in the code of the whole. -/
theorem exists_code {whole : Code} {k : Labels} (h : Walk EmitsPart s e path t x)
    (he : e.emit s.1 s.2 = .ok (whole, k)) :
    ∃ c j, x.emit t.1 t.2 = .ok (c, j) ∧ c.StandsIn whole := by
  rw [← Expr.put_self h.at?_eq] at he
  exact h.contains.ok he

end Walk

/-- If code is made for a node, all its children are come to. -/
theorem Expr.exists_part_of_ok {env : Surroundings} {l m : Labels} {e c : Expr} {code : Code}
    {i : Nat} (h : e.emit env l = .ok (code, m)) (hc : e.children[i]? = some c) :
    ∃ t, EmitsPart (env, l) e i t c := by
  cases e with
  | literal | var | brk => cases hc
  | call n callee arguments =>
    rw [Expr.emit] at h
    split at h
    · cases h
    · rename_i hmax
      obtain ⟨args, k, hargs, -⟩ := Emit.bind_eq_ok h
      obtain ⟨code', j, htake⟩ := (inTurn_emitArguments env).take_ok hargs i
      exact ⟨_, .argument (Nat.le_of_not_lt hmax) hc htake⟩
  | block n body result =>
    rw [Expr.emit] at h
    obtain ⟨statements, k, hbody, -⟩ := Emit.bind_eq_ok h
    rcases Nat.lt_or_ge i body.length with hi | hi
    · obtain ⟨code', j, htake⟩ := (inTurn_emitAll env).take_ok hbody i
      rw [Expr.children, List.getElem?_append_left hi] at hc
      exact ⟨_, .statement hc htake⟩
    · rw [Expr.children, List.getElem?_append_right hi] at hc
      cases result with
      | none => cases hc
      | some e =>
        obtain ⟨hlast, rfl⟩ := eq_of_getElem?_singleton hc
        obtain rfl : i = body.length := by omega
        exact ⟨_, .result hbody⟩
  | bind n ident type value =>
    obtain ⟨rfl, rfl⟩ := eq_of_getElem?_singleton hc
    exact ⟨_, .bound⟩
  | assign n target value =>
    obtain ⟨rfl, rfl⟩ := eq_of_getElem?_singleton hc
    exact ⟨_, .assigned⟩
  | unary n op operand =>
    obtain ⟨rfl, rfl⟩ := eq_of_getElem?_singleton hc
    exact ⟨_, .operand⟩
  | group n inner =>
    obtain ⟨rfl, rfl⟩ := eq_of_getElem?_singleton hc
    exact ⟨_, .inner⟩
  | ret n value =>
    obtain ⟨rfl, rfl⟩ := eq_of_getElem?_singleton hc
    exact ⟨_, .returned⟩
  | binary n op left right =>
    rw [Expr.emit] at h
    obtain ⟨r, k, hright, -⟩ := Emit.bind_eq_ok h
    rcases i with _ | _ | i <;> cases hc
    · exact ⟨_, .left hright⟩
    · exact ⟨_, .right⟩
  | branch n condition onTrue onFalse =>
    rw [Expr.emit] at h
    obtain ⟨t, k, htest, h⟩ := Emit.bind_eq_ok (Emit.branchLabels_eq_ok h)
    obtain ⟨t, k', htrue, -⟩ := Emit.bind_eq_ok h
    rcases i with _ | _ | i
    · cases hc
      exact ⟨_, .test⟩
    · cases hc
      exact ⟨_, .onTrue htest⟩
    · cases onFalse with
      | none => cases hc
      | some onFalse =>
        obtain ⟨rfl, rfl⟩ := eq_of_getElem?_singleton (a := onFalse) hc
        exact ⟨_, .onFalse htest htrue⟩
  | loop n condition body =>
    rw [Expr.emit] at h
    obtain ⟨c, k, hcondition, -⟩ := Emit.bind_eq_ok (Emit.loopLabels_eq_ok h)
    rcases i with _ | _ | i <;> cases hc
    · exact ⟨_, .condition⟩
    · exact ⟨_, .body hcondition⟩

/-- If code is made for a tree, every node in it is come to, and has code there. -/
theorem Expr.walk_of_ok {env : Surroundings} {l m : Labels} {e x : Expr} {code : Code}
    {path : List Nat} (h : e.emit env l = .ok (code, m)) (hx : e.at? path = some x) :
    ∃ t, Walk EmitsPart (env, l) e path t x ∧ ∃ r, x.emit t.1 t.2 = .ok r := by
  refine Walk.of_at? (P := fun (s : Surroundings × Labels) e => ∃ r, e.emit s.1 s.2 = .ok r) ?_
    ⟨_, h⟩ hx
  rintro ⟨env, l⟩ e i c ⟨⟨code, m⟩, hcode⟩ hc
  obtain ⟨t, ht⟩ := Expr.exists_part_of_ok hcode hc
  obtain ⟨inner, k, hinner, -⟩ := (Walk.down ht .here).exists_code hcode
  exact ⟨t, ht, _, hinner⟩

end Ilang
