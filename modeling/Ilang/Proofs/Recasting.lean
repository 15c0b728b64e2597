import Ilang.Proofs.Labels
import Ilang.Proofs.Limits
import Ilang.Proofs.References
import Mathlib.Logic.Function.Basic
/-!
# The same code with other names and numbers

What becomes of the code of a tree if its variables get other names, and if other labels are given
out before it. `Recast f d e` says that `e` is `d` with the names of variables changed by `f`,
whatever notes the two have. Such trees are placed alike and have code that differs in the numbers
of labels alone, or the same error about the new name (`Recast.place`).
-/
namespace Ilang

/-! ## Other numbers -/

/-- Pairs of old and new numbers, in the same order. -/
structure Renumbering where
  pairs : Nat → Nat → Prop
  ordered {m n m' n' : Nat} (h : pairs m n) (h' : pairs m' n') : m < m' ↔ n < n'

namespace Renumbering

/-- Every number stays as it is. -/
def same : Renumbering := ⟨Eq, by rintro _ _ _ _ rfl rfl; rfl⟩

/-- The numbers from one on become those from another one on. -/
def shift (old new : Nat) : Renumbering := ⟨fun m n => old ≤ m ∧ m + new = n + old, by omega⟩

/-- Two numbers are paired, and so are those behind them. -/
def Follows (r : Renumbering) (m n : Nat) : Prop := ∀ k, r.pairs (m + k) (n + k)

theorem follows_same (n : Nat) : same.Follows n n := fun _ => rfl

theorem follows_shift (old new : Nat) : (shift old new).Follows old new :=
  fun k => ⟨Nat.le_add_right old k, by omega⟩

theorem Follows.add {r : Renumbering} {m n : Nat} (h : r.Follows m n) (j : Nat) :
    r.Follows (m + j) (n + j) := by
  intro k
  simpa only [Nat.add_assoc] using h (j + k)

end Renumbering

/-- New numbers for the labels of each kind. -/
structure Relabelling where
  branches : Renumbering
  loops : Renumbering
  constants : Renumbering

/-- All labels stay as they are. -/
def Relabelling.same : Relabelling := ⟨.same, .same, .same⟩

/-- A label inside a function, and what it becomes. -/
inductive Relabelling.Jumps (r : Relabelling) : String → String → Prop
  | branch {m n : Nat} (h : r.branches.pairs m n) : r.Jumps (Labels.branch m) (Labels.branch n)
  | loop {m n : Nat} (h : r.loops.pairs m n) : r.Jumps (Labels.loop m) (Labels.loop n)

/-- Whether an instruction has a label, jumps to one, or takes the address of one. -/
def Instr.isLabelled : Instr → Bool
  | label _ | jmp _ | je _ | lea .. => true
  | _ => false

/-- Two instructions are the same but for the numbers of labels. -/
inductive Instr.Relabelled (r : Relabelling) : Instr → Instr → Prop
  | label {x y : String} (h : r.Jumps x y) : Relabelled r (.label x) (.label y)
  | jmp {x y : String} (h : r.Jumps x y) : Relabelled r (.jmp x) (.jmp y)
  | je {x y : String} (h : r.Jumps x y) : Relabelled r (.je x) (.je y)
  | address {m n : Nat} (h : r.constants.pairs m n) :
    Relabelled r (.lea (.symbol (Constants.labels.label m) .rip) .rax)
      (.lea (.symbol (Constants.labels.label n) .rip) .rax)
  | same {i : Instr} (h : i.isLabelled = false) : Relabelled r i i

theorem Instr.Relabelled.eq {i j : Instr} (h : i.Relabelled .same j) : j = i := by
  have hjumps : ∀ {x y : String}, Relabelling.same.Jumps x y → y = x := by
    intro x y hxy
    cases hxy with
    | branch h => cases h; rfl
    | loop h => cases h; rfl
  cases h with
  | label h | jmp h | je h => rw [hjumps h]
  | address h => cases h; rfl
  | same => rfl

theorem Instr.Relabelled.unlabelled {r : Relabelling} {is : List Instr}
    (h : is.all (!·.isLabelled) = true) : List.Forall₂ (Instr.Relabelled r) is is :=
  List.forall₂_same.2 fun i hi => .same (by simpa using List.all_eq_true.1 h i hi)

/-- Two pieces of code are the same but for the numbers of labels. -/
def Code.Relabelled (r : Relabelling) (c d : Code) : Prop :=
  List.Forall₂ (Instr.Relabelled r) c.toList d.toList

namespace Code.Relabelled

variable {r : Relabelling} {c c' d d' : Code}

theorem append (h : Relabelled r c d) (h' : Relabelled r c' d') :
    Relabelled r (c ++ c') (d ++ d') := by
  unfold Relabelled
  rw [Code.toList_append, Code.toList_append]
  exact List.rel_append h h'

theorem instrs {is js : List Instr} (h : List.Forall₂ (Instr.Relabelled r) is js) :
    Relabelled r (.instrs is) (.instrs js) := by
  unfold Relabelled
  rwa [Code.toList_instrs, Code.toList_instrs]

theorem unlabelled {is : List Instr} (h : is.all (!·.isLabelled) = true) :
    Relabelled r (.instrs is) (.instrs is) :=
  instrs (Instr.Relabelled.unlabelled h)

end Code.Relabelled

/-! ## Making code side by side -/

/-- An error with another name for the variable that it is about. -/
def GenError.rename (f : String → String) : GenError → GenError
  | redefinedLocal name location => redefinedLocal (f name) location
  | unresolvedLocal name location => unresolvedLocal (f name) location
  | e => e

variable {f : String → String} {r : Relabelling} {α β γ δ : Type}

/-- Two steps succeed alike, or fail alike but for the names of variables. -/
inductive SameOutcome (f : String → String) (same : α → β → Prop) :
    Except GenError α → Except GenError β → Prop
  | ok {a : α} {b : β} (h : same a b) : SameOutcome f same (.ok a) (.ok b)
  | error (e : GenError) : SameOutcome f same (.error e) (.error (e.rename f))

namespace SameOutcome

variable {same : α → β → Prop} {same' : γ → δ → Prop} {x : Except GenError α}
  {y : Except GenError β}

/-- What fails without a variable fails alike. -/
theorem unnamed {e : GenError} (h : e.rename f = e) :
    SameOutcome f same (.error e) (.error e) := by
  have hsame : SameOutcome f same (.error e) (.error (e.rename f)) := .error e
  rwa [h] at hsame

theorem bind {g : α → Except GenError γ} {g' : β → Except GenError δ} (h : SameOutcome f same x y)
    (hg : ∀ a b, same a b → SameOutcome f same' (g a) (g' b)) :
    SameOutcome f same' (x >>= g) (y >>= g') := by
  cases h with
  | ok hab => exact hg _ _ hab
  | error e => exact .error e

end SameOutcome

/-- The labels that are free in two places have numbers that are paired. -/
structure Labels.Follow (r : Relabelling) (l m : Labels) : Prop where
  left : l.Standard
  right : m.Standard
  branches : r.branches.Follows l.branches.issued m.branches.issued
  loops : r.loops.Follows l.loops.issued m.loops.issued

/-- Two ways to make code do the same with labels that are paired. -/
def Emit.Alike (f : String → String) (r : Relabelling) (same : α → β → Prop) (x : Emit α)
    (y : Emit β) : Prop :=
  ∀ l m, Labels.Follow r l m →
    SameOutcome f (fun a b => same a.1 b.1 ∧ Labels.Follow r a.2 b.2) (x l) (y m)

namespace Emit.Alike

variable {same : α → β → Prop} {same' : γ → δ → Prop} {x : Emit α} {y : Emit β}

theorem pure {a : α} {b : β} (h : same a b) : Emit.Alike f r same (Pure.pure a) (Pure.pure b) :=
  fun _ _ hl => .ok ⟨h, hl⟩

theorem throw (e : GenError) : Emit.Alike f r same (throw e) (throw (e.rename f)) :=
  fun _ _ _ => .error e

theorem bind {g : α → Emit γ} {g' : β → Emit δ} (h : Emit.Alike f r same x y)
    (hg : ∀ a b, same a b → Emit.Alike f r same' (g a) (g' b)) :
    Emit.Alike f r same' (x >>= g) (y >>= g') := by
  intro l m hl
  rw [Emit.bind_apply, Emit.bind_apply]
  have hxy := h l m hl
  generalize x l = u, y m = v at hxy
  cases hxy with
  | ok hab => exact hg _ _ hab.1 _ _ hab.2
  | error e => exact .error e

theorem lift {u : Except GenError α} {v : Except GenError β} (h : SameOutcome f same u v) :
    Emit.Alike f r same (liftM u) (liftM v) := by
  intro l m hl
  cases h with
  | ok hab => exact .ok ⟨hab, hl⟩
  | error e => exact .error e

theorem branchLabel : Emit.Alike f r r.Jumps Emit.branchLabel Emit.branchLabel := by
  intro l m hl
  have hjump := Relabelling.Jumps.branch (hl.branches 0)
  rw [Nat.add_zero, Nat.add_zero, ← hl.left.branch_eq, ← hl.right.branch_eq] at hjump
  exact .ok ⟨hjump, ⟨hl.left.1, hl.left.2⟩, ⟨hl.right.1, hl.right.2⟩, hl.branches.add 1, hl.loops⟩

theorem loopLabel : Emit.Alike f r r.Jumps Emit.loopLabel Emit.loopLabel := by
  intro l m hl
  have hjump := Relabelling.Jumps.loop (hl.loops 0)
  rw [Nat.add_zero, Nat.add_zero, ← hl.left.loop_eq, ← hl.right.loop_eq] at hjump
  exact .ok ⟨hjump, ⟨hl.left.1, hl.left.2⟩, ⟨hl.right.1, hl.right.2⟩, hl.branches, hl.loops.add 1⟩

end Emit.Alike

/-! ## Other names -/

/-- A name is another one, changed by `f`. -/
structure Ident.Recast (f : String → String) (i j : Ident) : Prop where
  name : j.name = f i.name
  location : j.location = i.location

mutual

/-- An expression is another one with the names of variables changed by `f`. Of the notes of the
two, only the types of literals have to be the same. -/
inductive Recast (f : String → String) : Expr → Expr → Prop
  | literal {n n' text constant constant'} (hty : n'.ty = n.ty) (hn : n'.location = n.location) :
    Recast f (.literal n text constant) (.literal n' text constant')
  | var {n n' i j} (hi : Ident.Recast f i j) : Recast f (.var n i) (.var n' j)
  | call {n n' callee callee' arguments arguments'} (hn : n'.location = n.location)
    (hname : callee'.name = callee.name) (ha : RecastAll f arguments arguments') :
    Recast f (.call n callee arguments) (.call n' callee' arguments')
  | block {n n' body body' result result'} (hb : RecastAll f body body')
    (hr : RecastOpt f result result') : Recast f (.block n body result) (.block n' body' result')
  | bind {n n' i j type value value'} (hi : Ident.Recast f i j) (hv : Recast f value value') :
    Recast f (.bind n i type value) (.bind n' j type value')
  | assign {n n' i j value value'} (hi : Ident.Recast f i j) (hv : Recast f value value') :
    Recast f (.assign n i value) (.assign n' j value')
  | binary {n n' op left left' right right'} (hl : Recast f left left')
    (hr : Recast f right right') : Recast f (.binary n op left right) (.binary n' op left' right')
  | unary {n n' op value value'} (hv : Recast f value value') :
    Recast f (.unary n op value) (.unary n' op value')
  | group {n n' value value'} (hv : Recast f value value') :
    Recast f (.group n value) (.group n' value')
  | branch {n n' condition condition' onTrue onTrue' onFalse onFalse'}
    (hc : Recast f condition condition') (ht : Recast f onTrue onTrue')
    (hf : RecastOpt f onFalse onFalse') :
    Recast f (.branch n condition onTrue onFalse) (.branch n' condition' onTrue' onFalse')
  | ret {n n' value value'} (hv : Recast f value value') : Recast f (.ret n value) (.ret n' value')
  | loop {n n' condition condition' body body'} (hc : Recast f condition condition')
    (hb : Recast f body body') : Recast f (.loop n condition body) (.loop n' condition' body')
  | brk {n n'} (hn : n'.location = n.location) : Recast f (.brk n) (.brk n')

/-- The same of expressions that follow each other. -/
inductive RecastAll (f : String → String) : List Expr → List Expr → Prop
  | nil : RecastAll f [] []
  | cons {e e' es es'} (he : Recast f e e') (hes : RecastAll f es es') :
    RecastAll f (e :: es) (e' :: es')

/-- The same of expressions that may be missing. -/
inductive RecastOpt (f : String → String) : Option Expr → Option Expr → Prop
  | none : RecastOpt f none none
  | some {e e'} (he : Recast f e e') : RecastOpt f (some e) (some e')

end

/-! ## Frames side by side -/

/-- Scopes with their names changed by `f`. -/
def Scopes.rename (f : String → String) (s : Scopes α) : Scopes α :=
  ⟨s.chain.map (·.map fun x => (f x.1, x.2))⟩

namespace Scopes

theorem lookup_rename_scope (hf : Function.Injective f) (scope : List (String × α)) (x : String) :
    (scope.map fun y => (f y.1, y.2)).lookup (f x) = scope.lookup x := by
  induction scope with
  | nil => rfl
  | cons y scope ih =>
    obtain ⟨name, a⟩ := y
    by_cases hx : x = name
    · simp [hx]
    · have hne : f x ≠ f name := fun h => hx (hf h)
      simp [List.lookup_cons, beq_false_of_ne hx, beq_false_of_ne hne, ih]

theorem lookup_rename (hf : Function.Injective f) (s : Scopes α) (x : String) :
    (s.rename f).lookup (f x) = s.lookup x := by
  unfold rename lookup
  rw [List.findSome?_map]
  simp only [Function.comp_def, lookup_rename_scope hf]

theorem declare_rename (hf : Function.Injective f) (s : Scopes α) (x : String) (a : α) :
    (s.rename f).declare (f x) a = (s.declare x a).map id (rename f) := by
  obtain ⟨chain⟩ := s
  cases chain with
  | nil => rfl
  | cons scope outer =>
    simp only [declare_eq, rename, innermost?, List.map_cons, List.head?_cons, Option.bind_some,
      lookup_rename_scope hf]
    cases scope.lookup x <;> rfl

end Scopes

/-- A frame is another one with the names of variables changed by `f`, and with the labels of open
loops changed. -/
structure Frame.Recast (f : String → String) (r : Relabelling) (g h : Frame) : Prop where
  function : h.function = g.function
  offsets : h.vars.map (·.offset) = g.vars.map (·.offset)
  size : h.size = g.size
  scopes : h.scopes = g.scopes.rename f
  loops : List.Forall₂ r.Jumps g.loops h.loops

/-- The labels of constants that are added to two pools are paired. -/
structure Relabelling.Pools (r : Relabelling) (pools : Constants → Constants → Prop) : Prop where
  paired {c d : Constants} (h : pools c d) : r.constants.pairs c.entries.size d.entries.size
  allocate {c d : Constants} (h : pools c d) (text : String) (ty : Ty) :
    pools (c.allocate text ty).2 (d.allocate text ty).2

/-- A name has the place of another one, and is that one changed by `f`. -/
structure Ident.SameSlot (f : String → String) (i j : Ident) : Prop extends i.Recast f j where
  slot : j.slot = i.slot

theorem Frame.Recast.slotOf {g h : Frame} (hgh : g.Recast f r h) {i j : Ident}
    (hij : i.SameSlot f j) : SameOutcome f Eq (g.slotOf i) (h.slotOf j) := by
  have hvars : ∀ k : Nat, h.vars[k]?.map (·.offset) = g.vars[k]?.map (·.offset) := by
    intro k
    rw [← Array.getElem?_map, ← Array.getElem?_map, hgh.offsets]
  have hfound : (j.slot.bind fun k => h.vars[k]?).map (·.offset) =
      (i.slot.bind fun k => g.vars[k]?).map (·.offset) := by
    rw [hij.slot]
    cases i.slot with
    | none => rfl
    | some k => exact hvars k
  -- Only offsets are written into code, so a variable that one frame has is at the same place in
  -- the other.
  unfold Frame.slotOf
  generalize (i.slot.bind fun k => g.vars[k]?) = u, (j.slot.bind fun k => h.vars[k]?) = v at hfound
  cases u with
  | none =>
    cases v with
    | none =>
      rw [hij.name, hij.location]
      exact .error _
    | some => cases hfound
  | some u =>
    cases v with
    | none => cases hfound
    | some v =>
      have hoffset : v.offset = u.offset := Option.some.inj hfound
      dsimp only
      rw [hoffset]
      exact .ok rfl

section
variable (f r) (pools : Constants → Constants → Prop)

/-- What is placed of two trees up to somewhere differs in names and labels alone. -/
structure Layout.Recast (s t : Layout) : Prop where
  frame : s.frame.Recast f r t.frame
  constants : pools s.constants t.constants

/-- Two walks end alike, and with alike results if they get to their end. -/
structure Placed.Recast (same : α → β → Prop) (p : Placed α) (q : Placed β) : Prop where
  layout : Layout.Recast f r pools p.layout q.layout
  error : q.error = p.error.map (GenError.rename f)
  value : p.error = none → same p.value q.value

end

variable {pools : Constants → Constants → Prop}

namespace Placed.Recast

variable {same : α → β → Prop} {same' : γ → δ → Prop} {p : Placed α} {q : Placed β}

theorem map {g : α → γ} {g' : β → δ} (h : Placed.Recast f r pools same p q)
    (hg : ∀ a b, same a b → same' (g a) (g' b)) :
    Placed.Recast f r pools same' (p.map g) (q.map g') :=
  ⟨h.layout, h.error, fun he => hg _ _ (h.value he)⟩

theorem leave (h : Placed.Recast f r pools same p q) :
    Placed.Recast f r pools same p.leave q.leave := by
  refine ⟨⟨⟨h.layout.frame.function, h.layout.frame.offsets, h.layout.frame.size, ?_,
    h.layout.frame.loops⟩, h.layout.constants⟩, h.error, h.value⟩
  simp only [Placed.leave, Frame.leave, h.layout.frame.scopes]
  simp [Scopes.pop, Scopes.rename]

theorem andThen {second : γ} {second' : δ} {go : Layout → Placed γ} {go' : Layout → Placed δ}
    (h : Placed.Recast f r pools same p q)
    (hgo : ∀ s t, Layout.Recast f r pools s t → Placed.Recast f r pools same' (go s) (go' t)) :
    Placed.Recast f r pools (fun x y => same x.1 y.1 ∧ same' x.2 y.2) (p.andThen second go)
      (q.andThen second' go') := by
  unfold Placed.andThen
  rw [h.error]
  cases he : p.error with
  | some e => exact ⟨h.layout, rfl, fun hn => by cases hn⟩
  | none =>
    have hrest := hgo _ _ h.layout
    exact ⟨hrest.layout, hrest.error, fun hn => ⟨h.value he, hrest.value hn⟩⟩

end Placed.Recast

namespace Layout.Recast

variable {s t : Layout} {i j : Ident}

theorem enter (h : Layout.Recast f r pools s t) : Layout.Recast f r pools s.enter t.enter := by
  refine ⟨⟨h.frame.function, h.frame.offsets, h.frame.size, ?_, h.frame.loops⟩, h.constants⟩
  simp only [Layout.enter, Frame.enter, h.frame.scopes]
  rfl

theorem register (hf : Function.Injective f) (h : Layout.Recast f r pools s t)
    (hij : i.Recast f j) (ty : Ty) :
    Placed.Recast f r pools (Ident.SameSlot f) (s.register ty i) (t.register ty j) := by
  have hsize : t.frame.vars.size = s.frame.vars.size := by
    simpa using congrArg Array.size h.frame.offsets
  simp only [Layout.register, Frame.register, hij.name, hij.location, h.frame.scopes, hsize,
    h.frame.size, Scopes.declare_rename hf]
  rcases s.frame.scopes.declare i.name s.frame.vars.size with ⟨existing | _, scopes⟩
  · exact ⟨⟨⟨h.frame.function, h.frame.offsets, rfl, rfl, h.frame.loops⟩, h.constants⟩, rfl,
      fun hn => by cases hn⟩
  · refine ⟨⟨⟨h.frame.function, ?_, rfl, rfl, h.frame.loops⟩, h.constants⟩, rfl, fun _ => ?_⟩
    · simp [h.frame.offsets]
    · exact ⟨⟨rfl, rfl⟩, rfl⟩

theorem bind (hf : Function.Injective f) (h : Layout.Recast f r pools s t)
    (hij : i.Recast f j) : Placed.Recast f r pools (Ident.SameSlot f) (s.bind i) (t.bind j) := by
  unfold Layout.bind Frame.resolve
  rw [hij.name, hij.location, h.frame.scopes, Scopes.lookup_rename hf]
  cases s.frame.scopes.lookup i.name with
  | none => exact ⟨h, rfl, fun hn => by cases hn⟩
  | some k => exact ⟨h, rfl, fun _ => ⟨⟨rfl, rfl⟩, rfl⟩⟩

end Layout.Recast

/-! ## Code side by side -/

/-- The surroundings of two trees differ in names and labels alone. -/
structure Surroundings.Recast (f : String → String) (r : Relabelling) (env env' : Surroundings) :
    Prop where
  frame : env.frame.Recast f r env'.frame
  functions : env'.functions = env.functions
  comments : env'.comments = env.comments

theorem Surroundings.Recast.inLoop {env env' : Surroundings} (h : env.Recast f r env')
    {x y : String} (hxy : r.Jumps x y) : (env.inLoop x).Recast f r (env'.inLoop y) :=
  ⟨⟨h.frame.function, h.frame.offsets, h.frame.size, h.frame.scopes, .cons hxy h.frame.loops⟩,
    h.functions, h.comments⟩

/-- Two expressions have the same code but for the numbers of labels, or the same error. -/
def Expr.RecastCode (f : String → String) (r : Relabelling) (d e : Expr) : Prop :=
  ∀ env env', Surroundings.Recast f r env env' →
    Emit.Alike f r (Code.Relabelled r) (d.emit env) (e.emit env')

/-- The same of expressions that follow each other, and of arguments. -/
structure RecastCodes (f : String → String) (r : Relabelling) (ds es : List Expr) : Prop where
  length : es.length = ds.length
  statements (env env' : Surroundings) (h : env.Recast f r env') :
    Emit.Alike f r (Code.Relabelled r) (emitAll env ds) (emitAll env' es)
  arguments (env env' : Surroundings) (h : env.Recast f r env') :
    Emit.Alike f r (Code.Relabelled r) (emitArguments env ds) (emitArguments env' es)

/-- The same of expressions that may be missing. -/
def RecastOptCode (f : String → String) (r : Relabelling) (d e : Option Expr) : Prop :=
  ∀ env env', Surroundings.Recast f r env env' → ∀ heading : List Instr,
    heading.all (!·.isLabelled) = true →
    Emit.Alike f r (Code.Relabelled r) (emitOpt env heading d) (emitOpt env' heading e)

theorem BinaryOp.unlabelled_code (op : BinaryOp) : op.code.all (!·.isLabelled) = true := by
  cases op <;> rfl

theorem UnaryOp.unlabelled_code (op : UnaryOp) : op.code.all (!·.isLabelled) = true := by
  cases op <;> rfl

theorem unlabelled_remark (wanted : Bool) (text : String) :
    (remark wanted text).all (!·.isLabelled) = true := by
  cases wanted <;> rfl

theorem Code.Relabelled.remark (wanted : Bool) (text : String) :
    Code.Relabelled r (.instrs (remark wanted text)) (.instrs (remark wanted text)) :=
  .unlabelled (unlabelled_remark ..)

/-- Code behind a comment. -/
theorem Code.Relabelled.remarked {wanted : Bool} {text : String} {is js : List Instr}
    (h : List.Forall₂ (Instr.Relabelled r) is js) :
    Code.Relabelled r (.instrs (Ilang.remark wanted text ++ is))
      (.instrs (Ilang.remark wanted text ++ js)) :=
  .instrs (List.rel_append (Instr.Relabelled.unlabelled (unlabelled_remark ..)) h)

theorem unlabelled_popArguments {k : Nat} {is : List Instr} (h : popArguments k = .ok is) :
    is.all (!·.isLabelled) = true := by
  refine List.all_eq_true.2 fun i hi => ?_
  obtain ⟨x, rfl⟩ := mem_popArguments h i hi
  rfl

/-- Literals have the same code but for the numbers of labels. -/
theorem literalCode_recast {n n' : Node} {text : String} {constant constant' : Option String}
    (hty : n'.ty = n.ty) (hn : n'.location = n.location)
    (hstring : n.ty = .string → ∃ k k', r.constants.pairs k k' ∧
      constant = some (Constants.labels.label k) ∧ constant' = some (Constants.labels.label k')) :
    SameOutcome f (List.Forall₂ (Instr.Relabelled r)) (literalCode n text constant)
      (literalCode n' text constant') := by
  unfold literalCode
  rw [hty, hn]
  cases ht : n.ty with
  | int =>
    cases Text.int64? text with
    | none => exact .error _
    | some value => exact .ok (.cons (.same rfl) .nil)
  | bool =>
    dsimp only
    split
    · exact .ok (.cons (.same rfl) .nil)
    · split
      · exact .ok (.cons (.same rfl) .nil)
      · exact .error _
  | string =>
    obtain ⟨k, k', hpair, rfl, rfl⟩ := hstring ht
    exact .ok (.cons (.address hpair) .nil)
  | unit => exact .ok .nil
  | float | undefined => exact .error _

namespace Expr.RecastCode

variable {n n' : Node} {d d' e e' : Expr}

theorem literal {text : String} {constant constant' : Option String} (hty : n'.ty = n.ty)
    (hn : n'.location = n.location)
    (hstring : n.ty = .string → ∃ k k', r.constants.pairs k k' ∧
      constant = some (Constants.labels.label k) ∧ constant' = some (Constants.labels.label k')) :
    Expr.RecastCode f r (.literal n text constant) (.literal n' text constant') := by
  intro env env' henv
  simp only [Expr.emit, henv.comments]
  refine (Emit.Alike.lift (literalCode_recast hty hn hstring)).bind fun is js hij => .pure ?_
  exact .remarked hij

theorem var {i j : Ident} (hij : i.SameSlot f j) :
    Expr.RecastCode f r (.var n i) (.var n' j) := by
  intro env env' henv
  simp only [Expr.emit, henv.comments]
  refine (Emit.Alike.lift (henv.frame.slotOf hij)).bind fun _ _ hplace => .pure ?_
  subst hplace
  exact .remarked (Instr.Relabelled.unlabelled rfl)

theorem call {callee callee' : Ident} {as bs : List Expr} (hn : n'.location = n.location)
    (hname : callee'.name = callee.name) (h : RecastCodes f r as bs) :
    Expr.RecastCode f r (.call n callee as) (.call n' callee' bs) := by
  intro env env' henv
  simp only [Expr.emit, h.length, hname, hn, henv.functions, henv.comments]
  split
  · exact .throw _
  · rename_i hmax
    obtain ⟨pops, hpops⟩ := popArguments_ok (Nat.le_of_not_lt hmax)
    rw [hpops]
    refine (h.arguments env env' henv).bind fun c c' hc => .pure ?_
    exact (((Code.Relabelled.remark ..).append hc).append
      (.unlabelled (unlabelled_popArguments hpops))).append (.unlabelled rfl)

theorem block {as bs : List Expr} {a b : Option Expr} (hbody : RecastCodes f r as bs)
    (hresult : RecastOptCode f r a b) :
    Expr.RecastCode f r (.block n as a) (.block n' bs b) := by
  intro env env' henv
  simp only [Expr.emit, henv.comments]
  refine (hbody.statements env env' henv).bind fun c c' hc =>
    (hresult env env' henv _ (unlabelled_remark ..)).bind fun d d' hd => .pure ?_
  exact ((Code.Relabelled.remark ..).append hc).append hd

theorem bind {i j : Ident} {type : TypeRef} (h : Expr.RecastCode f r d e)
    (hij : i.SameSlot f j) : Expr.RecastCode f r (.bind n i type d) (.bind n' j type e) := by
  intro env env' henv
  simp only [Expr.emit, henv.comments]
  refine (h env env' henv).bind fun c c' hc =>
    (Emit.Alike.lift (henv.frame.slotOf hij)).bind fun _ _ hplace => .pure ?_
  subst hplace
  exact hc.append (.remarked (Instr.Relabelled.unlabelled rfl))

theorem assign {i j : Ident} (h : Expr.RecastCode f r d e) (hij : i.SameSlot f j) :
    Expr.RecastCode f r (.assign n i d) (.assign n' j e) := by
  intro env env' henv
  simp only [Expr.emit, henv.comments]
  refine (h env env' henv).bind fun c c' hc =>
    (Emit.Alike.lift (henv.frame.slotOf hij)).bind fun _ _ hplace => .pure ?_
  subst hplace
  exact hc.append (.remarked (Instr.Relabelled.unlabelled rfl))

theorem binary {op : BinaryOp} (hleft : Expr.RecastCode f r d e)
    (hright : Expr.RecastCode f r d' e') :
    Expr.RecastCode f r (.binary n op d d') (.binary n' op e e') := by
  intro env env' henv
  simp only [Expr.emit, henv.comments]
  -- Placement goes through the left operand first, emission through the right one.
  refine (hright env env' henv).bind fun c c' hc =>
    (hleft env env' henv).bind fun g g' hg => .pure ?_
  exact ((((Code.Relabelled.remark ..).append hc).append (.unlabelled rfl)).append hg).append
    (.unlabelled op.unlabelled_code)

theorem unary {op : UnaryOp} (h : Expr.RecastCode f r d e) :
    Expr.RecastCode f r (.unary n op d) (.unary n' op e) := by
  intro env env' henv
  simp only [Expr.emit, henv.comments]
  refine (h env env' henv).bind fun c c' hc => .pure ?_
  exact ((Code.Relabelled.remark ..).append hc).append (.unlabelled op.unlabelled_code)

theorem group (h : Expr.RecastCode f r d e) :
    Expr.RecastCode f r (.group n d) (.group n' e) := by
  intro env env' henv
  simp only [Expr.emit]
  exact h env env' henv

theorem branch {a b : Option Expr} (hcondition : Expr.RecastCode f r d e)
    (htrue : Expr.RecastCode f r d' e') (hfalse : RecastOptCode f r a b) :
    Expr.RecastCode f r (.branch n d d' a) (.branch n' e e' b) := by
  intro env env' henv
  simp only [Expr.emit, henv.comments]
  refine Emit.Alike.branchLabel.bind fun x x' hx => Emit.Alike.branchLabel.bind fun y y' hy =>
    (hcondition env env' henv).bind fun c c' hc => (htrue env env' henv).bind fun t t' ht =>
    (hfalse env env' henv _ rfl).bind fun g g' hg => .pure ?_
  have htest : Code.Relabelled r (.instrs [.cmp (.imm 0) Reg.rax, .je x])
      (.instrs [.cmp (.imm 0) Reg.rax, .je x']) :=
    .instrs (.cons (.same rfl) (.cons (.je hx) .nil))
  exact (((((Code.Relabelled.remark ..).append hc).append htest).append ht).append
    (.instrs (.cons (.jmp hy) (.cons (.label hx) .nil)))).append hg |>.append
    (.instrs (.cons (.label hy) .nil))

theorem ret (h : Expr.RecastCode f r d e) : Expr.RecastCode f r (.ret n d) (.ret n' e) := by
  intro env env' henv
  simp only [Expr.emit, henv.comments]
  refine (h env env' henv).bind fun c c' hc => .pure ?_
  exact ((Code.Relabelled.remark ..).append hc).append (.unlabelled rfl)

theorem loop (hcondition : Expr.RecastCode f r d e) (hbody : Expr.RecastCode f r d' e') :
    Expr.RecastCode f r (.loop n d d') (.loop n' e e') := by
  intro env env' henv
  simp only [Expr.emit]
  refine Emit.Alike.loopLabel.bind fun x x' hx => Emit.Alike.loopLabel.bind fun y y' hy => ?_
  -- The end of the loop is what a `break` in the condition or the body jumps to, on both sides.
  have hinside := henv.inLoop hy
  refine (hcondition _ _ hinside).bind fun c c' hc =>
    (hbody _ _ hinside).bind fun g g' hg => .pure ?_
  rw [henv.comments]
  have htest : Code.Relabelled r (.instrs [.cmp (.imm 0) Reg.rax, .je y])
      (.instrs [.cmp (.imm 0) Reg.rax, .je y']) :=
    .instrs (.cons (.same rfl) (.cons (.je hy) .nil))
  exact ((((Code.Relabelled.remarked (.cons (.label hx) .nil)).append hc).append htest).append
    hg).append
    (.instrs (.cons (.jmp hx) (.cons (.label hy) .nil)))

theorem brk (hn : n'.location = n.location) : Expr.RecastCode f r (.brk n) (.brk n') := by
  intro env env' henv
  simp only [Expr.emit, Frame.currentLoop?, hn, henv.comments]
  -- Both are outside all loops, or both jump to the ends of loops that correspond.
  have hloops := henv.frame.loops
  generalize env.frame.loops = ls, env'.frame.loops = ls' at hloops
  cases hloops with
  | nil => exact .throw _
  | cons hx _ => exact .pure (.remarked (.cons (.jmp hx) .nil))

end Expr.RecastCode

mutual

/-- Trees that differ in the names of variables are placed alike, and have the same code but for the
numbers of labels. -/
theorem Recast.place (hf : Function.Injective f) (hpools : r.Pools pools) {d e : Expr}
    (h : Recast f d e) {s t : Layout} (hst : Layout.Recast f r pools s t) :
    Placed.Recast f r pools (Expr.RecastCode f r) (d.place s) (e.place t) := by
  cases h with
  | @literal n n' text constant constant' hty hn =>
    simp only [Expr.place, hty]
    -- Only a string takes a constant, and both pools then give out their next one.
    by_cases hstring : n.ty = .string
    · rw [if_pos hstring, if_pos hstring]
      exact ⟨⟨hst.frame, hpools.allocate hst.constants _ _⟩, rfl, fun _ =>
        .literal hty hn fun _ => ⟨_, _, hpools.paired hst.constants, rfl, rfl⟩⟩
    · rw [if_neg hstring, if_neg hstring]
      exact ⟨hst, rfl, fun _ => .literal hty hn fun h => absurd h hstring⟩
  | var hi =>
    simp only [Expr.place]
    exact (hst.bind hf hi).map fun i j hij => .var hij
  | call hn hname ha =>
    simp only [Expr.place]
    exact (RecastAll.place hf hpools ha hst).map fun as bs hab => .call hn hname hab
  | block hb hr =>
    simp only [Expr.place]
    refine ((RecastAll.place hf hpools hb hst.enter).andThen fun s t hst =>
      RecastOpt.place hf hpools hr hst).leave.map ?_
    rintro ⟨as, a⟩ ⟨bs, b⟩ ⟨hbody, hresult⟩
    exact .block hbody hresult
  | bind hi hv =>
    simp only [Expr.place]
    refine ((Recast.place hf hpools hv hst).andThen fun s t hst => hst.register hf hi _).map ?_
    rintro ⟨a, i⟩ ⟨b, j⟩ ⟨hvalue, hident⟩
    exact .bind hvalue hident
  | assign hi hv =>
    simp only [Expr.place]
    refine ((Recast.place hf hpools hv hst).andThen fun s t hst => hst.bind hf hi).map ?_
    rintro ⟨a, i⟩ ⟨b, j⟩ ⟨hvalue, hident⟩
    exact .assign hvalue hident
  | binary hl hr =>
    simp only [Expr.place]
    refine ((Recast.place hf hpools hl hst).andThen fun s t hst =>
      Recast.place hf hpools hr hst).map ?_
    rintro ⟨a, a'⟩ ⟨b, b'⟩ ⟨hleft, hright⟩
    exact .binary hleft hright
  | unary hv =>
    simp only [Expr.place]
    exact (Recast.place hf hpools hv hst).map fun a b hab => .unary hab
  | group hv =>
    simp only [Expr.place]
    exact (Recast.place hf hpools hv hst).map fun a b hab => .group hab
  | branch hc ht hfalse =>
    simp only [Expr.place]
    refine (((Recast.place hf hpools hc hst).andThen fun s t hst =>
      Recast.place hf hpools ht hst).andThen fun s t hst =>
      RecastOpt.place hf hpools hfalse hst).map ?_
    rintro ⟨⟨a, a'⟩, a''⟩ ⟨⟨b, b'⟩, b''⟩ ⟨⟨hcondition, htrue⟩, hfalse⟩
    exact .branch hcondition htrue hfalse
  | ret hv =>
    simp only [Expr.place]
    exact (Recast.place hf hpools hv hst).map fun a b hab => .ret hab
  | loop hc hb =>
    simp only [Expr.place]
    refine ((Recast.place hf hpools hc hst).andThen fun s t hst =>
      Recast.place hf hpools hb hst).map ?_
    rintro ⟨a, a'⟩ ⟨b, b'⟩ ⟨hcondition, hbody⟩
    exact .loop hcondition hbody
  | brk hn =>
    simp only [Expr.place]
    exact ⟨hst, rfl, fun _ => .brk hn⟩

theorem RecastAll.place (hf : Function.Injective f) (hpools : r.Pools pools) {ds es : List Expr}
    (h : RecastAll f ds es) {s t : Layout} (hst : Layout.Recast f r pools s t) :
    Placed.Recast f r pools (RecastCodes f r) (placeAll s ds) (placeAll t es) := by
  cases h with
  | nil =>
    exact ⟨hst, rfl, fun _ => ⟨rfl, fun _ _ _ => .pure (.instrs .nil),
      fun _ _ _ => .pure (.instrs .nil)⟩⟩
  | cons he hes =>
    simp only [placeAll]
    refine ((Recast.place hf hpools he hst).andThen fun s t hst =>
      RecastAll.place hf hpools hes hst).map ?_
    rintro ⟨a, as⟩ ⟨b, bs⟩ ⟨hfirst, hothers⟩
    refine ⟨congrArg (· + 1) hothers.length, fun env env' henv => ?_, fun env env' henv => ?_⟩
    · simp only [emitAll]
      exact (hfirst env env' henv).bind fun c c' hc =>
        (hothers.statements env env' henv).bind fun d d' hd => .pure (hc.append hd)
    · simp only [emitArguments]
      exact (hfirst env env' henv).bind fun c c' hc =>
        (hothers.arguments env env' henv).bind fun d d' hd =>
          .pure ((hc.append (.unlabelled rfl)).append hd)

theorem RecastOpt.place (hf : Function.Injective f) (hpools : r.Pools pools) {d e : Option Expr}
    (h : RecastOpt f d e) {s t : Layout} (hst : Layout.Recast f r pools s t) :
    Placed.Recast f r pools (RecastOptCode f r) (placeOpt s d) (placeOpt t e) := by
  cases h with
  | none => exact ⟨hst, rfl, fun _ _ _ _ _ _ => .pure (.unlabelled rfl)⟩
  | some he =>
    simp only [placeOpt]
    refine (Recast.place hf hpools he hst).map fun a b hab env env' henv heading hheading => ?_
    simp only [emitOpt]
    exact (hab env env' henv).bind fun c c' hc =>
      .pure ((Code.Relabelled.unlabelled hheading).append hc)

end

/-! ## Functions side by side -/

/-- A parameter is another one with its name changed by `f`. -/
structure Param.Recast (f : String → String) (p q : Param) : Prop where
  ident : p.ident.Recast f q.ident
  type : q.type = p.type

/-- A function is another one with the names of its variables changed by `f`. -/
structure Function.Recast (f : String → String) (g h : Function) : Prop where
  name : h.ident.name = g.ident.name
  location : h.ident.location = g.ident.location
  params : List.Forall₂ (Param.Recast f) g.params h.params
  body : Ilang.Recast f g.body h.body

/-- Two lists of parameters have values that are put into the same places, or the same error. -/
structure RecastStores (f : String → String) (r : Relabelling) (ps qs : List Param) : Prop where
  length : qs.length = ps.length
  stores (g h : Frame) (hgh : g.Recast f r h) (index : Nat) :
    SameOutcome f (fun is js => js = is ∧ is.all (!·.isLabelled) = true) (storeParams g index ps)
      (storeParams h index qs)

theorem argumentReg_alike (index : Nat) :
    SameOutcome f Eq (Convention.argumentReg index) (Convention.argumentReg index) := by
  unfold Convention.argumentReg
  split
  · exact .ok rfl
  · exact .unnamed rfl

theorem placeParams_recast (hf : Function.Injective f) {ps qs : List Param}
    (h : List.Forall₂ (Param.Recast f) ps qs) {s t : Layout}
    (hst : Layout.Recast f r pools s t) :
    Placed.Recast f r pools (RecastStores f r) (placeParams s ps) (placeParams t qs) := by
  induction h generalizing s t with
  | nil => exact ⟨hst, rfl, fun _ => ⟨rfl, fun _ _ _ _ => .ok ⟨rfl, rfl⟩⟩⟩
  | @cons p q ps qs hp _ ih =>
    simp only [placeParams, hp.type]
    refine ((hst.register hf hp.ident p.type.ty).andThen fun s t hst => ih hst).map ?_
    rintro ⟨i, ps'⟩ ⟨j, qs'⟩ ⟨hij, hothers⟩
    refine ⟨congrArg (· + 1) hothers.length, fun g h hgh index => ?_⟩
    simp only [storeParams]
    refine (argumentReg_alike index).bind fun reg _ hreg => (hgh.slotOf hij).bind
      fun place _ hplace => (hothers.stores g h hgh (index + 1)).bind fun is js hijs => ?_
    obtain ⟨rfl, hall⟩ := hijs
    subst hreg hplace
    exact .ok ⟨rfl, by simpa [Instr.isLabelled] using hall⟩

/-- The code of two functions of one name: the same but for the numbers of labels behind the name,
which stays. -/
def Instr.SameBlock (r : Relabelling) (name : String) (block block' : List Instr) : Prop :=
  ∃ is js, block = .label name :: is ∧ block' = .label name :: js ∧
    List.Forall₂ (Instr.Relabelled r) is js

/-- Two functions have the same code but for the numbers of labels, or the same error. -/
structure Function.RecastCode (f : String → String) (r : Relabelling) (g h : Function) :
    Prop where
  name : h.ident.name = g.ident.name
  code (comments : Bool) (functions : List String) (frame frame' : Frame)
    (hframe : frame.Recast f r frame') :
    Emit.Alike f r (fun c d => Instr.SameBlock r frame.function c.toList d.toList)
      (g.emit comments functions frame) (h.emit comments functions frame')

theorem Function.Recast.place (hf : Function.Injective f) (hpools : r.Pools pools)
    {g h : Function} (hgh : g.Recast f h) {c d : Constants} (hcd : pools c d) :
    Placed.Recast f r pools (Function.RecastCode f r) (g.place c) (h.place d) := by
  have hstart : Layout.Recast f r pools
      (Layout.enter ⟨{ function := g.ident.name }, c⟩)
      (Layout.enter ⟨{ function := h.ident.name }, d⟩) :=
    ⟨⟨hgh.name, rfl, rfl, rfl, .nil⟩, hcd⟩
  unfold Function.place
  refine ((placeParams_recast hf hgh.params hstart).andThen fun s t hst =>
    Ilang.Recast.place hf hpools hgh.body hst).leave.map ?_
  rintro ⟨ps, a⟩ ⟨qs, b⟩ ⟨hparams, hbody⟩
  refine ⟨hgh.name, fun comments functions frame frame' hframe => ?_⟩
  simp only [Function.emit, hparams.length, hframe.function, hframe.size]
  split
  · exact .throw _
  · refine (Emit.Alike.lift (hparams.stores frame frame' hframe 0)).bind fun is js hijs =>
      (hbody ⟨frame, functions, comments⟩ ⟨frame', functions, comments⟩ ⟨hframe, rfl, rfl⟩).bind
        fun c d hcd => .pure ?_
    obtain ⟨rfl, hall⟩ := hijs
    simp only [Code.toList_append, Code.toList_instrs, List.cons_append, List.append_assoc,
      List.nil_append]
    refine ⟨_, _, rfl, rfl, ?_⟩
    -- All but the body is the same on both sides: it has neither labels nor constants.
    have hremark (text : String) : List.Forall₂ (Instr.Relabelled r) (remark comments text) _ :=
      Instr.Relabelled.unlabelled (unlabelled_remark ..)
    have hend := List.rel_append hcd (List.rel_append (hremark "epilogue")
      (Instr.Relabelled.unlabelled (rfl : [Instr.leave, .ret].all (!·.isLabelled) = true)))
    exact List.rel_append (hremark _) (.cons (.same rfl) (.cons (.same rfl)
      (List.rel_append (hremark _) (.cons (.same rfl) (List.rel_append (hremark _)
      (List.rel_append (Instr.Relabelled.unlabelled hall) (List.rel_append (hremark _) hend)))))))

end Ilang
