import Ilang.Proofs.Labels
import Ilang.Proofs.Placement
import Ilang.Proofs.Reading
import Ilang.Proofs.Walks
/-!
# The loops around a `break`

The checker counts the loops around a `break` to see whether there is one, and the making of code
keeps the labels at their ends. The two do not count the same loops: a loop is open for code as soon
as its condition is made, but the checker counts it for its body only. `Expr.loopsAround` says which
part of which loops a place stands in. The checker counts the bodies among them
(`Expr.check_put`), code has a label for each of them (`Walk.exists_ends`), and so the two agree on
every `break` that stands in no condition (`Function.breaks_counted`).
-/
namespace Ilang

/-! ## The loops around a place -/

/-- The part of a loop in which something stands. -/
inductive LoopPart where
  | condition
  | body
deriving DecidableEq, Repr

/-- The part of a loop that a child is, if the expression is a loop. -/
def Expr.loopPart? : Expr → Nat → Option LoopPart
  | .loop .., 0 => some .condition
  | .loop .., 1 => some .body
  | _, _ => none

/-- The parts of loops in which a place stands, those of the innermost loop first. -/
def Expr.loopsAround : List Nat → Expr → List LoopPart
  | [], _ => []
  | i :: path, e =>
    match e.children[i]? with
    | some c => c.loopsAround path ++ (e.loopPart? i).toList
    | none => []

namespace Expr

theorem loopsAround_cons {e c : Expr} {i : Nat} (hc : e.children[i]? = some c) (path : List Nat) :
    e.loopsAround (i :: path) = c.loopsAround path ++ (e.loopPart? i).toList := by
  rw [loopsAround, hc]

theorem loopPart?_eq_body {e c : Expr} {i : Nat} (h : e.loopPart? i = some .body)
    (hc : e.children[i]? = some c) : ∃ n condition, e = .loop n condition c ∧ i = 1 := by
  unfold loopPart? at h
  split at h
  · cases h
  · cases hc
    exact ⟨_, _, rfl, rfl⟩
  · cases h

theorem loopPart?_strip (k : Keep) (e : Expr) (i : Nat) :
    (e.strip k).loopPart? i = e.loopPart? i := by
  cases e with
  | loop n condition body => rcases i with _ | _ | i <;> rfl
  | _ => rfl

theorem at?_strip (k : Keep) (path : List Nat) (e : Expr) :
    (e.strip k).at? path = (e.at? path).map (strip k) := by
  induction path generalizing e with
  | nil => rfl
  | cons i path ih =>
    rw [at?, at?, children_strip, List.getElem?_map]
    cases e.children[i]? with
    | none => rfl
    | some c => exact ih c

theorem loopsAround_strip (k : Keep) (path : List Nat) (e : Expr) :
    (e.strip k).loopsAround path = e.loopsAround path := by
  induction path generalizing e with
  | nil => rfl
  | cons i path ih =>
    rw [loopsAround, loopsAround, children_strip, List.getElem?_map, loopPart?_strip]
    cases e.children[i]? with
    | none => rfl
    | some c => simp only [Option.map_some, ih]

end Expr

theorem LoopPart.count_add_count (around : List LoopPart) :
    around.count .body + around.count .condition = around.length := by
  induction around with
  | nil => rfl
  | cons part around ih =>
    cases part <;> simp only [List.count_cons, List.length_cons, beq_self_eq_true, if_true] <;>
      simp <;> omega

/-! ## The checker -/

section Reports

variable (table : DeclTable) (returns : Ty) (depth : Nat)

theorem checkAll_append (ds es : List Expr) : checkAll table returns depth (ds ++ es) =
    checkAll table returns depth ds ++ checkAll table returns depth es := by
  induction ds with
  | nil => rfl
  | cons d ds ih => rw [List.cons_append, checkAll, checkAll, ih, List.append_assoc]

theorem checkAll_set {es : List Expr} {i : Nat} (hi : i < es.length) (x : Expr) :
    checkAll table returns depth (es.set i x) = checkAll table returns depth (es.take i) ++
      x.check table returns depth ++ checkAll table returns depth (es.drop (i + 1)) := by
  rw [List.set_eq_take_append_cons_drop, if_pos hi, checkAll_append, checkAll, List.append_assoc]

theorem DeclTable.checkCall_set {as : List Expr} {i : Nat} {c x : Expr} (hc : as[i]? = some c)
    (hx : x.face = c.face) (callee : Ident) (location : Location) :
    table.checkCall callee (as.set i x) location = table.checkCall callee as location := by
  obtain ⟨hi, rfl⟩ := List.getElem?_eq_some_iff.1 hc
  have hfaces : (as.set i x).map Expr.face = as.map Expr.face := by
    rw [List.map_set, hx, ← List.map_set, List.set_getElem_self]
  simp only [checkCall, List.length_set, checkArguments_eq _ _ _ hfaces]

theorem checkCondition_eq {c x : Expr} (hx : x.face = c.face) (construct : Conditional) :
    checkCondition construct x = checkCondition construct c := by
  obtain ⟨hty, hlocation⟩ := Prod.mk.inj hx
  rw [checkCondition, checkCondition, hty, hlocation]

theorem Expr.check_withChild {e c : Expr} {i : Nat} (hc : e.children[i]? = some c) :
    ∃ before after, ∀ x : Expr, x.face = c.face → (e.withChild i x).check table returns depth =
      before ++ x.check table returns (depth + (e.loopPart? i).toList.count .body) ++ after := by
  cases e with
  | literal | var | brk => cases hc
  | call n callee arguments =>
    have hc : arguments[i]? = some c := hc
    have hi := (List.getElem?_eq_some_iff.1 hc).1
    exact ⟨_, _, fun x hx => by
      rw [withChild, check, checkAll_set table returns depth hi, table.checkCall_set hc hx,
        List.append_assoc]
      rfl⟩
  | block n body result =>
    rw [children, List.getElem?_append] at hc
    split at hc
    · rename_i hi
      exact ⟨_, _, fun x hx => by
        rw [withChild, if_pos hi, check, checkAll_set table returns depth hi, List.append_assoc]
        rfl⟩
    · rename_i hi
      cases result with
      | none => cases hc
      | some e =>
        exact ⟨_, [], fun x hx => by
          rw [withChild, if_neg hi, check, List.append_nil]
          rfl⟩
  | bind | assign | ret =>
    obtain ⟨rfl, rfl⟩ := eq_of_getElem?_singleton hc
    exact ⟨[], _, fun x hx => by
      obtain ⟨hty, -⟩ := Prod.mk.inj hx
      simp only [withChild, check, hty, List.append_assoc]
      rfl⟩
  | unary n op operand =>
    obtain ⟨rfl, rfl⟩ := eq_of_getElem?_singleton hc
    exact ⟨_, [], fun x hx => by
      obtain ⟨hty, -⟩ := Prod.mk.inj hx
      rw [withChild, check, hty, List.append_nil]
      rfl⟩
  | group n inner =>
    obtain ⟨rfl, rfl⟩ := eq_of_getElem?_singleton hc
    exact ⟨[], [], fun x _ => by
      rw [withChild, check, List.append_nil]
      rfl⟩
  | binary n op left right =>
    rcases i with _ | _ | i <;> cases hc
    · exact ⟨_, _, fun x hx => by
        obtain ⟨hty, -⟩ := Prod.mk.inj hx
        rw [withChild, check, hty]
        rfl⟩
    · exact ⟨_, [], fun x hx => by
        obtain ⟨hty, -⟩ := Prod.mk.inj hx
        rw [withChild, check, hty, List.append_nil]
        rfl⟩
  | branch n condition onTrue onFalse =>
    rcases i with _ | _ | i
    · cases hc
      cases onFalse <;> exact ⟨[], _, fun x hx => by
        rw [withChild, check, checkCondition_eq hx]
        simp only [List.append_assoc]
        rfl⟩
    · cases hc
      cases onFalse with
      | none => exact ⟨_, _, fun x _ => by
          rw [withChild, check, List.append_assoc]
          rfl⟩
      | some e => exact ⟨_, _, fun x hx => by
          rw [withChild, check, List.append_assoc, (Prod.mk.inj hx).1]
          rfl⟩
    · cases onFalse with
      | none => cases hc
      | some e =>
        obtain ⟨rfl, rfl⟩ := eq_of_getElem?_singleton (a := e) hc
        exact ⟨_, _, fun x hx => by
          obtain ⟨hty, -⟩ := Prod.mk.inj hx
          rw [withChild, Option.map_some, check, hty]
          rfl⟩
  | loop n condition body =>
    rcases i with _ | _ | i <;> cases hc
    · exact ⟨[], _, fun x hx => by
        rw [withChild, check, checkCondition_eq hx, List.append_assoc]
        rfl⟩
    · exact ⟨_, [], fun x _ => by
        rw [withChild, check, List.append_nil]
        rfl⟩

/-- What the checker reports about a tree is what it reports about one place in it, between reports
that do not depend on what stands there. It counts the loops in whose bodies the place stands. -/
theorem Expr.check_put {e x : Expr} {path : List Nat} (h : e.at? path = some x) :
    ∃ before after, ∀ y : Expr, y.face = x.face → (e.put path y).check table returns depth =
      before ++ y.check table returns (depth + (e.loopsAround path).count .body) ++ after := by
  induction path generalizing e depth with
  | nil => exact ⟨[], [], fun y _ => (List.append_nil _).symm⟩
  | cons i path ih =>
    obtain ⟨c, hc, hx⟩ := Option.bind_eq_some_iff.1 h
    obtain ⟨before, after, hchild⟩ := check_withChild table returns depth hc
    obtain ⟨before', after', hinside⟩ :=
      ih (depth + (e.loopPart? i).toList.count .body) hx
    refine ⟨before ++ before', after' ++ after, fun y hy => ?_⟩
    have hdepth : depth + (e.loopsAround (i :: path)).count .body =
        depth + (e.loopPart? i).toList.count .body + (c.loopsAround path).count .body := by
      rw [loopsAround_cons hc, List.count_append]
      omega
    rw [put_cons hc, hchild _ (face_put hx hy), hinside y hy, hdepth]
    simp only [List.append_assoc]

end Reports

/-- A function with another expression at a place in its body. -/
def Function.put (f : Function) (path : List Nat) (x : Expr) : Function :=
  { f with body := f.body.put path x }

theorem Function.check_put {f : Function} {path : List Nat} {x : Expr}
    (h : f.body.at? path = some x) (table : DeclTable) :
    ∃ before after, ∀ y : Expr, y.face = x.face → (f.put path y).check table =
      before ++ y.check table f.returns.ty ((f.body.loopsAround path).count .body) ++ after := by
  obtain ⟨before, after, hbody⟩ := Expr.check_put table f.returns.ty 0 h
  exact ⟨before, _, fun y hy => by
    simp only [Function.check, Function.put, hbody y hy, Nat.zero_add,
      (Prod.mk.inj (Expr.face_put h hy)).1]
    rw [List.append_assoc]⟩

/-! ## The code -/

/-- What a step of the making of code does to the open loops and the labels. -/
theorem EmitsPart.steps {s t : Surroundings × Labels} {e c : Expr} {i : Nat}
    (h : EmitsPart s e i t c) (hs : s.2.Standard) :
    t.2.Standard ∧ s.2.loops.issued + 2 * (e.loopPart? i).toList.length ≤ t.2.loops.issued ∧
      t.1.frame.loops = (e.loopPart? i).toList.map (fun _ => s.2.loopEnd) ++ s.1.frame.loops := by
  cases h with
  | argument hmax hc h =>
    have hissues := (emitsArguments_of_ok h).issues hs
    exact ⟨hissues.standard, hissues.loops, rfl⟩
  | statement hc h | result h =>
    have hissues := (emitsAll_of_ok h).issues hs
    exact ⟨hissues.standard, hissues.loops, rfl⟩
  | bound | assigned | right | operand | inner | returned => exact ⟨hs, Nat.le_refl _, rfl⟩
  | left h =>
    have hissues := (Expr.emits_of_ok h).issues hs
    exact ⟨hissues.standard, hissues.loops, rfl⟩
  | test =>
    have hissues := Labels.issues_branch hs
    exact ⟨hissues.standard, hissues.loops, rfl⟩
  | onTrue h =>
    have hissues := Labels.issues_branch hs
    have hissues' := (Expr.emits_of_ok h).issues hissues.standard
    exact ⟨hissues'.standard, Nat.le_trans hissues.loops hissues'.loops, rfl⟩
  | onFalse h h' =>
    have hissues := Labels.issues_branch hs
    have hissues' := (Expr.emits_of_ok h).issues hissues.standard
    have hissues'' := (Expr.emits_of_ok h').issues hissues'.standard
    have hloops := Nat.le_trans hissues.loops hissues'.loops
    exact ⟨hissues''.standard, Nat.le_trans hloops hissues''.loops, rfl⟩
  | condition => exact ⟨(Labels.issues_loop hs).standard, Nat.le_refl _, rfl⟩
  | body h =>
    have hissues := (Expr.emits_of_ok h).issues (Labels.issues_loop hs).standard
    exact ⟨hissues.standard, hissues.loops, rfl⟩

theorem Walk.standard {s t : Surroundings × Labels} {e x : Expr} {path : List Nat}
    (h : Walk EmitsPart s e path t x) (hs : s.2.Standard) : t.2.Standard := by
  induction h with
  | here => exact hs
  | down hc _ ih => exact ih (hc.steps hs).1

/-- The open loops where a node is come to are those around it, each with its own label. -/
theorem Walk.exists_ends {s t : Surroundings × Labels} {e x : Expr} {path : List Nat}
    (h : Walk EmitsPart s e path t x) (hs : s.2.Standard) :
    ∃ ends : List Nat, ends.length = (e.loopsAround path).length ∧
      t.1.frame.loops = ends.map Labels.loop ++ s.1.frame.loops ∧
      ∀ i ∈ ends, s.2.loops.issued < i := by
  induction h with
  | here => exact ⟨[], rfl, rfl, by simp⟩
  | @down s _ _ e _ _ i _ hc hw ih =>
    obtain ⟨hstandard, hissued, hloops⟩ := hc.steps hs
    obtain ⟨ends, hlength, hends, hnew⟩ := ih hstandard
    refine ⟨ends ++ (e.loopPart? i).toList.map fun _ => s.2.loops.issued + 1, ?_, ?_, ?_⟩
    · rw [Expr.loopsAround_cons hc.child]
      simp [hlength]
    · have hend : s.2.loopEnd = Labels.loop (s.2.loops.issued + 1) := hs.loop_eq _
      rw [hends, hloops, hend]
      simp
    · intro j hj
      rcases List.mem_append.1 hj with hj | hj
      · have := hnew j hj
        omega
      · obtain ⟨part, -, rfl⟩ := List.mem_map.1 hj
        exact Nat.lt_succ_self _

/-- Around what stands in the body of some loop, there is an innermost such loop. -/
theorem Walk.exists_body {s t : Surroundings × Labels} {e x : Expr} {path : List Nat}
    (h : Walk EmitsPart s e path t x) (hbody : .body ∈ e.loopsAround path) :
    ∃ outer inner s' t' n condition body, path = outer ++ 1 :: inner ∧
      Walk EmitsPart s e outer s' (.loop n condition body) ∧
      EmitsPart s' (.loop n condition body) 1 t' body ∧ Walk EmitsPart t' body inner t x ∧
      .body ∉ body.loopsAround inner := by
  induction h with
  | here => cases hbody
  | @down s s' _ e c _ i path hc hw ih =>
    by_cases hdeeper : .body ∈ c.loopsAround path
    · obtain ⟨outer, inner, s₁, t₁, n, condition, body, rfl, hto, hpart, hfrom, hnone⟩ := ih hdeeper
      exact ⟨i :: outer, inner, s₁, t₁, n, condition, body, rfl, .down hc hto, hpart, hfrom, hnone⟩
    · rw [Expr.loopsAround_cons hc.child, List.mem_append] at hbody
      have hpart := Option.mem_toList.1 (hbody.resolve_left hdeeper)
      obtain ⟨n, condition, rfl, rfl⟩ := Expr.loopPart?_eq_body hpart hc.child
      exact ⟨[], path, s, s', n, condition, c, rfl, .here, hc, hw, hdeeper⟩

/-! ## Breaks -/

theorem Expr.check_brk_eq_nil {table : DeclTable} {returns : Ty} {depth : Nat} {n : Node} :
    (brk n).check table returns depth = [] ↔ depth ≠ 0 := by
  rw [check]
  split <;> simp [*]

theorem Expr.emit_brk_nil {env : Surroundings} (h : env.frame.loops = []) (n : Node) (l : Labels) :
    (brk n).emit env l = .error (.breakOutsideLoop n.location) := by
  rw [emit, Frame.currentLoop?, h]
  rfl

theorem Expr.emit_brk_cons {env : Surroundings} {label : String} {labels : List String}
    (h : env.frame.loops = label :: labels) (n : Node) (l : Labels) :
    (brk n).emit env l =
      .ok (.instrs (remark env.comments "break expression" ++ [.jmp label]), l) := by
  rw [emit, Frame.currentLoop?, h]
  rfl

/-- No code is made for a `break` exactly if no loop is open. -/
theorem Expr.emit_brk_eq_error {env : Surroundings} {n : Node} {l : Labels} :
    (brk n).emit env l = .error (.breakOutsideLoop n.location) ↔ env.frame.loops = [] := by
  constructor
  · intro h
    cases hloops : env.frame.loops with
    | nil => rfl
    | cons label labels => rw [emit_brk_cons hloops] at h; cases h
  · intro h
    exact emit_brk_nil h n l

theorem Layout.kept_loops : Layout.Kept fun s => s.frame.loops = [] where
  enter _ h := h
  leave _ h := h
  register s ty i h := by
    unfold Layout.register Frame.register
    dsimp only
    rw [Scopes.declare_eq]
    cases s.frame.scopes.innermost? i.name <;> exact h
  allocate _ _ h := h

/-- What the code for the body of a function that has been placed starts from. -/
def Function.start (constants : Constants) (comments : Bool) (functions : List String)
    (labels : Labels) (f : Function) : Surroundings × Labels :=
  (⟨(f.place constants).layout.frame, functions, comments⟩, labels)

/-- No loop is open where the body of a function starts. -/
theorem Function.loops_start (constants : Constants) (comments : Bool) (functions : List String)
    (labels : Labels) (f : Function) :
    (f.start constants comments functions labels).1.frame.loops = [] :=
  Function.place_kept Layout.kept_loops f rfl

/-- The body of a function that has been placed. -/
def Function.placedBody (constants : Constants) (f : Function) : Expr :=
  (f.place constants).value.body

theorem Function.strip_placedBody (constants : Constants) (f : Function) :
    (f.placedBody constants).strip .allButPlaces = f.body.strip .allButPlaces :=
  congrArg Function.body (f.strip_place constants)

/-- The loops around a place are the same before and behind placement. -/
theorem Function.loopsAround_placedBody (constants : Constants) (f : Function) (path : List Nat) :
    (f.placedBody constants).loopsAround path = f.body.loopsAround path := by
  rw [← Expr.loopsAround_strip .allButPlaces, f.strip_placedBody, Expr.loopsAround_strip]

/-- So are the breaks. -/
theorem Function.at?_placedBody {f : Function} {path : List Nat} {n : Node}
    (h : f.body.at? path = some (.brk n)) (constants : Constants) :
    (f.placedBody constants).at? path = some (.brk n) := by
  have hstrip := Expr.at?_strip .allButPlaces path (f.placedBody constants)
  rw [f.strip_placedBody, Expr.at?_strip, h] at hstrip
  cases hx : (f.placedBody constants).at? path with
  | none => rw [hx] at hstrip; cases hstrip
  | some x =>
    rw [hx] at hstrip
    cases x with
    | brk m => exact (congrArg some (Option.some.inj hstrip)).symm
    | _ => cases hstrip

/-- If code is made for a function, all of its breaks are come to. -/
theorem Function.walk_of_ok {f : Function} {path : List Nat} {n : Node}
    (hbreak : f.body.at? path = some (.brk n)) {constants : Constants} {comments : Bool}
    {functions : List String} {labels m : Labels} {code : Code}
    (h : (f.place constants).value.emit comments functions (f.place constants).layout.frame labels =
      .ok (code, m)) :
    ∃ t, Walk EmitsPart (f.start constants comments functions labels) (f.placedBody constants) path t
      (.brk n) := by
  rw [Function.emit] at h
  split at h
  · cases h
  · obtain ⟨stores, -, h⟩ := Emit.bind_lift_eq_ok h
    obtain ⟨body, k, hbody, -⟩ := Emit.bind_eq_ok h
    obtain ⟨t, ht, -⟩ := Expr.walk_of_ok hbody (Function.at?_placedBody hbreak constants)
    exact ⟨t, ht⟩

/-- A `break` in the body of a loop jumps behind the innermost such loop, unless it stands in the
condition of a loop in between. -/
theorem Walk.jump {t s' t' : Surroundings × Labels} {n n' : Node} {condition body : Expr}
    {inner : List Nat} (hs : s'.2.Standard)
    (hpart : EmitsPart s' (.loop n' condition body) 1 t' body)
    (h : Walk EmitsPart t' body inner t (.brk n)) :
    (Expr.brk n).emit t.1 t.2 =
        .ok (.instrs (remark t.1.comments "break expression" ++ [.jmp s'.2.loopEnd]), t.2) ↔
      body.loopsAround inner = [] := by
  obtain ⟨hstandard, hissued, hloops⟩ := hpart.steps hs
  obtain ⟨ends, hlength, hends, hnew⟩ := h.exists_ends hstandard
  have hissued : s'.2.loops.issued + 2 ≤ t'.2.loops.issued := hissued
  have hloops : t'.1.frame.loops = s'.2.loopEnd :: s'.1.frame.loops := hloops
  rw [hloops] at hends
  rw [← List.length_eq_zero_iff, ← hlength, List.length_eq_zero_iff]
  cases ends with
  | nil => simp [Expr.emit_brk_cons hends]
  | cons i ends =>
    -- The loop in between has a later label.
    have hlater := hnew i List.mem_cons_self
    have hne : Labels.loop i ≠ s'.2.loopEnd := by
      intro heq
      have := LabelSupply.label_injective (heq.trans (hs.loop_eq _))
      omega
    rw [Expr.emit_brk_cons hends]
    simp [hne]

/-- Of the loops around a `break`, the checker counts those in whose bodies it stands: its report is
that of a `break` in so many loops, between reports that do not depend on what stands there. All loops
around the `break` are open where its code is made, and the code around it does not depend on what
stands there either. So the two numbers are the same if and only if it stands in no condition of a
loop, and a `break` for which no code can be made is always reported. It is reported exactly if no
code can be made for it, unless all loops around it have it in their conditions. If it is not
reported, it jumps behind the innermost loop in whose body it stands, unless it stands in the
condition of a loop in that body. -/
theorem Function.breaks_counted {labels : Labels} (hlabels : labels.Standard) {f : Function}
    {path : List Nat} {n : Node} (hbreak : f.body.at? path = some (.brk n)) (table : DeclTable)
    (constants : Constants) (comments : Bool) (functions : List String) :
    let depth := (f.body.loopsAround path).count .body
    let start := f.start constants comments functions labels
    (∃ before after, f.check table = before ++ (Expr.brk n).check table f.returns.ty depth ++ after ∧
      ∀ x : Expr, x.face = (Expr.brk n).face →
        (f.put path x).check table = before ++ x.check table f.returns.ty depth ++ after) ∧
    (∀ r, (f.place constants).value.emit comments functions (f.place constants).layout.frame labels =
        .ok r →
      ∃ t, Walk EmitsPart start (f.placedBody constants) path t (.brk n)) ∧
    ∀ env l, Walk EmitsPart start (f.placedBody constants) path (env, l) (.brk n) →
      Emit.Contains (fun x => ((f.placedBody constants).put path x).emit start.1) labels
        (fun x => x.emit env) l ∧
      env.frame.loops.length = depth + (f.body.loopsAround path).count .condition ∧
      ((Expr.brk n).emit env l = .error (.breakOutsideLoop n.location) →
        (f.placedBody constants).emit start.1 labels = .error (.breakOutsideLoop n.location) ∧
        (Expr.brk n).check table f.returns.ty depth ≠ []) ∧
      (((Expr.brk n).check table f.returns.ty depth ≠ [] ↔
          (Expr.brk n).emit env l = .error (.breakOutsideLoop n.location)) ↔
        f.body.loopsAround path = [] ∨ .body ∈ f.body.loopsAround path) ∧
      ((Expr.brk n).check table f.returns.ty depth = [] →
        ∃ outer inner env' l' n' condition body, path = outer ++ 1 :: inner ∧
          Walk EmitsPart start (f.placedBody constants) outer (env', l') (.loop n' condition body) ∧
          .body ∉ body.loopsAround inner ∧
          ((Expr.brk n).emit env l =
              .ok (.instrs (remark env.comments "break expression" ++ [.jmp l'.loopEnd]), l) ↔
            body.loopsAround inner = [])) := by
  intro depth start
  obtain ⟨before, after, hput⟩ := Function.check_put hbreak table
  have hcheck := hput _ rfl
  rw [Function.put, Expr.put_self hbreak] at hcheck
  refine ⟨⟨before, after, hcheck, hput⟩, fun r hr => Function.walk_of_ok hbreak hr, ?_⟩
  intro env l hemits
  obtain ⟨ends, hlength, hends, -⟩ := hemits.exists_ends hlabels
  rw [f.loopsAround_placedBody] at hlength
  rw [f.loops_start, List.append_nil] at hends
  have hheight : env.frame.loops.length = (f.body.loopsAround path).length := by
    rw [hends, List.length_map, hlength]
  have hsplit := LoopPart.count_add_count (f.body.loopsAround path)
  have hreported : (Expr.brk n).check table f.returns.ty depth ≠ [] ↔
      .body ∉ f.body.loopsAround path := by
    rw [Ne, Expr.check_brk_eq_nil, not_not, List.count_eq_zero]
  have hfails : (Expr.brk n).emit env l = .error (.breakOutsideLoop n.location) ↔
      f.body.loopsAround path = [] := by
    rw [Expr.emit_brk_eq_error, ← List.length_eq_zero_iff, hheight, List.length_eq_zero_iff]
  refine ⟨hemits.contains, by omega, fun hfail => ⟨hemits.emit_eq_error hfail, ?_⟩, ?_, ?_⟩
  · rw [hreported, hfails.1 hfail]
    exact List.not_mem_nil
  · rw [hfails, hreported]
    by_cases hbody : .body ∈ f.body.loopsAround path
    · have hsome : f.body.loopsAround path ≠ [] := List.ne_nil_of_mem hbody
      simp [hbody, hsome]
    · simp [hbody]
  · intro haccepted
    have hbody : .body ∈ (f.placedBody constants).loopsAround path := by
      rw [f.loopsAround_placedBody]
      by_contra hnone
      exact hreported.2 hnone haccepted
    obtain ⟨outer, inner, ⟨env', l'⟩, t', n', condition, body, rfl, hto, hpart, hfrom, hnone⟩ :=
      hemits.exists_body hbody
    exact ⟨outer, inner, env', l', n', condition, body, rfl, hto, hnone,
      hfrom.jump (hto.standard hlabels) hpart⟩

/-- A function `main(): unit { while { while true { break }; true } { } }`. -/
def Function.nestedLoops : Function :=
  let n : Node := { location := .unknown }
  let holds := Expr.literal { location := .unknown, ty := .bool } "true" none
  let inner := Expr.loop n holds (.block n [] (some (.brk n)))
  let outer := Expr.loop n (.block n [inner] (some holds)) (.block n [] none)
  ⟨{ name := "main", location := .unknown }, .ofName "unit" .unknown, [], .block n [] (some outer),
    .unknown⟩

/-- The checker counts one of the two loops around the `break` in `Function.nestedLoops`, and reports
nothing more than it does with a number in its place. -/
theorem Function.breaks_counted_nestedLoops :
    ({} : Labels).Standard ∧
      nestedLoops.body.at? [0, 0, 0, 1, 0] = some (.brk { location := .unknown }) ∧
      nestedLoops.body.loopsAround [0, 0, 0, 1, 0] = [.body, .condition] ∧
      nestedLoops.check #[] = (nestedLoops.put [0, 0, 0, 1, 0]
        (.literal { location := .unknown } "0" none)).check #[] ∧
      ∃ env l, Walk EmitsPart (nestedLoops.start {} true ["main"] {}) (nestedLoops.placedBody {})
          [0, 0, 0, 1, 0] (env, l) (.brk { location := .unknown }) ∧
        env.frame.loops.length = 2 ∧
        (Expr.brk { location := .unknown }).check #[] .unit 1 = [] ∧
        (Expr.brk { location := .unknown }).emit env l ≠ .error (.breakOutsideLoop .unknown) := by
  have hlabels : ({} : Labels).Standard := ⟨rfl, rfl⟩
  have hbreak : nestedLoops.body.at? [0, 0, 0, 1, 0] = some (.brk { location := .unknown }) := rfl
  have haround : nestedLoops.body.loopsAround [0, 0, 0, 1, 0] = [.body, .condition] := rfl
  obtain ⟨⟨before, after, hcheck, hput⟩, hreach, hcounted⟩ :=
    Function.breaks_counted hlabels hbreak #[] {} true ["main"]
  have hnumber := hput (.literal { location := .unknown } "0" none) rfl
  obtain ⟨⟨env, l⟩, hemits⟩ := hreach _ rfl
  obtain ⟨-, hheight, -, hagree, -⟩ := hcounted env l hemits
  have haccepted :
      (Expr.brk { location := .unknown }).check #[] nestedLoops.returns.ty 1 = [] := rfl
  refine ⟨hlabels, hbreak, haround, hcheck.trans hnumber.symm, env, l, hemits, hheight, haccepted, ?_⟩
  intro hfails
  have hboth := hagree.2 (.inr (by rw [haround]; decide))
  exact hboth.2 hfails haccepted

/-- A `break` in the condition of the only loop around it. -/
def Program.conditionText : String :=
  "unit main() " ++ braced ("while " ++ braced "break; true" ++ " " ++ braced "" ++ ";")

/-- The checker reports a `break` that stands in the condition of a loop, and the code that is made
for it jumps behind that loop. -/
theorem Program.break_reported_in_condition :
    ∃ (p : Program) (assembly : Assembly) (labels : Labels), p.Written ∧
      p.analyze.report.map (·.message) = ["break outside of a loop"] ∧
      (p.analyze.program.generate {}).result = .ok (assembly, labels) ∧
      Instr.jmp ".loop_label_1" ∈ assembly.code ∧ Instr.label ".loop_label_1" ∈ assembly.code := by
  have hcheck : (Program.ofText? "main" Program.conditionText).any fun p =>
      decide (p.analyze.report.map (·.message) = ["break outside of a loop"]) &&
        (p.analyze.program.generate {}).result.toOption.any fun r =>
          decide (Instr.jmp ".loop_label_1" ∈ r.1.code ∧
            Instr.label ".loop_label_1" ∈ r.1.code) := by
    decide +kernel
  obtain ⟨p, hp, hcheck⟩ := (Option.any_eq_true ..).1 hcheck
  obtain ⟨hreport, hcheck⟩ := Bool.and_eq_true_iff.1 hcheck
  obtain ⟨⟨assembly, labels⟩, hgen, hcode⟩ := (Option.any_eq_true ..).1 hcheck
  obtain ⟨hjump, hlabel⟩ := of_decide_eq_true hcode
  exact ⟨p, assembly, labels, Program.written_of_ofText? hp, of_decide_eq_true hreport,
    eq_ok_of_toOption hgen, hjump, hlabel⟩

end Ilang
