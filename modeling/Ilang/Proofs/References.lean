import Ilang.Proofs.Labels
import Ilang.Proofs.Trees
/-!
# What code refers to

Code refers to other places in four ways: it jumps, it calls a function, it takes the address of a
constant, and it reads or writes a variable. A jump stays in the code of its expression or leaves the
innermost loop around it (`Emits.lands`). All else comes from the nodes of the expression that name a
function, a string or a variable, one instruction from each, in the order in which these are evaluated
(`Emits.pointers`).
-/
namespace Ilang

/-! ## The nodes of a tree in order -/

/-- An order of the nodes of a tree: that in which they are written, or that in which they are
evaluated. Only the operands of a binary operator make a difference. -/
inductive Order where
  | written
  | evaluated

/-- What comes from the operands of a binary operator. -/
def Order.operands {α : Type} (o : Order) (left right : List α) : List α :=
  match o with
  | written => left ++ right
  | evaluated => right ++ left

theorem Order.mem_operands {α : Type} {o : Order} {left right : List α} {x : α} :
    x ∈ o.operands left right ↔ x ∈ left ∨ x ∈ right := by
  cases o <;> simp [operands, or_comm]

mutual

/-- The nodes below an expression, each of them behind those below it. -/
def Expr.descendants (o : Order) : Expr → List Expr
  | .literal .. | .var .. | .brk .. => []
  | .call _ _ arguments => nodesAll o arguments
  | .block _ body result => nodesAll o body ++ nodesOpt o result
  | .bind _ _ _ value | .assign _ _ value | .unary _ _ value | .group _ value | .ret _ value =>
    value.descendants o ++ [value]
  | .binary _ _ left right =>
    o.operands (left.descendants o ++ [left]) (right.descendants o ++ [right])
  | .branch _ condition onTrue onFalse =>
    condition.descendants o ++ condition :: (onTrue.descendants o ++ onTrue :: nodesOpt o onFalse)
  | .loop _ condition body => condition.descendants o ++ condition :: (body.descendants o ++ [body])

/-- The nodes of expressions that follow each other. -/
def nodesAll (o : Order) : List Expr → List Expr
  | [] => []
  | e :: es => e.descendants o ++ e :: nodesAll o es

/-- The nodes of an expression that may be missing. -/
def nodesOpt (o : Order) : Option Expr → List Expr
  | none => []
  | some e => e.descendants o ++ [e]

end

/-- The nodes of an expression, each of them behind those below it. -/
def Expr.nodes (o : Order) (e : Expr) : List Expr := e.descendants o ++ [e]

theorem Expr.descendants_append_cons (o : Order) (e : Expr) (es : List Expr) :
    e.descendants o ++ e :: es = e.nodes o ++ es := by
  simp [nodes]

theorem nodesAll_eq (o : Order) (es : List Expr) : nodesAll o es = es.flatMap (Expr.nodes o) := by
  induction es with
  | nil => rfl
  | cons e es ih => simp [nodesAll, Expr.nodes, ih]

theorem nodesOpt_eq (o : Order) (e : Option Expr) :
    nodesOpt o e = e.toList.flatMap (Expr.nodes o) := by
  cases e <;> simp [nodesOpt, Expr.nodes]

theorem Expr.mem_descendants {o : Order} {x e : Expr} :
    x ∈ e.descendants o ↔ ∃ c ∈ e.children, x ∈ c.nodes o := by
  cases e <;>
    simp [descendants, children, nodes, nodesAll_eq, nodesOpt_eq, Order.mem_operands, or_assoc,
      or_and_right, exists_or]

/-- The nodes of an expression are what stands in it. -/
theorem Expr.mem_nodes {o : Order} {x e : Expr} : x ∈ e.nodes o ↔ x.Inside e := by
  constructor
  · intro h
    induction e using Expr.induction_children with
    | _ e ih =>
      rcases List.mem_append.1 h with h | h
      · obtain ⟨c, hc, hx⟩ := mem_descendants.1 h
        exact .child hc (ih c hc hx)
      · rw [List.mem_singleton.1 h]
        exact .here
  · intro h
    induction h with
    | here => simp [nodes]
    | child hc _ ih => exact List.mem_append_left _ (mem_descendants.2 ⟨_, hc, ih⟩)

/-- As they are written, the nodes of an expression are those of its parts and the expression. -/
theorem Expr.nodes_written (e : Expr) :
    e.nodes .written = e.children.flatMap (nodes .written) ++ [e] := by
  cases e <;>
    simp [descendants, children, nodes, nodesAll_eq, nodesOpt_eq, Order.operands]

/-! ## Instructions that refer to something -/

/-- Whether an operand is in memory. -/
def Operand.isMem : Operand → Bool
  | mem .. => true
  | _ => false

namespace Instr

/-- Where an instruction may jump. -/
def target? : Instr → Option String
  | jmp name | je name => some name
  | _ => none

/-- Whether an instruction calls a function or takes an address. -/
def refers : Instr → Bool
  | call .. | lea .. => true
  | _ => false

/-- The operands of an instruction, the source first. -/
def operands : Instr → List Operand
  | mov src dst | sub src dst | cmp src dst => [src, dst]
  | lea src dst | add src dst | imul src dst | and src dst | or src dst => [src, dst]
  | movzbq src dst | shl src dst | shr src dst => [src, dst]
  | push r | pop r | idiv r | set _ r => [r]
  | _ => []

/-- Whether an instruction reads or writes a place in memory that it names. -/
def touches (i : Instr) : Bool := i.operands.any Operand.isMem

/-- Whether an instruction points to a function, a constant or a variable. -/
def points (i : Instr) : Bool := i.refers || i.touches

/-- The calls and the addresses in some code. -/
def references (is : List Instr) : List Instr := is.filter refers

@[simp] theorem references_nil : references [] = [] := rfl

@[simp] theorem references_append (is js : List Instr) :
    references (is ++ js) = references is ++ references js :=
  List.filter_append ..

theorem references_cons (i : Instr) (is : List Instr) :
    references (i :: is) = if i.refers then i :: references is else references is := by
  simp [references, List.filter_cons]

/-- What reads or writes a place in memory in some code. -/
def accesses (is : List Instr) : List Instr := is.filter touches

/-- What points to something in some code. -/
def pointers (is : List Instr) : List Instr := is.filter points

@[simp] theorem pointers_nil : pointers [] = [] := rfl

@[simp] theorem pointers_append (is js : List Instr) :
    pointers (is ++ js) = pointers is ++ pointers js :=
  List.filter_append ..

theorem pointers_cons (i : Instr) (is : List Instr) :
    pointers (i :: is) = if i.points then i :: pointers is else pointers is := by
  simp [pointers, List.filter_cons]

theorem filter_refers_pointers (is : List Instr) : (pointers is).filter refers = references is := by
  unfold pointers references
  rw [List.filter_filter]
  refine List.filter_congr fun i _ => ?_
  unfold points
  cases i.refers <;> rfl

theorem filter_touches_pointers (is : List Instr) : (pointers is).filter touches = accesses is := by
  unfold pointers accesses
  rw [List.filter_filter]
  refine List.filter_congr fun i _ => ?_
  unfold points
  cases i.refers <;> cases i.touches <;> rfl

end Instr

/-- The call or the address that the code of an expression has for itself. -/
def Expr.reference? (functions : List String) : Expr → Option Instr
  | .literal n _ constant =>
    if n.ty = .string then constant.map fun label => .lea (.symbol label .rip) .rax else none
  | .call _ callee _ => some (.call callee.name (!functions.contains callee.name))
  | _ => none

/-- The instruction that reads or writes the variable that an expression itself names. -/
def Expr.access? (frame : Frame) : Expr → Option Instr
  | .var _ i => (frame.slotOf i).toOption.map (.mov · Reg.rax)
  | .bind _ i _ _ | .assign _ i _ => (frame.slotOf i).toOption.map (.mov Reg.rax ·)
  | _ => none

/-- What the code of an expression has for the name or the string in it. -/
def Expr.pointer? (env : Surroundings) (e : Expr) : Option Instr :=
  (e.reference? env.functions).or (e.access? env.frame)

/-- The loops around an expression do not matter for what it names. -/
theorem Expr.pointer?_inLoop (env : Surroundings) (endLabel : String) :
    Expr.pointer? (env.inLoop endLabel) = Expr.pointer? env := by
  funext e
  cases e <;> rfl

theorem Frame.isMem_of_slotOf {f : Frame} {i : Ident} {place : Operand}
    (h : f.slotOf i = .ok place) : place.isMem = true := by
  unfold slotOf at h
  split at h <;> cases h
  rfl

theorem Expr.filter_refers_pointer? (env : Surroundings) (e : Expr) :
    (e.pointer? env).filter Instr.refers = e.reference? env.functions := by
  cases e with
  | literal n text constant =>
    simp only [pointer?, reference?, access?]
    split <;> cases constant <;> rfl
  | var n i | bind n i type value | assign n i value =>
    simp only [pointer?, reference?, access?]
    cases env.frame.slotOf i <;> rfl
  | _ => rfl

theorem Expr.filter_touches_pointer? (env : Surroundings) (e : Expr) :
    (e.pointer? env).filter Instr.touches = e.access? env.frame := by
  cases e with
  | literal n text constant =>
    simp only [pointer?, reference?, access?]
    split <;> cases constant <;> rfl
  | var n i | bind n i type value | assign n i value =>
    simp only [pointer?, reference?, access?]
    cases h : env.frame.slotOf i with
    | error e => rfl
    | ok place => simp [Except.toOption, Instr.touches, Instr.operands, Frame.isMem_of_slotOf h]
  | _ => rfl

theorem mem_popArguments {k : Nat} {is : List Instr} (h : popArguments k = .ok is) :
    ∀ i ∈ is, ∃ r, i = .pop r := by
  induction k generalizing is with
  | zero => cases h; simp
  | succ k ih =>
    obtain ⟨r, pops, -, hp, rfl⟩ := popArguments_succ h
    exact List.forall_mem_cons.2 ⟨⟨r, rfl⟩, ih hp⟩

theorem pointers_popArguments {k : Nat} {is : List Instr} (h : popArguments k = .ok is) :
    Instr.pointers is = [] := by
  rw [Instr.pointers, List.filter_eq_nil_iff]
  intro i hi
  obtain ⟨r, rfl⟩ := mem_popArguments h i hi
  simp [Instr.points, Instr.refers, Instr.touches, Instr.operands, Operand.isMem]

theorem pointers_literalCode {n : Node} {text : String} {constant : Option String}
    {is : List Instr} (h : literalCode n text constant = .ok is) (env : Surroundings) :
    Instr.pointers is = (Expr.pointer? env (.literal n text constant)).toList := by
  unfold literalCode at h
  dsimp only at h
  repeat' split at h
  all_goals cases h
  all_goals
    simp [Instr.pointers_cons, Instr.points, Instr.refers, Instr.touches, Instr.operands,
      Operand.isMem, Expr.pointer?, Expr.reference?, Expr.access?, *]

theorem BinaryOp.pointers_code (op : BinaryOp) : Instr.pointers op.code = [] := by
  cases op <;> rfl

theorem UnaryOp.pointers_code (op : UnaryOp) : Instr.pointers op.code = [] := by
  cases op <;> rfl

/-- The pointers of a node are those of what is below it and its own. -/
theorem Expr.filterMap_nodes (env : Surroundings) (e : Expr) :
    (e.nodes .evaluated).filterMap (pointer? env) =
      (e.descendants .evaluated).filterMap (pointer? env) ++ (e.pointer? env).toList := by
  rw [nodes, List.filterMap_append]
  cases h : e.pointer? env <;> simp [h]

/-- What reads or writes a variable is the pointer of its node. -/
theorem pointers_slotOf {f : Frame} {i : Ident} {place : Operand} (h : f.slotOf i = .ok place) :
    Instr.pointers [.mov place Reg.rax] = [.mov place Reg.rax] ∧
      Instr.pointers [.mov Reg.rax place] = [.mov Reg.rax place] := by
  simp [Instr.pointers_cons, Instr.points, Instr.touches, Instr.operands, Frame.isMem_of_slotOf h]

mutual

/-- What points to something in the code of an expression comes from its nodes. -/
theorem Emits.pointers {env : Surroundings} {l m : Labels} {e : Expr} {c : List Instr}
    (h : Emits env l e c m) : Instr.pointers c =
      (e.nodes .evaluated).filterMap (Expr.pointer? env) := by
  rw [Expr.filterMap_nodes]
  cases h with
  | literal h => exact pointers_literalCode h env
  | var h =>
    simp [Expr.descendants, Expr.pointer?, Expr.reference?, Expr.access?, Except.toOption, h,
      pointers_slotOf h]
  | brk => rfl
  | call hmax ha hp =>
    simp [Expr.descendants, Expr.pointer?, Expr.reference?, Instr.pointers_cons, Instr.points,
      Instr.refers, Instr.touches, Instr.operands, Operand.isMem, pointers_popArguments hp,
      ha.pointers]
  | block hb hr =>
    simp [Expr.descendants, Expr.pointer?, Expr.reference?, Expr.access?, hb.pointers, hr.pointers]
  | bind hv h | assign hv h =>
    simp [Expr.descendants, Expr.descendants_append_cons, Expr.pointer?, Expr.reference?,
      Expr.access?, Except.toOption, h, pointers_slotOf h, hv.pointers]
  | binary hr hl =>
    simp [Expr.descendants, Expr.descendants_append_cons, Expr.pointer?, Expr.reference?,
      Expr.access?, Order.operands, Instr.pointers_cons, Instr.points, Instr.refers, Instr.touches,
      Instr.operands, Operand.isMem, BinaryOp.pointers_code, hr.pointers, hl.pointers]
  | unary h =>
    simp [Expr.descendants, Expr.descendants_append_cons, Expr.pointer?, Expr.reference?,
      Expr.access?, UnaryOp.pointers_code, h.pointers]
  | group h =>
    simp [Expr.descendants, Expr.descendants_append_cons, Expr.pointer?, Expr.reference?,
      Expr.access?, h.pointers]
  | branch hc ht hf =>
    simp [Expr.descendants, Expr.descendants_append_cons, Expr.pointer?, Expr.reference?,
      Expr.access?, Instr.pointers_cons, Instr.points, Instr.refers, Instr.touches, Instr.operands,
      Operand.isMem, hc.pointers, ht.pointers, hf.pointers]
  | ret h =>
    simp [Expr.descendants, Expr.descendants_append_cons, Expr.pointer?, Expr.reference?,
      Expr.access?, Instr.pointers_cons, Instr.points, Instr.refers, Instr.touches, Instr.operands,
      h.pointers]
  | loop hc hb =>
    simp [Expr.descendants, Expr.descendants_append_cons, Expr.pointer?, Expr.reference?,
      Expr.access?, Instr.pointers_cons, Instr.points, Instr.refers, Instr.touches, Instr.operands,
      Operand.isMem, Expr.pointer?_inLoop, hc.pointers, hb.pointers]

theorem EmitsAll.pointers {env : Surroundings} {l m : Labels} {es : List Expr} {c : List Instr}
    (h : EmitsAll env l es c m) : Instr.pointers c =
      (nodesAll .evaluated es).filterMap (Expr.pointer? env) := by
  cases h with
  | nil => rfl
  | cons he hes =>
    simp [nodesAll, Expr.descendants_append_cons, he.pointers, hes.pointers]

theorem EmitsArguments.pointers {env : Surroundings} {l m : Labels} {es : List Expr}
    {c : List Instr} (h : EmitsArguments env l es c m) : Instr.pointers c =
      (nodesAll .evaluated es).filterMap (Expr.pointer? env) := by
  cases h with
  | nil => rfl
  | cons he hes =>
    simp [nodesAll, Expr.descendants_append_cons, Instr.pointers_cons, Instr.points, Instr.refers,
      Instr.touches, Instr.operands, Operand.isMem, he.pointers, hes.pointers]

theorem EmitsOpt.pointers {env : Surroundings} {l m : Labels} {e : Option Expr} {c : List Instr}
    (h : EmitsOpt env l e c m) : Instr.pointers c =
      (nodesOpt .evaluated e).filterMap (Expr.pointer? env) := by
  cases h with
  | none => rfl
  | some h => exact h.pointers

end

/-- The code of an expression has the calls and the addresses of its nodes. -/
theorem Emits.references {env : Surroundings} {l m : Labels} {e : Expr} {c : List Instr}
    (h : Emits env l e c m) : Instr.references c =
      (e.nodes .evaluated).filterMap (Expr.reference? env.functions) := by
  rw [← Instr.filter_refers_pointers, h.pointers, List.filter_filterMap]
  simp only [Expr.filter_refers_pointer?]

/-- The code of an expression reads and writes the variables of its nodes. -/
theorem Emits.accesses {env : Surroundings} {l m : Labels} {e : Expr} {c : List Instr}
    (h : Emits env l e c m) : Instr.accesses c =
      (e.nodes .evaluated).filterMap (Expr.access? env.frame) := by
  rw [← Instr.filter_touches_pointers, h.pointers, List.filter_filterMap]
  simp only [Expr.filter_touches_pointer?]

theorem mem_storeParams {frame : Frame} {index : Nat} {ps : List Param} {is : List Instr}
    (h : storeParams frame index ps = .ok is) : ∀ i ∈ is, ∃ src dst, i = .mov src dst := by
  induction ps generalizing index is with
  | nil => cases h; simp
  | cons p ps ih =>
    obtain ⟨r, place, stores, -, -, hs, rfl⟩ := storeParams_cons h
    exact List.forall_mem_cons.2 ⟨⟨_, _, rfl⟩, ih hs⟩

theorem references_storeParams {frame : Frame} {index : Nat} {ps : List Param} {is : List Instr}
    (h : storeParams frame index ps = .ok is) : Instr.references is = [] := by
  rw [Instr.references, List.filter_eq_nil_iff]
  intro i hi
  obtain ⟨src, dst, rfl⟩ := mem_storeParams h i hi
  simp [Instr.refers]

/-- The code of a function has the calls and the addresses of its body. -/
theorem EmitsFunction.references {functions : List String} {l m : Labels} {f : Function}
    {frame : Frame} {c : List Instr} (h : EmitsFunction functions l f frame c m) :
    Instr.references c = (f.body.nodes .evaluated).filterMap (Expr.reference? functions) := by
  cases h with
  | intro hmax hs hb =>
    simp [Instr.references_cons, Instr.refers, references_storeParams hs, hb.references]

theorem EmitsFunctions.references {functions : List String} {l m : Labels}
    {fs : List (Function × Frame)} {c : List Instr} (h : EmitsFunctions functions l fs c m) :
    Instr.references c = fs.flatMap fun x =>
      (x.1.body.nodes .evaluated).filterMap (Expr.reference? functions) := by
  induction h with
  | nil => rfl
  | cons hf _ ih => simp [hf.references, ih]

theorem Instr.references_plain (is : List Instr) : references (plain is) = references is := by
  unfold references plain
  rw [List.filter_filter]
  refine List.filter_congr fun i _ => ?_
  cases i <;> rfl

/-- The calls and the addresses of a program, in order. -/
theorem PlacedFunctions.references_of_ok {placed : PlacedFunctions} {options : GenOptions}
    {assembly : Assembly} {labels : Labels}
    (hlength : placed.functions.length = placed.frames.length)
    (h : placed.assemble options = .ok (assembly, labels)) :
    Instr.references assembly.code = placed.functions.flatMap fun f =>
      (f.body.nodes .evaluated).filterMap
        (Expr.reference? (placed.functions.map (·.ident.name))) := by
  obtain ⟨code, hcode, hemits⟩ := PlacedFunctions.emits_of_ok h
  have hfst : (placed.functions.zip placed.frames).map Prod.fst = placed.functions :=
    List.map_fst_zip (Nat.le_of_eq hlength)
  have hflat : ∀ g : Function → List Instr,
      (placed.functions.zip placed.frames).flatMap (fun x => g x.1) =
        placed.functions.flatMap g := by
    intro g
    rw [← List.flatMap_map Prod.fst g, hfst]
  rw [← Instr.references_plain, hcode, Instr.references_cons, Instr.references_cons]
  simp only [Instr.refers, Bool.false_eq_true, if_false, hemits.references]
  exact hflat fun f => (f.body.nodes .evaluated).filterMap _

/-! ## Where jumps go -/

namespace Instr

/-- Where some code may jump. -/
def targets (is : List Instr) : List String := is.filterMap target?

@[simp] theorem targets_nil : targets [] = [] := rfl

@[simp] theorem targets_append (is js : List Instr) :
    targets (is ++ js) = targets is ++ targets js :=
  List.filterMap_append

theorem targets_cons (i : Instr) (is : List Instr) :
    targets (i :: is) = i.target?.toList ++ targets is := by
  cases h : i.target? <;> simp [targets, h]

/-- Code jumps to its own labels, or to an exit. -/
def Lands (exit : Option String) (is : List Instr) : Prop :=
  ∀ x ∈ targets is, x ∈ labels is ∨ exit = some x

theorem Lands.of_nil {exit : Option String} {is : List Instr} (h : targets is = []) :
    Lands exit is := by
  simp [Lands, h]

theorem Lands.append {exit : Option String} {is js : List Instr} (hi : Lands exit is)
    (hj : Lands exit js) : Lands exit (is ++ js) := by
  intro x hx
  rw [targets_append] at hx
  rw [labels_append, List.mem_append]
  rcases List.mem_append.1 hx with hx | hx
  · exact (hi x hx).imp_left .inl
  · exact (hj x hx).imp_left .inr

theorem Lands.cons {exit : Option String} {i : Instr} {is : List Instr} (hi : i.target? = none)
    (h : Lands exit is) : Lands exit (i :: is) :=
  @append exit [i] is (of_nil (by simp [targets_cons, hi])) h

end Instr

theorem targets_popArguments {k : Nat} {is : List Instr} (h : popArguments k = .ok is) :
    Instr.targets is = [] := by
  rw [Instr.targets, List.filterMap_eq_nil_iff]
  intro i hi
  obtain ⟨r, rfl⟩ := mem_popArguments h i hi
  rfl

theorem targets_literalCode {n : Node} {text : String} {constant : Option String}
    {is : List Instr} (h : literalCode n text constant = .ok is) : Instr.targets is = [] := by
  unfold literalCode at h
  dsimp only at h
  repeat' split at h
  all_goals cases h
  all_goals rfl

theorem BinaryOp.targets_code (op : BinaryOp) : Instr.targets op.code = [] := by
  cases op <;> rfl

theorem UnaryOp.targets_code (op : UnaryOp) : Instr.targets op.code = [] := by
  cases op <;> rfl

mutual

/-- A jump goes to a label in the code of the expression, or out of the innermost loop around it. -/
theorem Emits.lands {env : Surroundings} {l m : Labels} {e : Expr} {c : List Instr}
    (h : Emits env l e c m) : Instr.Lands env.frame.currentLoop? c := by
  cases h with
  | literal h => exact .of_nil (targets_literalCode h)
  | var => exact .of_nil rfl
  | call hmax ha hp =>
    exact ha.lands.append (.append (.of_nil (targets_popArguments hp)) (.of_nil rfl))
  | block hb hr => exact hb.lands.append hr.lands
  | bind hv _ => exact hv.lands.append (.of_nil rfl)
  | assign hv _ => exact hv.lands.append (.of_nil rfl)
  | binary hr hl =>
    refine hr.lands.append (.cons rfl (hl.lands.append ?_))
    exact .cons rfl (.cons rfl (.cons rfl (.of_nil (BinaryOp.targets_code _))))
  | unary h => exact h.lands.append (.of_nil (UnaryOp.targets_code _))
  | group h => exact h.lands
  | branch hc ht hf =>
    have hc := hc.lands
    have ht := ht.lands
    have hf := hf.lands
    unfold Instr.Lands at *
    simp only [Instr.targets_append, Instr.targets_cons, Instr.labels_append, Instr.labels_cons,
      Instr.target?, Instr.label?, List.mem_append, Option.mem_toList, Instr.targets_nil,
      Instr.labels_nil, List.not_mem_nil]
    grind
  | ret h => exact h.lands.append (.of_nil rfl)
  | loop hc hb =>
    -- What leaves the loop jumps to its end.
    have hc := hc.lands
    have hb := hb.lands
    unfold Instr.Lands at *
    simp only [Instr.targets_append, Instr.targets_cons, Instr.labels_append, Instr.labels_cons,
      Instr.target?, Instr.label?, List.mem_append, Option.mem_toList, Instr.targets_nil,
      Instr.labels_nil, List.not_mem_nil, Surroundings.inLoop,
      Frame.currentLoop?, Frame.pushLoop, List.head?_cons] at *
    grind
  | brk h =>
    intro x hx
    obtain rfl : x = _ := List.mem_singleton.1 hx
    exact .inr h

theorem EmitsAll.lands {env : Surroundings} {l m : Labels} {es : List Expr} {c : List Instr}
    (h : EmitsAll env l es c m) : Instr.Lands env.frame.currentLoop? c := by
  cases h with
  | nil => exact .of_nil rfl
  | cons he hes => exact he.lands.append hes.lands

theorem EmitsArguments.lands {env : Surroundings} {l m : Labels} {es : List Expr}
    {c : List Instr} (h : EmitsArguments env l es c m) : Instr.Lands env.frame.currentLoop? c := by
  cases h with
  | nil => exact .of_nil rfl
  | cons he hes => exact he.lands.append (.cons rfl hes.lands)

theorem EmitsOpt.lands {env : Surroundings} {l m : Labels} {e : Option Expr} {c : List Instr}
    (h : EmitsOpt env l e c m) : Instr.Lands env.frame.currentLoop? c := by
  cases h with
  | none => exact .of_nil rfl
  | some h => exact h.lands

end

end Ilang
