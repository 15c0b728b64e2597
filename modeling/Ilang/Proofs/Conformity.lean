import Ilang.Proofs.Passing
import Ilang.Proofs.Variables
/-!
# The types in placed trees

If analysis reports nothing, the types that the nodes of a placed function carry fit together
(`Program.conforms_of_clean`): a node has the type that the rules give it from the types of its
parts, a variable the type of its place in the frame, and a call the type that the function of that
name returns, which takes the types of the arguments.
-/
namespace Ilang

/-! ## Nodes and their parts -/

/-- The type of an expression fits those of its parts, in a function that returns `returns`. -/
def Expr.Consistent (returns : Ty) : Expr → Prop
  | .literal .. | .var .. | .call .. | .assign .. => True
  | .block n _ result => n.ty = (result.map Expr.ty).getD .unit
  | .bind n _ type value => n.ty = type.ty ∧ value.ty = type.ty
  | .binary n op left right => n.ty = left.ty ∧ right.ty = left.ty ∧ op.appliesTo left.ty
  | .unary n op operand => n.ty = operand.ty ∧ op.appliesTo operand.ty
  | .group n inner => n.ty = inner.ty
  | .branch n _ onTrue onFalse => n.ty = onTrue.ty ∧ ∀ e ∈ onFalse, e.ty = onTrue.ty
  | .ret _ value => value.ty = returns
  | .loop n _ _ | .brk n => n.ty = .unit

/-- The type of an expression that uses a name fits what is declared of the name. -/
def Expr.Declared (table : DeclTable) : Expr → Prop
  | .var n ident => n.ty = table.typeOf ident
  | .assign n target value =>
    n.ty = table.typeOf target ∧ ∀ d, table.find target.binding = some d → value.ty = d.ty
  | .call n callee arguments =>
    n.ty = table.typeOf callee ∧ ∀ d s, table.find callee.binding = some d → d.signature = some s →
      s.Accepts (arguments.map Expr.ty)
  | _ => True

theorem report_ite_eq_nil {c : Prop} [Decidable c] {d : Diagnostic} :
    (if c then [] else [d]) = ([] : Report) ↔ c := by
  simp

/-- The types of an expression that the type rules have nothing to report about fit together. -/
theorem Expr.consistent_of_check {table : DeclTable} {returns : Ty} {depth : Nat} {e : Expr}
    (h : (e.resolveTypes table).value.check table returns depth = []) :
    (e.resolveTypes table).value.Everywhere fun x => x.Consistent returns ∧ x.Declared table := by
  induction e using Expr.induction_children generalizing depth with
  | _ e ih =>
    refine everywhere_iff.2 ⟨?_, fun c hc => ?_⟩
    · cases e with
      | literal n text constant =>
        simp only [resolveTypes]
        split <;> exact ⟨trivial, trivial⟩
      | var n ident => exact ⟨trivial, rfl⟩
      | call n callee arguments =>
        refine ⟨trivial, rfl, fun d s hd hs => ?_⟩
        simp only [resolveTypes, check, List.append_eq_nil_iff, DeclTable.checkCall, hd, hs] at h
        exact (s.checkArguments_iff _ _ _ _).1 h.2.2
      | block | group | loop | brk => exact ⟨rfl, trivial⟩
      | bind n ident type value =>
        simp only [resolveTypes, check, List.append_eq_nil_iff, report_ite_eq_nil] at h
        exact ⟨⟨rfl, h.2.symm⟩, trivial⟩
      | assign n target value =>
        refine ⟨trivial, rfl, fun d hd => ?_⟩
        simp only [resolveTypes, check, List.append_eq_nil_iff, hd, report_ite_eq_nil] at h
        exact h.2.symm
      | binary n op left right =>
        simp only [resolveTypes, check, List.append_eq_nil_iff, report_ite_eq_nil] at h
        exact ⟨⟨rfl, h.1.1.1.symm, h.1.1.2⟩, trivial⟩
      | unary n op operand =>
        simp only [resolveTypes, check, List.append_eq_nil_iff, report_ite_eq_nil] at h
        exact ⟨⟨rfl, h.1⟩, trivial⟩
      | branch n condition onTrue onFalse =>
        refine ⟨⟨rfl, fun d hd => ?_⟩, trivial⟩
        simp only [resolveTypes, check, List.append_eq_nil_iff] at h
        rw [Option.mem_def.1 hd, report_ite_eq_nil] at h
        exact h.2
      | ret n value =>
        simp only [resolveTypes, check, List.append_eq_nil_iff, report_ite_eq_nil] at h
        exact ⟨h.2, trivial⟩
    -- A part is checked at a depth of its own, inside a loop one deeper.
    · obtain ⟨depth', hcheck⟩ := check_child h c hc
      rw [children_resolveTypes] at hc
      obtain ⟨d, hd, rfl⟩ := List.mem_map.1 hc
      exact ih d hd hcheck

theorem Expr.ty_strip {k : Keep} (hk : k.types = true) (e : Expr) : (e.strip k).ty = e.ty := by
  cases e <;> simp [strip, ty, node, Keep.node, hk]

theorem Expr.consistent_strip (table : DeclTable) (returns : Ty) (e : Expr) :
    ((e.strip .allButPlaces).Consistent returns ∧ (e.strip .allButPlaces).Declared table) ↔
      (e.Consistent returns ∧ e.Declared table) := by
  have hty := @Expr.ty_strip .allButPlaces rfl
  have hnode : ∀ n, Keep.allButPlaces.node n = n := fun _ => rfl
  have htype : ∀ i, table.typeOf (Keep.allButPlaces.ident i) = table.typeOf i := fun _ => rfl
  have hbinding : ∀ i, (Keep.allButPlaces.ident i).binding = i.binding := fun _ => rfl
  cases e <;>
    simp [strip, Consistent, Declared, hty, hnode, htype, hbinding, stripAll_eq_map,
      stripOpt_eq_map, Function.comp_def]

/-! ## Names -/

/-- The type of the variable that a name stands for. -/
def Frame.typeOf? (frame : Frame) (i : Ident) : Option Ty :=
  (i.slot.bind fun k => frame.vars[k]?).map FrameVar.ty

/-- The type of an expression that uses or declares a name fits the place of the name in the frame,
or the function that is called. -/
def Expr.Named (functions : List Function) (externals : List External) (frame : Frame) :
    Expr → Prop
  | .var n ident | .bind n ident _ _ => frame.typeOf? ident = some n.ty
  | .assign n target value => frame.typeOf? target = some n.ty ∧ value.ty = n.ty
  | .call n callee arguments =>
    (∃ f ∈ functions, f.ident.name = callee.name ∧ f.returns.ty = n.ty ∧
        f.params.map (·.type.ty) = arguments.map Expr.ty) ∨
      callee.name ∉ functions.map (·.ident.name) ∧
        ∃ e ∈ externals, e.ident.name = callee.name ∧ e.returns.ty = n.ty
  | _ => True

/-- The type of an expression is the one that the rules give it. -/
structure Expr.Conforms (functions : List Function) (externals : List External) (frame : Frame)
    (returns : Ty) (e : Expr) : Prop where
  literal : e.LiteralTyped
  consistent : e.Consistent returns
  named : e.Named functions externals frame

/-- What a name denotes has the same type for both passes. -/
theorem Ident.Denotes.typeOf?_eq {table : DeclTable} {frame : Frame} {base : Nat} {i : Ident}
    (h : i.Denotes table frame base) {d : Declaration} (hd : table.find i.binding = some d) :
    frame.typeOf? i = some d.ty := by
  obtain ⟨k, d', v, hslot, hbinding, hd', hv, -, -, hty⟩ := h
  rw [DeclTable.find, hbinding, Option.bind_some, hd'] at hd
  cases hd
  simp [Frame.typeOf?, hslot, hv, hty]

theorem Ident.Denotes.find {table : DeclTable} {frame : Frame} {base : Nat} {i : Ident}
    (h : i.Denotes table frame base) : ∃ d, table.find i.binding = some d := by
  obtain ⟨k, d, v, -, hbinding, hd, -⟩ := h
  exact ⟨d, by rw [DeclTable.find, hbinding, Option.bind_some, hd]⟩

theorem Ident.Denotes.typeOf_eq {table : DeclTable} {frame : Frame} {base : Nat} {i : Ident}
    (h : i.Denotes table frame base) : frame.typeOf? i = some (table.typeOf i) := by
  obtain ⟨d, hd⟩ := h.find
  simp [h.typeOf?_eq hd, DeclTable.typeOf, DeclTable.typeOf?, hd]

theorem Function.mem_variables {f : Function} {e : Expr} {i : Ident} (he : e.Inside f.body)
    (hi : e.variable? = some i) : i ∈ f.variables :=
  List.mem_append_right _ (List.mem_filterMap.2 ⟨e, Expr.mem_nodes.2 he, hi⟩)

section
variable {p : Program} (hread : p.AsRead) (h : p.analyze.report = []) {f : Function}
  (hf : f ∈ (placeFunctions {} p.analyze.program.functions).functions)
include hread hf

/-- What a function declares has the type that its place has. -/
theorem Program.typeOf?_of_declaration {frame : Frame} (hlaid : f.LaidIn frame)
    (hbody : f.body.ValueRead) {x : Mention} (hx : x ∈ f.mentions p.resolveNames.1.globals)
    {d : Declaration} (hd : x.declaration? = some d) : frame.typeOf? x.ident = some d.ty := by
  obtain ⟨earlier, table, _, hrecorded, -⟩ := Program.records_placed hread f hf
  have hdenotes := Function.denotes_own hrecorded (hlaid.slotted hbody _) hx hd
  exact hdenotes.typeOf?_eq (hrecorded.find_own hx hd)

include h

/-- A call stands for a function of the program or for an external one, and has its type. -/
theorem Program.named_of_call {n : Node} {callee : Ident} {arguments : List Expr}
    (hcall : (Expr.call n callee arguments).Inside f.body)
    (hdeclared : (Expr.call n callee arguments).Declared p.resolveNames.1.table) (frame : Frame) :
    (Expr.call n callee arguments).Named (placeFunctions {} p.analyze.program.functions).functions
      p.externals frame := by
  have hnames : p.resolveNames.2 = [] := (List.append_eq_nil_iff.1 (List.append_eq_nil_iff.1 h).1).1
  have hrecorded := Program.resolveNames_recorded hread
  obtain ⟨i, hi, hname, hbinding⟩ := Program.exists_global_of_call hread h hf hcall
  obtain ⟨hty, haccepts⟩ := hdeclared
  rw [DeclTable.typeOf, DeclTable.typeOf?] at hty
  rcases List.mem_append.1 hi with hi | hi
  · -- An external function has not the name of any function.
    obtain ⟨e, he, rfl⟩ := List.mem_map.1 hi
    obtain ⟨before, hx⟩ := Program.external_mention he
    have hfind := hrecorded.find_own hx rfl
    rw [hbinding, hfind] at hty
    refine .inr ⟨?_, ?_⟩
    · rw [names_of_bare_eq p.bare_placed, ← p.functionNames_resolved]
      intro hmem
      obtain ⟨g, hg, hgname⟩ := List.mem_map.1 hmem
      exact Program.disjoint_of_clean hread hnames hi g hg (hgname.trans hname.symm)
    · have hsame : p.resolveNames.1.externals.map (fun e => (e.ident.name, e.returns)) =
          p.externals.map fun e => (e.ident.name, e.returns) :=
        map_resolveEach (fun s e => by rw [External.resolveNames, Names.declare_value]) _ _
      obtain ⟨e', he', heq⟩ := List.mem_map.1 (hsame ▸ List.mem_map_of_mem he)
      obtain ⟨hname', hreturns⟩ := Prod.mk.inj heq
      exact ⟨e', he', hname'.trans hname, by rw [hreturns]; exact hty.symm⟩
  -- Placement keeps the header of the function that the call was resolved to.
  · obtain ⟨g, hg, rfl⟩ := List.mem_map.1 hi
    obtain ⟨before, hx⟩ := Program.function_mention hg
    have hfind := hrecorded.find_own hx rfl
    simp only [Function.nameMention] at hfind
    rw [hbinding, hfind] at hty
    have harguments := haccepts _ _ (hbinding ▸ hfind) rfl
    have hbare : (placeFunctions {} p.analyze.program.functions).functions.map Function.bare =
        p.resolveNames.1.functions.map Function.bare :=
      p.bare_placed.trans (bare_eq_of_strip_eq p.strip_resolveNames).symm
    obtain ⟨g', hg', heq⟩ := List.mem_map.1 (hbare ▸ List.mem_map_of_mem hg)
    have hname' : g'.ident.name = g.ident.name := congrArg (·.ident.name) heq
    have hreturns : g'.returns = g.returns := congrArg (·.returns) heq
    have hparams : g'.params.map (·.type.ty) = g.params.map (·.type.ty) := by
      have := congrArg (fun f => f.params.map (·.type.ty)) heq
      simpa [Function.bare, Function.strip, Param.strip, Function.comp_def] using this
    exact .inl ⟨g', hg', hname'.trans hname, by rw [hreturns]; exact hty.symm,
      hparams.trans harguments.symm⟩

end

/-! ## Programs -/

/-- The types in a placed function fit together. -/
structure Function.Conforms (functions : List Function) (externals : List External) (f : Function)
    (frame : Frame) : Prop where
  params : ∀ param ∈ f.params, frame.typeOf? param.ident = some param.type.ty
  nodes : f.body.Everywhere (Expr.Conforms functions externals frame f.returns.ty)
  body : f.body.ty = f.returns.ty

/-- The types of a function that was analysed and placed fit those of its declarations. -/
theorem Program.consistent_of_clean {p : Program} (h : p.analyze.report = []) {f : Function}
    (hf : f ∈ (placeFunctions {} p.analyze.program.functions).functions) :
    (f.body.Everywhere fun x => x.Consistent f.returns.ty ∧ x.Declared p.resolveNames.1.table) ∧
      f.body.ty = f.returns.ty := by
  -- Types were checked before placement, which writes places only.
  have hstrip := placeFunctions_strip {} p.analyze.program.functions
  have hchecks : p.analyze.program.functions.flatMap (Function.check p.resolveNames.1.table) = [] :=
    (List.append_eq_nil_iff.1 h).2
  obtain ⟨g, hg, hgf⟩ := List.mem_map.1 (hstrip ▸ List.mem_map_of_mem hf)
  have hbody : g.body.strip .allButPlaces = f.body.strip .allButPlaces := congrArg Function.body hgf
  have hreturns : g.returns = f.returns := congrArg (·.returns) hgf
  have hcheck := List.append_eq_nil_iff.1 (List.flatMap_eq_nil_iff.1 hchecks g hg)
  obtain ⟨typed, htyped, rfl⟩ := List.mem_map.1 hg
  obtain ⟨source, hsource, rfl⟩ := List.mem_map.1 htyped
  rw [report_ite_eq_nil] at hcheck
  constructor
  · rw [← Expr.everywhere_strip (Expr.consistent_strip _ _), ← hbody,
      Expr.everywhere_strip (Expr.consistent_strip _ _), ← hreturns]
    exact Expr.consistent_of_check hcheck.1
  · rw [← Expr.ty_strip (k := .allButPlaces) rfl, ← hbody, Expr.ty_strip rfl, ← hreturns]
    exact hcheck.2

/-- If analysis reports nothing, the types in the placed functions fit together. -/
theorem Program.conforms_of_clean {p : Program} (hread : p.AsRead) (h : p.analyze.report = []) :
    List.Forall₂
      (Function.Conforms (placeFunctions {} p.analyze.program.functions).functions p.externals)
      (placeFunctions {} p.analyze.program.functions).functions
      (placeFunctions {} p.analyze.program.functions).frames := by
  have hlaid := laid_placeFunctions (p.placed_of_clean h)
  have hready := p.ready_of_clean h
  have hvalue := Function.asRead_of_bare_eq p.bare_placed hread.functions
  refine List.forall₂_iff_zip.2 ⟨hlaid.length_eq, fun {f frame} hmem => ?_⟩
  have hf := (List.of_mem_zip hmem).1
  have hlaid := List.forall₂_zip hlaid hmem
  have hbody := (hvalue f hf).2
  obtain ⟨hconsistent, hty⟩ := Program.consistent_of_clean h hf
  obtain ⟨earlier, table, _, hrecorded, htable, -⟩ := Program.records_placed hread f hf
  have hdenotes := fun i hi =>
    (Function.denotes_of_recorded hrecorded (hlaid.slotted hbody _) i hi).mono htable
  refine ⟨fun param hparam => ?_, fun x hx => ⟨?_, (hconsistent x hx).1, ?_⟩, hty⟩
  · obtain ⟨l, r, hlr⟩ := List.append_of_mem hparam
    exact Program.typeOf?_of_declaration hread hf hlaid hbody (List.mem_append_left _
      (mem_mentionsInTurn.2 ⟨l, param, r, hlr, List.mem_singleton_self _⟩)) rfl
  · exact ((List.forall₂_zip hready hmem).notes x hx).1
  · have hdeclared := (hconsistent x hx).2
    cases x with
    | var n i =>
      rw [Expr.Named, (hdenotes i (Function.mem_variables hx rfl)).typeOf_eq]
      exact congrArg some hdeclared.symm
    | bind n i type value =>
      obtain ⟨y, hy, rfl, huse⟩ := Expr.exists_mention hx rfl
        [f.params.map (·.ident), p.resolveNames.1.globals]
      have hd : y.declaration? =
          some ⟨y.ident.name, .letBound, type.ty, y.ident.location, none⟩ := by
        simp only [Mention.declaration?, huse]
      rw [Expr.Named, (hconsistent _ hx).1.1]
      exact Program.typeOf?_of_declaration hread hf hlaid hbody (List.mem_append_right _ hy) hd
    | assign n i value =>
      have hi := hdenotes i (Function.mem_variables hx rfl)
      obtain ⟨d, hd⟩ := hi.find
      have hty : n.ty = d.ty := by
        rw [hdeclared.1, DeclTable.typeOf, DeclTable.typeOf?, hd]
        rfl
      exact ⟨by rw [hi.typeOf?_eq hd, hty], by rw [hdeclared.2 d hd, hty]⟩
    | call n callee arguments => exact Program.named_of_call hread h hf hx hdeclared frame
    | _ => trivial

end Ilang
