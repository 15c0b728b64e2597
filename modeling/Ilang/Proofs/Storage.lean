import Ilang.Proofs.References
import Ilang.Proofs.Slots
import Ilang.Proofs.Translation
/-!
# Where variables are stored

Each parameter and each `let` of a function has a place of its own in the frame, parameters first and
then the `let`s as they are laid out. The frame has room for just these, the code stores the arguments
there and the values of the `let`s, and it names no other place in memory (`Function.StoredAs`). All
this comes from placement, so it does not matter which places the names had before
(`Program.variables_stored`).
-/
namespace Ilang

/-! ## Places -/

/-- The place of the variable with a number. -/
def Operand.place (k : Nat) : Operand := .slot (-(8 * (k + 1) : Nat))

/-- In a regular frame, a name has the place of its number. -/
theorem Frame.Regular.slotOf_eq_ok {f : Frame} (hf : f.Regular) {i : Ident} {o : Operand}
    (h : f.slotOf i = .ok o) : ∃ k < f.vars.size, i.slot = some k ∧ o = .place k := by
  unfold slotOf at h
  split at h
  · rename_i var hvar
    obtain ⟨k, hk, hvar⟩ := Option.bind_eq_some_iff.1 hvar
    cases h
    exact ⟨k, (Array.getElem?_eq_some_iff.1 hvar).1, hk, congrArg Operand.slot (hf.offset k var hvar)⟩
  · cases h

theorem Function.LaidIn.regular {f : Function} {frame : Frame} (h : f.LaidIn frame) :
    frame.Regular := by
  obtain ⟨g, last, hps, hbody, rfl⟩ := h.laid
  have hgrows := hps.grows (Frame.start_ne_nil f.ident.name)
  have hregular := hgrows.regular (Frame.start_regular f.ident.name)
  exact ((hbody.grows hgrows.scopes.ne_nil).regular hregular).leave

/-! ## The numbers of variables -/

/-- The names that the `let`s in an expression declare, each behind those in its value. -/
def Expr.binders (e : Expr) : List Ident := (e.nodes .written).flatMap lets

theorem Expr.binders_eq (e : Expr) : e.binders = e.children.flatMap binders ++ e.lets := by
  unfold binders
  rw [nodes_written, List.flatMap_append, List.flatMap_assoc, List.flatMap_singleton]

/-- Notes do not change which names are declared. -/
theorem Expr.binders_strip (k : Keep) (e : Expr) : (e.strip k).binders = e.binders.map k.ident := by
  induction e using Expr.induction_children with
  | _ e ih =>
    rw [binders_eq, binders_eq, children_strip, lets_strip, List.map_append, List.map_flatMap,
      List.flatMap_map]
    congr 1
    exact List.flatMap_congr ih

/-- On the way from one frame to another, names get the numbers in between. -/
structure Frame.Numbers (f g : Frame) (is : List Ident) : Prop where
  size : g.vars.size = f.vars.size + is.length
  slots : is.map (·.slot) = (List.range' f.vars.size is.length).map some

namespace Frame.Numbers

variable {f g h : Frame} {is js : List Ident}

theorem nil : Numbers f f [] := ⟨rfl, rfl⟩

theorem append (hi : Numbers f g is) (hj : Numbers g h js) : Numbers f h (is ++ js) := by
  refine ⟨?_, ?_⟩
  · rw [hj.size, hi.size, List.length_append, Nat.add_assoc]
  · rw [List.map_append, hi.slots, hj.slots, hi.size, ← List.map_append, List.range'_append_1,
      List.length_append]

theorem register {i : Ident} {ty : Ty} {k : Nat}
    (h : f.register i.name ty i.location = (.ok k, g)) (hi : i.slot = some k) :
    Numbers f g [i] := by
  obtain ⟨-, rfl, -, -, v, -, hvars⟩ := register_eq_ok h
  exact ⟨by simp [hvars], by simp [hi]⟩

end Frame.Numbers

theorem LaidAll.numbers {f g : Frame} {es : List Expr}
    (h : ∀ e ∈ es, ∀ {f g : Frame}, Laid f e g → f.Numbers g e.binders) (hes : LaidAll f es g) :
    f.Numbers g (es.flatMap Expr.binders) := by
  induction es generalizing f with
  | nil =>
    cases hes
    exact .nil
  | cons e es ih =>
    cases hes with
    | cons he hes =>
      exact (h e List.mem_cons_self he).append (ih (fun d hd => h d (List.mem_cons_of_mem _ hd)) hes)

/-- The `let`s in an expression are numbered as they are laid out. -/
theorem Laid.numbers {f g : Frame} {e : Expr} (h : Laid f e g) : f.Numbers g e.binders := by
  induction e using Expr.induction_children generalizing f g with
  | _ e ih =>
    rw [Expr.binders_eq]
    by_cases hblock : e.isBlock = true
    · obtain ⟨n, body, result, rfl⟩ := Expr.isBlock_iff.1 hblock
      obtain ⟨inner, hparts, rfl⟩ := h.block_parts
      -- A scope that is closed leaves its variables in the frame.
      obtain ⟨hsize, hslots⟩ := hparts.numbers fun c hc => ih c hc
      rw [show (Expr.block n body result).lets = [] from rfl, List.append_nil]
      exact ⟨hsize, hslots⟩
    · by_cases hlets : e.lets = []
      · obtain ⟨hparts, -⟩ := h.parts (Bool.eq_false_iff.2 hblock) hlets
        rw [hlets, List.append_nil]
        exact hparts.numbers fun c hc => ih c hc
      · obtain ⟨n, ident, type, value, rfl⟩ := Expr.lets_ne_nil_iff.1 hlets
        cases h with
        | bind hv hk hs =>
          have hvalue := ih value (by simp [Expr.children]) hv
          simpa [Expr.children, Expr.lets] using hvalue.append (.register hk hs)

theorem LaidParams.numbers {f g : Frame} {ps : List Param} (h : LaidParams f ps g) :
    f.Numbers g (ps.map (·.ident)) := by
  induction h with
  | nil => exact .nil
  | cons hk hs _ ih => exact (Frame.Numbers.register hk hs).append ih

/-- The variables of a function are its parameters and its `let`s, numbered from zero. -/
theorem Function.LaidIn.numbers {f : Function} {frame : Frame} (h : f.LaidIn frame) :
    (Frame.start f.ident.name).Numbers frame (f.params.map (·.ident) ++ f.body.binders) := by
  obtain ⟨g, last, hps, hbody, rfl⟩ := h.laid
  obtain ⟨hsize, hslots⟩ := hps.numbers.append hbody.numbers
  exact ⟨hsize, hslots⟩

theorem Function.LaidIn.size_eq {f : Function} {frame : Frame} (h : f.LaidIn frame) :
    frame.vars.size = f.params.length + f.body.binders.length := by
  simpa [Frame.start, Frame.enter] using h.numbers.size

theorem Function.LaidIn.param_slots {f : Function} {frame : Frame} (h : f.LaidIn frame) :
    f.params.map (·.ident.slot) = (List.range' 0 f.params.length).map some := by
  obtain ⟨g, last, hps, -⟩ := h.laid
  have hslots := hps.numbers.slots
  rw [List.map_map, List.length_map] at hslots
  exact hslots

theorem Function.LaidIn.slots_eq {f : Function} {frame : Frame} (h : f.LaidIn frame) :
    (f.params.map (·.ident) ++ f.body.binders).map (·.slot) =
      (List.range (f.params.length + f.body.binders.length)).map some := by
  have hslots := h.numbers.slots
  rw [List.length_append, List.length_map] at hslots
  rw [hslots, List.range_eq_range']
  rfl

/-! ## The code of a function -/

/-- The code that puts arguments from their registers into the places of the first variables. -/
def Convention.stores (count : Nat) : List Instr :=
  (argumentRegs.zip (List.range count)).map fun x => .mov x.1 (.place x.2)

/-- The code for parameters is that for their numbers, which are those of their registers. -/
theorem storeParams_eq {frame : Frame} (hf : frame.Regular) {index : Nat} {ps : List Param}
    {is : List Instr} (h : storeParams frame index ps = .ok is)
    (hslots : ps.map (·.ident.slot) = (List.range' index ps.length).map some) :
    is = ((Convention.argumentRegs.drop index).zip (List.range' index ps.length)).map
      fun x => .mov x.1 (.place x.2) := by
  induction ps generalizing index is with
  | nil =>
    cases h
    simp
  | cons p ps ih =>
    obtain ⟨r, o, stores, hr, ho, hstores, rfl⟩ := storeParams_cons h
    rw [List.length_cons, List.range'_succ, List.map_cons, List.map_cons, List.cons.injEq] at hslots
    obtain ⟨k, -, hk, rfl⟩ := hf.slotOf_eq_ok ho
    obtain rfl : index = k := Option.some.inj (hslots.1.symm.trans hk)
    have hdrop : Convention.argumentRegs.drop index = r :: Convention.argumentRegs.drop (index + 1) := by
      unfold Convention.argumentReg at hr
      split at hr <;> cases hr
      rename_i hr
      obtain ⟨hlt, rfl⟩ := List.getElem?_eq_some_iff.1 hr
      exact List.drop_eq_getElem_cons hlt
    rw [ih hstores hslots.2, hdrop, List.length_cons, List.range'_succ, List.zip_cons_cons,
      List.map_cons]

/-- The instruction that reads or writes the place of the variable that an expression names. -/
def Expr.storage? : Expr → Option Instr
  | .var _ i => i.slot.map fun k => .mov (.place k) Reg.rax
  | .bind _ i _ _ | .assign _ i _ => i.slot.map fun k => .mov Reg.rax (.place k)
  | _ => none

theorem Expr.access?_eq {frame : Frame} (hf : frame.Regular) {e : Expr}
    (he : e.Located frame.vars.size) : e.access? frame = e.storage? := by
  cases e with
  | var n i | bind n i type value | assign n i value =>
    obtain ⟨o, ho⟩ := Frame.slotOf_ok he
    obtain ⟨k, -, hk, rfl⟩ := hf.slotOf_eq_ok ho
    simp [access?, storage?, ho, hk, Except.toOption]
  | _ => rfl

/-- The operands of an instruction that are in memory are places of some first variables. -/
def Instr.Within (count : Nat) (i : Instr) : Prop :=
  ∀ o ∈ i.operands, o.isMem = true → ∃ k : Nat, 1 ≤ k ∧ k ≤ count ∧ o = .mem (-(8 * k)) .rbp

theorem Instr.within_of_not_touches {count : Nat} {i : Instr} (h : i.touches = false) :
    i.Within count := by
  intro o ho hmem
  have hnone := List.any_eq_false.1 h o ho
  exact absurd hmem hnone

theorem Operand.place_eq (k : Nat) : place k = .mem (-(8 * (k + 1 : Nat))) .rbp := by
  simp [place, slot]

theorem Instr.within_load {count k : Nat} (hk : k < count) (r : Reg) :
    (Instr.mov (.place k) r).Within count := by
  intro o ho hmem
  rcases List.mem_cons.1 ho with rfl | ho
  · exact ⟨k + 1, by omega, by omega, Operand.place_eq k⟩
  · rw [List.mem_singleton.1 ho] at hmem
    cases hmem

theorem Instr.within_store {count k : Nat} (hk : k < count) (r : Reg) :
    (Instr.mov r (.place k)).Within count := by
  intro o ho hmem
  rcases List.mem_cons.1 ho with rfl | ho
  · cases hmem
  · exact ⟨k + 1, by omega, by omega, List.mem_singleton.1 ho ▸ Operand.place_eq k⟩

theorem Expr.within_storage? {count : Nat} {e : Expr} (he : e.Located count) {i : Instr}
    (h : e.storage? = some i) : i.Within count := by
  cases e with
  | var n ident =>
    obtain ⟨k, hk, hslot⟩ := he
    simp only [storage?, hslot, Option.map_some, Option.some.injEq] at h
    exact h ▸ Instr.within_load hk .rax
  | bind n ident type value | assign n ident value =>
    obtain ⟨k, hk, hslot⟩ := he
    simp only [storage?, hslot, Option.map_some, Option.some.injEq] at h
    exact h ▸ Instr.within_store hk .rax
  | _ => cases h

/-- The code `block` of a function `f` stores its variables, where `g` is the function with its
places. -/
structure Function.StoredAs (f g : Function) (block : List Instr) : Prop where
  /-- The places are all that was added. -/
  bare : g.bare = f.bare
  /-- Parameters and `let`s are numbered in order, so no two of them have the same place. -/
  slots : (g.params.map (·.ident) ++ g.body.binders).map (·.slot) =
    (List.range (f.params.length + f.body.binders.length)).map some
  /-- There is a register for each parameter. -/
  few : f.params.length ≤ Convention.argumentRegs.length
  /-- The frame has eight bytes for each variable, the arguments are stored there first, and what
  else reads or writes it comes from a name in the body, in the order of evaluation. -/
  code : ∃ body, block = .label f.ident.name :: .push .rbp :: .mov Reg.rsp Reg.rbp ::
      .sub (.imm (8 * (f.params.length + f.body.binders.length) : Nat)) Reg.rsp ::
      (Convention.stores f.params.length ++ body) ∧
    Instr.accesses body = (g.body.nodes .evaluated).filterMap Expr.storage?
  /-- No other place in memory is named. -/
  within : ∀ i ∈ block, i.Within (f.params.length + f.body.binders.length)

/-- In a frame that is regular, what reads or writes a variable does so at the place of its number. -/
theorem Emits.accesses_eq {env : Surroundings} {l m : Labels} {e : Expr} {c : List Instr}
    (hf : env.frame.Regular) (he : e.Everywhere (Expr.Located env.frame.vars.size))
    (h : Emits env l e c m) : Instr.accesses c = (e.nodes .evaluated).filterMap Expr.storage? := by
  rw [h.accesses]
  exact List.filterMap_congr fun x hx => Expr.access?_eq hf (he x (Expr.mem_nodes.1 hx))

theorem Emits.within {env : Surroundings} {l m : Labels} {e : Expr} {c : List Instr}
    (hf : env.frame.Regular) (he : e.Everywhere (Expr.Located env.frame.vars.size))
    (h : Emits env l e c m) : ∀ i ∈ c, i.Within env.frame.vars.size := by
  intro i hi
  cases htouches : i.touches with
  | false => exact Instr.within_of_not_touches htouches
  | true =>
    have hmem : i ∈ Instr.accesses c := List.mem_filter.2 ⟨hi, htouches⟩
    rw [h.accesses_eq hf he] at hmem
    obtain ⟨x, hx, hi⟩ := List.mem_filterMap.1 hmem
    exact Expr.within_storage? (he x (Expr.mem_nodes.1 hx)) hi

theorem Convention.within_stores {count size : Nat} (h : count ≤ size) :
    ∀ i ∈ stores count, i.Within size := by
  intro i hi
  obtain ⟨x, hx, rfl⟩ := List.mem_map.1 hi
  have hlt := List.mem_range.1 (List.of_mem_zip hx).2
  exact Instr.within_store (by omega) x.1

/-- The code of a function that was placed stores its variables. -/
theorem EmitsFunction.stored {functions : List String} {l m : Labels} {f : Function}
    {frame : Frame} {block : List Instr} (hlaid : f.LaidIn frame)
    (h : EmitsFunction functions l f frame block m) : f.StoredAs f block := by
  have hregular := hlaid.regular
  have hlocated := hlaid.located.2
  have hsize := hlaid.size_eq
  cases h with
  | intro hmax hs hb =>
    rename_i stores body
    obtain rfl : stores = Convention.stores f.params.length := by
      rw [storeParams_eq hregular hs hlaid.param_slots, List.drop_zero, ← List.range_eq_range']
      rfl
    have haccesses : Instr.accesses (body ++ [.leave, .ret]) = Instr.accesses body := by
      simp [Instr.accesses, Instr.touches, Instr.operands]
    have hwithin : ∀ i ∈ body, i.Within (f.params.length + f.body.binders.length) :=
      hsize ▸ hb.within hregular hlocated
    refine ⟨rfl, hlaid.slots_eq, hmax, ⟨body ++ [.leave, .ret], ?_, ?_⟩, ?_⟩
    · rw [hlaid.function_eq, hregular.size, hsize]
    · exact haccesses.trans (hb.accesses_eq hregular hlocated)
    · simp only [List.forall_mem_cons, List.forall_mem_append]
      have hstores := Convention.within_stores (Nat.le_add_right f.params.length f.body.binders.length)
      refine ⟨?_, ?_, ?_, ?_, hstores, hwithin, ?_, ?_, by simp⟩
      all_goals exact Instr.within_of_not_touches rfl

/-- Notes do not change how a function stores its variables. -/
theorem Function.StoredAs.of_bare_eq {f g : Function} {block : List Instr} (h : g.StoredAs g block)
    (hbare : g.bare = f.bare) : f.StoredAs g block := by
  have hname : g.ident.name = f.ident.name := congrArg (·.ident.name) hbare
  have hparams : g.params.length = f.params.length := by
    simpa [Function.strip] using congrArg (·.params.length) hbare
  have hbinders : g.body.binders.length = f.body.binders.length := by
    have hbody : g.body.strip .nothing = f.body.strip .nothing := congrArg Function.body hbare
    simpa [Expr.binders_strip] using congrArg (·.binders.length) hbody
  obtain ⟨-, hslots, hfew, hcode, hwithin⟩ := h
  rw [hparams, hbinders] at hslots hcode hwithin
  rw [hname] at hcode
  exact ⟨hbare, hslots, hparams ▸ hfew, hcode, hwithin⟩

/-- The code of functions is made of blocks, one for each function, which stores its variables. -/
theorem EmitsFunctions.stored {functions : List String} {fs gs : List Function}
    {frames : List Frame} {l m : Labels} {c : List Instr}
    (hbare : gs.map Function.bare = fs.map Function.bare)
    (hlaid : List.Forall₂ Function.LaidIn gs frames)
    (h : EmitsFunctions functions l (gs.zip frames) c m) :
    ∃ blocks : List (List Instr), c = blocks.flatten ∧ blocks.length = fs.length ∧
      ∀ (k : Nat) (f : Function), fs[k]? = some f →
        ∃ g block, gs[k]? = some g ∧ blocks[k]? = some block ∧ f.StoredAs g block := by
  -- The functions, their frames and the code are gone through together.
  induction hlaid generalizing fs l c with
  | nil =>
    cases h
    obtain rfl : fs = [] := List.map_eq_nil_iff.1 hbare.symm
    exact ⟨[], rfl, rfl, by simp⟩
  | @cons g frame gs frames hg _ ih =>
    obtain ⟨f, fs, rfl, hf, hfs⟩ := List.map_eq_cons_iff.1 hbare.symm
    rw [List.zip_cons_cons] at h
    cases h with
    | cons hcode hcodes =>
      obtain ⟨blocks, rfl, hlength, hall⟩ := ih hfs.symm hcodes
      refine ⟨_ :: blocks, rfl, by simp [hlength], ?_⟩
      intro k f' hk
      cases k with
      | zero =>
        obtain rfl : f = f' := by simpa using hk
        exact ⟨g, _, rfl, rfl, (hcode.stored hg).of_bare_eq hf.symm⟩
      | succ k => exact hall k f' hk

/-! ## Emission finds each variable -/

/-- A step does not fail because a name has no variable. -/
def Resolves {α : Type} (r : Except GenError α) : Prop :=
  ∀ name location, r ≠ .error (.unresolvedLocal name location)

namespace Resolves

variable {α β : Type}

theorem of_ok {r : Except GenError α} (h : ∃ a, r = .ok a) : Resolves r := by
  obtain ⟨a, rfl⟩ := h
  rintro _ _ ⟨⟩

theorem andThen {x : Except GenError α} {f : α → Except GenError β} (hx : Resolves x)
    (hf : ∀ a, Resolves (f a)) : Resolves (x >>= f) := by
  cases x with
  | ok a => exact hf a
  | error e =>
    rintro name location ⟨⟩
    exact hx name location rfl

theorem bind {x : Emit α} {f : α → Emit β} {l : Labels} (hx : Resolves (x l))
    (hf : ∀ a m, Resolves (f a m)) : Resolves ((x >>= f) l) :=
  hx.andThen fun r => hf r.1 r.2

theorem bind_lift {x : Except GenError α} {f : α → Emit β} {l : Labels} (hx : Resolves x)
    (hf : ∀ a, Resolves (f a l)) : Resolves (((liftM x : Emit α) >>= f) l) := by
  rw [Emit.bind_apply]
  cases x with
  | ok a => exact hf a
  | error e => exact hx.andThen hf

theorem pure (a : α) (l : Labels) : Resolves ((Pure.pure a : Emit α) l) :=
  of_ok ⟨(a, l), rfl⟩

/-- What is made of the result of a step does not matter. -/
theorem map {x : Emit α} {f : α → β} {l : Labels} (hx : Resolves (x l)) :
    Resolves ((x >>= fun a => Pure.pure (f a)) l) :=
  hx.bind fun a m => pure (f a) m

theorem branchLabels {f : String → String → Emit β} {l : Labels}
    (h : Resolves (f l.elseLabel l.branchEnd l.afterBranch)) :
    Resolves ((Emit.branchLabel >>= fun x => Emit.branchLabel >>= fun y => f x y) l) :=
  h

theorem loopLabels {f : String → String → Emit β} {l : Labels}
    (h : Resolves (f l.loopStart l.loopEnd l.afterLoop)) :
    Resolves ((Emit.loopLabel >>= fun x => Emit.loopLabel >>= fun y => f x y) l) :=
  h

end Resolves

theorem literalCode_resolves (n : Node) (text : String) (constant : Option String) :
    Resolves (literalCode n text constant) := by
  unfold literalCode
  dsimp only
  repeat' split
  all_goals rintro _ _ ⟨⟩

theorem Convention.argumentReg_resolves (k : Nat) : Resolves (argumentReg k) := by
  unfold argumentReg
  split <;> rintro _ _ ⟨⟩

theorem popArguments_resolves (k : Nat) : Resolves (popArguments k) := by
  induction k with
  | zero => rintro _ _ ⟨⟩
  | succ k ih =>
    exact (Convention.argumentReg_resolves k).andThen fun _ => ih.andThen fun _ => .of_ok ⟨_, rfl⟩

theorem storeParams_resolves {frame : Frame} {ps : List Param}
    (h : ∀ p ∈ ps, ∃ k < frame.vars.size, p.ident.slot = some k) (index : Nat) :
    Resolves (storeParams frame index ps) := by
  induction ps generalizing index with
  | nil => rintro _ _ ⟨⟩
  | cons p ps ih =>
    simp only [List.forall_mem_cons] at h
    have hslot := Resolves.of_ok (Frame.slotOf_ok h.1)
    exact (Convention.argumentReg_resolves index).andThen fun _ => hslot.andThen fun _ =>
      (ih h.2 (index + 1)).andThen fun _ => .of_ok ⟨_, rfl⟩

mutual

/-- Code is not refused because a name has no variable if all names have one. -/
theorem Expr.emit_resolves {env : Surroundings} {e : Expr}
    (h : e.Everywhere (Expr.Located env.frame.vars.size)) (l : Labels) :
    Resolves (e.emit env l) := by
  obtain ⟨he, hcs⟩ := Expr.everywhere_iff.1 h
  cases e with
  | literal n text constant =>
    rw [Expr.emit]
    exact .bind_lift (literalCode_resolves n text constant) fun _ => .pure _ _
  | var n ident =>
    rw [Expr.emit]
    exact .bind_lift (.of_ok (Frame.slotOf_ok he)) fun _ => .pure _ _
  | call n callee arguments =>
    rw [Expr.emit]
    split
    · rintro _ _ ⟨⟩
    · exact .bind (emitArguments_resolves hcs l) fun _ _ =>
        .bind_lift (popArguments_resolves _) fun _ => .pure _ _
  | block n body result =>
    rw [Expr.emit]
    have hboth := List.forall_mem_append.1 hcs
    exact .bind (emitAll_resolves hboth.1 l) fun _ m => .map (emitOpt_resolves hboth.2 _ m)
  | bind n ident type value | assign n ident value =>
    rw [Expr.emit]
    exact .bind (Expr.emit_resolves (hcs value (by simp [Expr.children])) l) fun _ _ =>
      .bind_lift (.of_ok (Frame.slotOf_ok he)) fun _ => .pure _ _
  | binary n op left right =>
    rw [Expr.emit]
    exact .bind (Expr.emit_resolves (hcs right (by simp [Expr.children])) l) fun _ m =>
      .map (Expr.emit_resolves (hcs left (by simp [Expr.children])) m)
  | unary n op value | ret n value =>
    rw [Expr.emit]
    exact .map (Expr.emit_resolves (hcs value (by simp [Expr.children])) l)
  | group n inner =>
    rw [Expr.emit]
    exact Expr.emit_resolves (hcs inner (by simp [Expr.children])) l
  | branch n condition onTrue onFalse =>
    rw [Expr.emit]
    simp only [Expr.children, List.forall_mem_cons] at hcs
    refine .branchLabels (.bind (Expr.emit_resolves hcs.1 _) fun _ m => ?_)
    exact .bind (Expr.emit_resolves hcs.2.1 m) fun _ m => .map (emitOpt_resolves hcs.2.2 _ m)
  | loop n condition body =>
    rw [Expr.emit]
    simp only [Expr.children, List.forall_mem_cons] at hcs
    -- A loop around an expression does not change the variables of the frame.
    have hcondition := @Expr.emit_resolves (env.inLoop l.loopEnd) condition hcs.1
    have hbody := @Expr.emit_resolves (env.inLoop l.loopEnd) body hcs.2.1
    exact .loopLabels (.bind (hcondition _) fun _ m => .map (hbody m))
  | brk n =>
    rw [Expr.emit]
    cases env.frame.currentLoop? <;> rintro _ _ ⟨⟩

theorem emitAll_resolves {env : Surroundings} {es : List Expr}
    (h : ∀ e ∈ es, e.Everywhere (Expr.Located env.frame.vars.size)) (l : Labels) :
    Resolves (emitAll env es l) := by
  cases es with
  | nil => rintro _ _ ⟨⟩
  | cons e es =>
    simp only [List.forall_mem_cons] at h
    rw [emitAll]
    exact .bind (Expr.emit_resolves h.1 l) fun _ m => .map (emitAll_resolves h.2 m)

theorem emitArguments_resolves {env : Surroundings} {es : List Expr}
    (h : ∀ e ∈ es, e.Everywhere (Expr.Located env.frame.vars.size)) (l : Labels) :
    Resolves (emitArguments env es l) := by
  cases es with
  | nil => rintro _ _ ⟨⟩
  | cons e es =>
    simp only [List.forall_mem_cons] at h
    rw [emitArguments]
    exact .bind (Expr.emit_resolves h.1 l) fun _ m => .map (emitArguments_resolves h.2 m)

theorem emitOpt_resolves {env : Surroundings} {e : Option Expr}
    (h : ∀ x ∈ e.toList, x.Everywhere (Expr.Located env.frame.vars.size)) (heading : List Instr)
    (l : Labels) : Resolves (emitOpt env heading e l) := by
  cases e with
  | none => rintro _ _ ⟨⟩
  | some e =>
    rw [emitOpt]
    exact .map (Expr.emit_resolves (h e (by simp)) l)

end

theorem Function.emit_resolves {f : Function} {frame : Frame} (h : f.LaidIn frame)
    (comments : Bool) (functions : List String) (l : Labels) :
    Resolves (f.emit comments functions frame l) := by
  obtain ⟨hparams, hbody⟩ := h.located
  rw [Function.emit]
  split
  · rintro _ _ ⟨⟩
  · exact .bind_lift (storeParams_resolves hparams 0) fun _ => .map
      (@Expr.emit_resolves ⟨frame, functions, comments⟩ f.body hbody l)

theorem emitFunctions_resolves {fs : List (Function × Frame)} (h : ∀ x ∈ fs, x.1.LaidIn x.2)
    (comments : Bool) (functions : List String) (l : Labels) :
    Resolves (emitFunctions comments functions fs l) := by
  induction fs generalizing l with
  | nil => rintro _ _ ⟨⟩
  | cons x fs ih =>
    simp only [List.forall_mem_cons] at h
    rw [emitFunctions]
    exact .bind (Function.emit_resolves h.1 comments functions l) fun _ m => .map (ih h.2 m)

theorem PlacedFunctions.assemble_resolves {placed : PlacedFunctions} (options : GenOptions)
    (hlaid : List.Forall₂ Function.LaidIn placed.functions placed.frames)
    (hstrings : placed.constants.Strings) : Resolves (placed.assemble options) := by
  obtain ⟨lines, hlines⟩ := Constants.entriesLines_ok hstrings
  have hdata : placed.constants.dataLines = .ok (.directive ".data" :: lines) := by
    rw [Constants.dataLines, hlines]
    rfl
  exact (emitFunctions_resolves (fun x hx => List.forall₂_zip hlaid hx) _ _ {}).andThen fun _ =>
    (Resolves.of_ok ⟨_, hdata⟩).andThen fun _ => .of_ok ⟨_, rfl⟩

theorem Program.checkFunctions_resolves (p : Program) (options : GenOptions) :
    Resolves (p.checkFunctions options) := by
  unfold checkFunctions
  repeat' split
  all_goals rintro _ _ ⟨⟩

/-! ## The result -/

/-- In the code of a program, each function stores its variables in places of their own, whatever
places the names had before. If placement comes to its end, no name is left without a variable. -/
theorem Program.variables_stored (p : Program) (options : GenOptions) :
    (∀ assembly labels, (p.generate options).result = .ok (assembly, labels) →
      ∃ blocks : List (List Instr), blocks.length = p.functions.length ∧
        Instr.plain assembly.code = .directive ".text" ::
          .directive (".globl " ++ options.entryPoint) :: blocks.flatten ∧
        ∀ (k : Nat) (f : Function), p.functions[k]? = some f →
          ∃ g block, (p.generate options).program.functions[k]? = some g ∧
            blocks[k]? = some block ∧ f.StoredAs g block) ∧
      ((placeFunctions {} p.functions).stopped = none → ∀ name location,
        (p.generate options).result ≠ .error (.unresolvedLocal name location)) := by
  refine ⟨?_, ?_⟩
  · intro assembly labels h
    obtain ⟨hstopped, hfunctions, hassemble⟩ := Program.generate_eq_ok h
    have hbare := bare_eq_of_strip_eq (placeFunctions_strip {} p.functions)
    obtain ⟨code, hcode, hemits⟩ := PlacedFunctions.emits_of_ok hassemble
    obtain ⟨blocks, rfl, hlength, hall⟩ := hemits.stored hbare (laid_placeFunctions hstopped)
    exact ⟨blocks, hlength, hcode, hfunctions ▸ hall⟩
  · intro hstopped
    -- The check before placement has other errors, so emission is all that is left.
    have hcheck := p.checkFunctions_resolves options
    have hstrings := placeFunctions_kept Layout.kept_strings
      (show Constants.Strings {} by simp [Constants.Strings]) p.functions
    have hassemble :=
      PlacedFunctions.assemble_resolves options (laid_placeFunctions hstopped) hstrings
    unfold Program.generate
    cases hc : p.checkFunctions options with
    | error e =>
      rw [hc] at hcheck
      rintro name location ⟨⟩
      exact hcheck name location rfl
    | ok u =>
      simp only [hstopped]
      exact hassemble

/-- A function `main(int a, int b) { let x: int = { let y: int = a; y }; x = b; x }` whose names all
have the place of a tenth variable. -/
def Program.stale : Program :=
  let i (name : String) : Ident := { name, location := .unknown, slot := some 9 }
  let n : Node := { location := .unknown }
  let t := TypeRef.ofName "int" .unknown
  let inner := Expr.block n [.bind n (i "y") t (.var n (i "a"))] (some (.var n (i "y")))
  let body := Expr.block n [.bind n (i "x") t inner, .assign n (i "x") (.var n (i "b"))]
    (some (.var n (i "x")))
  { functions := [⟨i "main", t, [⟨i "a", t⟩, ⟨i "b", t⟩], body, .unknown⟩] }

theorem Program.variables_stored_stale :
    (placeFunctions {} Program.stale.functions).stopped = none ∧
      (∀ name location,
        (Program.stale.generate {}).result ≠ .error (.unresolvedLocal name location)) ∧
      ∃ (assembly : Assembly) (labels : Labels) (f g : Function) (block : List Instr),
        (Program.stale.generate {}).result = .ok (assembly, labels) ∧
        Program.stale.functions = [f] ∧ f.StoredAs g block ∧
        Instr.plain assembly.code = .directive ".text" :: .directive ".globl main" :: block ∧
        g.body.binders.map (fun i => (i.name, i.slot)) = [("y", some 2), ("x", some 3)] := by
  have hstopped : (placeFunctions {} Program.stale.functions).stopped = none :=
    Option.isNone_iff_eq_none.1 (by decide +kernel)
  have hslots : (Program.stale.generate {}).program.functions.map (fun g =>
      g.body.binders.map fun i => (i.name, i.slot)) = [[("y", some 2), ("x", some 3)]] := by
    decide +kernel
  have hok : (Program.stale.generate {}).result.toOption.isSome = true := by decide +kernel
  obtain ⟨hstored, hresolves⟩ := Program.variables_stored Program.stale {}
  refine ⟨hstopped, hresolves hstopped, ?_⟩
  cases hresult : (Program.stale.generate {}).result with
  | error e => rw [hresult] at hok; cases hok
  | ok r =>
    obtain ⟨blocks, hlength, hcode, hall⟩ := hstored r.1 r.2 hresult
    obtain ⟨block, rfl⟩ := List.length_eq_one_iff.1 hlength
    obtain ⟨g, _, hg, hblock, hf⟩ := hall 0 _ rfl
    cases hblock
    rw [List.flatten_singleton] at hcode
    refine ⟨r.1, r.2, _, g, block, rfl, rfl, hf, hcode, ?_⟩
    have hfirst := congrArg (·[0]?) hslots
    simpa [hg] using hfirst

end Ilang
