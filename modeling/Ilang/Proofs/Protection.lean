import Ilang.Assembly
import Ilang.Proofs.Limits
import Ilang.Proofs.Visibility
/-!
# A program that analysis accepts can be made into code

Only limits of the generator are left once analysis has reported nothing: the entry point may be
missing, a function or a call may have more arguments than there are registers for them, and there
is no code for floating point numbers. `Program.generate_ok_iff` says that code is made if and only
if none of these limits is met, and that every error names such a limit.
-/
namespace Ilang

/-! ## Notes that are in order -/

mutual

/-- In a tree that was placed, strings have labels and names have variables of the frame. -/
theorem Laid.located {f g : Frame} {e : Expr} {c : Nat} (hf : f.scopes.chain ≠ [])
    (hr : f.Regular) (h : Laid f e g) (hg : g.vars.size ≤ c) :
    e.Everywhere (Expr.Located c) := by
  rw [Expr.everywhere_iff]
  cases h with
  | literal h => exact ⟨h, by simp [Expr.children]⟩
  | var hk hs => exact ⟨⟨_, Nat.lt_of_lt_of_le (hr.lookup_lt hk) hg, hs⟩, by simp [Expr.children]⟩
  | call h => exact ⟨trivial, h.located hf hr hg⟩
  | block hb ho =>
    have hgrows := hb.grows (List.cons_ne_nil _ _)
    have hgrows' := ho.grows hgrows.scopes.ne_nil
    refine ⟨trivial, List.forall_mem_append.2 ⟨?_, ?_⟩⟩
    · exact hb.located (List.cons_ne_nil _ _) hr.enter (Nat.le_trans hgrows'.size_le hg)
    · exact ho.located hgrows.scopes.ne_nil (hgrows.regular hr.enter) hg
  | bind hv hk hs =>
    have hgrows := hv.grows hf
    have hsize := (Frame.grows_register hgrows.scopes.ne_nil hk).size_le
    obtain ⟨-, rfl, -, -, v, -, hvars⟩ := Frame.register_eq_ok hk
    rw [hvars, Array.size_push] at hg
    exact ⟨⟨_, by omega, hs⟩, by simpa [Expr.children] using hv.located hf hr (by omega)⟩
  | assign hv hk hs =>
    have hlt := ((hv.grows hf).regular hr).lookup_lt hk
    exact ⟨⟨_, Nat.lt_of_lt_of_le hlt hg, hs⟩, by simpa [Expr.children] using hv.located hf hr hg⟩
  | binary hl hright =>
    have hgrows := hl.grows hf
    have hgrows' := hright.grows hgrows.scopes.ne_nil
    have hleft := hl.located hf hr (Nat.le_trans hgrows'.size_le hg)
    have hright := hright.located hgrows.scopes.ne_nil (hgrows.regular hr) hg
    exact ⟨trivial, by simpa [Expr.children] using ⟨hleft, hright⟩⟩
  | unary h => exact ⟨trivial, by simpa [Expr.children] using h.located hf hr hg⟩
  | group h => exact ⟨trivial, by simpa [Expr.children] using h.located hf hr hg⟩
  | branch hc ht ho =>
    have hgrows := hc.grows hf
    have hgrows₂ := hgrows.trans (ht.grows hgrows.scopes.ne_nil)
    have hsize := (ho.grows hgrows₂.scopes.ne_nil).size_le
    have hsize₂ := (ht.grows hgrows.scopes.ne_nil).size_le
    have hcond := hc.located hf hr (c := c) (by omega)
    have htrue := ht.located hgrows.scopes.ne_nil (hgrows.regular hr) (c := c) (by omega)
    have hfalse := ho.located hgrows₂.scopes.ne_nil (hgrows₂.regular hr) hg
    exact ⟨trivial, List.forall_mem_cons.2 ⟨hcond, List.forall_mem_cons.2 ⟨htrue, hfalse⟩⟩⟩
  | ret h => exact ⟨trivial, by simpa [Expr.children] using h.located hf hr hg⟩
  | loop hc hb =>
    have hgrows := hc.grows hf
    have hgrows' := hb.grows hgrows.scopes.ne_nil
    have hcond := hc.located hf hr (Nat.le_trans hgrows'.size_le hg)
    have hbody := hb.located hgrows.scopes.ne_nil (hgrows.regular hr) hg
    exact ⟨trivial, by simpa [Expr.children] using ⟨hcond, hbody⟩⟩
  | brk => exact ⟨trivial, by simp [Expr.children]⟩

theorem LaidAll.located {f g : Frame} {es : List Expr} {c : Nat} (hf : f.scopes.chain ≠ [])
    (hr : f.Regular) (h : LaidAll f es g) (hg : g.vars.size ≤ c) :
    ∀ e ∈ es, e.Everywhere (Expr.Located c) := by
  cases h with
  | nil => simp
  | cons he hes =>
    have hgrows := he.grows hf
    have hgrows' := hes.grows hgrows.scopes.ne_nil
    exact List.forall_mem_cons.2 ⟨he.located hf hr (Nat.le_trans hgrows'.size_le hg),
      hes.located hgrows.scopes.ne_nil (hgrows.regular hr) hg⟩

theorem LaidOpt.located {f g : Frame} {e : Option Expr} {c : Nat} (hf : f.scopes.chain ≠ [])
    (hr : f.Regular) (h : LaidOpt f e g) (hg : g.vars.size ≤ c) :
    ∀ x ∈ e.toList, x.Everywhere (Expr.Located c) := by
  cases h with
  | none => simp
  | some h => simpa using h.located hf hr hg

end

mutual

/-- If nothing is reported about the types of an expression, its literals have types. -/
theorem Expr.literalTyped_of_clean {table : DeclTable} {e : Expr}
    (h : (e.resolveTypes table).report = []) :
    (e.resolveTypes table).value.Everywhere Expr.LiteralTyped := by
  rw [Expr.everywhere_iff]
  cases e with
  | literal n text constant =>
    simp only [Expr.resolveTypes] at *
    split at h
    · rename_i t ht
      exact ⟨ht, by simp [Expr.children]⟩
    · cases h
  | var | brk => exact ⟨trivial, by simp [Expr.resolveTypes, Expr.children]⟩
  | call n callee arguments =>
    simp only [Expr.resolveTypes, List.append_eq_nil_iff] at h ⊢
    exact ⟨trivial, literalTyped_all_of_clean h.1⟩
  | block n body result =>
    simp only [Expr.resolveTypes, List.append_eq_nil_iff] at h ⊢
    exact ⟨trivial, List.forall_mem_append.2
      ⟨literalTyped_all_of_clean h.1, literalTyped_opt_of_clean h.2⟩⟩
  | bind n ident type value =>
    simp only [Expr.resolveTypes, List.append_eq_nil_iff] at h ⊢
    exact ⟨trivial, by simpa [Expr.children] using Expr.literalTyped_of_clean h.2⟩
  | assign n target value =>
    have hv := Expr.literalTyped_of_clean (e := value) h
    exact ⟨trivial, by simpa [Expr.resolveTypes, Expr.children] using hv⟩
  | binary n op left right =>
    simp only [Expr.resolveTypes, List.append_eq_nil_iff] at h ⊢
    exact ⟨trivial, by simpa [Expr.children] using
      ⟨Expr.literalTyped_of_clean h.1, Expr.literalTyped_of_clean h.2⟩⟩
  | unary n op operand =>
    have hv := Expr.literalTyped_of_clean (e := operand) h
    exact ⟨trivial, by simpa [Expr.resolveTypes, Expr.children] using hv⟩
  | group n inner =>
    have hv := Expr.literalTyped_of_clean (e := inner) h
    exact ⟨trivial, by simpa [Expr.resolveTypes, Expr.children] using hv⟩
  | branch n condition onTrue onFalse =>
    simp only [Expr.resolveTypes, List.append_eq_nil_iff] at h ⊢
    exact ⟨trivial, List.forall_mem_cons.2 ⟨Expr.literalTyped_of_clean h.1.1,
      List.forall_mem_cons.2 ⟨Expr.literalTyped_of_clean h.1.2, literalTyped_opt_of_clean h.2⟩⟩⟩
  | ret n value =>
    have hv := Expr.literalTyped_of_clean (e := value) h
    exact ⟨trivial, by simpa [Expr.resolveTypes, Expr.children] using hv⟩
  | loop n condition body =>
    simp only [Expr.resolveTypes, List.append_eq_nil_iff] at h ⊢
    exact ⟨trivial, by simpa [Expr.children] using
      ⟨Expr.literalTyped_of_clean h.1, Expr.literalTyped_of_clean h.2⟩⟩

theorem literalTyped_all_of_clean {table : DeclTable} {es : List Expr}
    (h : (resolveTypesAll table es).report = []) :
    ∀ e ∈ (resolveTypesAll table es).value, e.Everywhere Expr.LiteralTyped := by
  cases es with
  | nil => simp [resolveTypesAll]
  | cons e es =>
    simp only [resolveTypesAll, List.append_eq_nil_iff, List.forall_mem_cons] at h ⊢
    exact ⟨Expr.literalTyped_of_clean h.1, literalTyped_all_of_clean h.2⟩

theorem literalTyped_opt_of_clean {table : DeclTable} {e : Option Expr}
    (h : (resolveTypesOpt table e).report = []) :
    ∀ x ∈ (resolveTypesOpt table e).value.toList, x.Everywhere Expr.LiteralTyped := by
  cases e with
  | none => simp [resolveTypesOpt]
  | some e => simpa [resolveTypesOpt] using Expr.literalTyped_of_clean h

end

mutual

/-- If the type rules report nothing, each `break` stands in a loop. -/
theorem Expr.enclosed_of_check {table : DeclTable} {returns : Ty} {depth : Nat} {q : Prop}
    (hq : 0 < depth → q) {e : Expr} (h : e.check table returns depth = []) : e.Enclosed q := by
  cases e with
  | literal | var => exact trivial
  | call n callee arguments =>
    simp only [Expr.check, List.append_eq_nil_iff] at h
    exact enclosedAll_of_check hq h.1
  | block n body result =>
    simp only [Expr.check, List.append_eq_nil_iff] at h
    exact ⟨enclosedAll_of_check hq h.1, enclosedOpt_of_check hq h.2⟩
  | bind n ident type value =>
    simp only [Expr.check, List.append_eq_nil_iff] at h
    exact Expr.enclosed_of_check (e := value) hq h.1
  | assign n target value =>
    simp only [Expr.check, List.append_eq_nil_iff] at h
    exact Expr.enclosed_of_check (e := value) hq h.1.1
  | binary n op left right =>
    simp only [Expr.check, List.append_eq_nil_iff] at h
    exact ⟨Expr.enclosed_of_check hq h.1.2, Expr.enclosed_of_check hq h.2⟩
  | unary n op operand =>
    simp only [Expr.check, List.append_eq_nil_iff] at h
    exact Expr.enclosed_of_check (e := operand) hq h.2
  | group n inner => exact Expr.enclosed_of_check (e := inner) hq h
  | branch n condition onTrue onFalse =>
    simp only [Expr.check, List.append_eq_nil_iff] at h
    exact ⟨Expr.enclosed_of_check hq h.1.1.1.1, Expr.enclosed_of_check hq h.1.1.2,
      enclosedOpt_of_check hq h.1.2⟩
  | ret n value =>
    simp only [Expr.check, List.append_eq_nil_iff] at h
    exact Expr.enclosed_of_check (e := value) hq h.1
  | loop n condition body =>
    simp only [Expr.check, List.append_eq_nil_iff] at h
    exact ⟨Expr.enclosed_of_check (fun _ => trivial) h.1.1,
      Expr.enclosed_of_check (fun _ => trivial) h.2⟩
  | brk n =>
    simp only [Expr.check] at h
    split at h
    · cases h
    · exact hq (by omega)

theorem enclosedAll_of_check {table : DeclTable} {returns : Ty} {depth : Nat} {q : Prop}
    (hq : 0 < depth → q) {es : List Expr} (h : checkAll table returns depth es = []) :
    enclosedAll q es := by
  cases es with
  | nil => exact trivial
  | cons e es =>
    simp only [checkAll, List.append_eq_nil_iff] at h
    exact ⟨Expr.enclosed_of_check hq h.1, enclosedAll_of_check hq h.2⟩

theorem enclosedOpt_of_check {table : DeclTable} {returns : Ty} {depth : Nat} {q : Prop}
    (hq : 0 < depth → q) {e : Option Expr} (h : checkOpt table returns depth e = []) :
    enclosedOpt q e := by
  cases e with
  | none => exact trivial
  | some e => exact Expr.enclosed_of_check (e := e) hq h

end

mutual

theorem Expr.enclosed_strip {q : Prop} (k : Keep) (e : Expr) :
    (e.strip k).Enclosed q ↔ e.Enclosed q := by
  cases e <;> simp [Expr.strip, Expr.Enclosed, Expr.enclosed_strip, enclosedAll_strip, enclosedOpt_strip]

theorem enclosedAll_strip {q : Prop} (k : Keep) (es : List Expr) :
    enclosedAll q (stripAll k es) ↔ enclosedAll q es := by
  cases es <;> simp [stripAll, enclosedAll, Expr.enclosed_strip, enclosedAll_strip]

theorem enclosedOpt_strip {q : Prop} (k : Keep) (e : Option Expr) :
    enclosedOpt q (stripOpt k e) ↔ enclosedOpt q e := by
  cases e <;> simp [stripOpt, enclosedOpt, Expr.enclosed_strip]

end

theorem LaidParams.located {f g : Frame} {ps : List Param} {c : Nat} (hf : f.scopes.chain ≠ [])
    (h : LaidParams f ps g) (hg : g.vars.size ≤ c) :
    ∀ p ∈ ps, ∃ k < c, p.ident.slot = some k := by
  induction h with
  | nil => simp
  | cons hk hs hps ih =>
    have hgrows := Frame.grows_register hf hk
    have hsize := (hps.grows hgrows.scopes.ne_nil).size_le
    obtain ⟨-, rfl, -, -, v, -, hvars⟩ := Frame.register_eq_ok hk
    rw [hvars, Array.size_push] at hsize
    exact List.forall_mem_cons.2 ⟨⟨_, by omega, hs⟩, ih hgrows.scopes.ne_nil hg⟩

/-- The names in a function that was placed have variables of its frame. -/
theorem Function.LaidIn.located {f : Function} {frame : Frame} (h : f.LaidIn frame) :
    (∀ p ∈ f.params, ∃ k < frame.vars.size, p.ident.slot = some k) ∧
      f.body.Everywhere (Expr.Located frame.vars.size) := by
  obtain ⟨g, g', hps, hbody, rfl⟩ := h.laid
  have hstart := Frame.start_ne_nil f.ident.name
  have hgrows := hps.grows hstart
  have hgrows' := hbody.grows hgrows.scopes.ne_nil
  have hregular := hgrows.regular (Frame.start_regular f.ident.name)
  exact ⟨hps.located hstart hgrows'.size_le,
    hbody.located hgrows.scopes.ne_nil hregular (Nat.le_refl _)⟩

/-- A function that was placed is ready if its literals have types and its breaks loops. -/
theorem Function.LaidIn.ready {f : Function} {frame : Frame} (h : f.LaidIn frame)
    (hl : f.body.Everywhere Expr.LiteralTyped) (hb : f.body.Enclosed False) : f.Ready frame := by
  obtain ⟨hparams, hbody⟩ := h.located
  exact ⟨hparams, fun x hx => ⟨hl x hx, hbody x hx⟩, hb⟩

/-! ## Programs -/

theorem Expr.literalTyped_strip (e : Expr) :
    (e.strip .allButPlaces).LiteralTyped ↔ e.LiteralTyped := by
  cases e <;> exact Iff.rfl

theorem Expr.small_strip (k : Keep) (e : Expr) : (e.strip k).Small ↔ e.Small := by
  cases e <;> simp [Expr.strip, Expr.Small, stripAll_eq_map]

theorem Function.small_bare (f : Function) : f.bare.Small ↔ f.Small := by
  simp [Function.Small, Function.bare, Function.strip, Expr.everywhere_strip (Expr.small_strip _)]

/-- The functions that analysis makes, if it reports nothing. -/
theorem Program.typed_of_clean {p : Program} (h : p.analyze.report = []) :
    ∀ f ∈ p.analyze.program.functions,
      f.body.Everywhere Expr.LiteralTyped ∧ f.body.Enclosed False := by
  simp only [Program.analyze, Analysis.report, List.append_eq_nil_iff] at h
  obtain ⟨⟨-, ht⟩, hk⟩ := h
  intro f hf
  have hfk := List.flatMap_eq_nil_iff.1 hk f hf
  simp only [Program.resolveTypes, List.append_eq_nil_iff] at ht
  simp only [Program.analyze, Program.resolveTypes, List.map_map, List.mem_map] at hf
  obtain ⟨g, hg, rfl⟩ := hf
  have hgt := List.flatMap_eq_nil_iff.1 ht.2 _ (List.mem_map_of_mem hg)
  simp only [Function.check, Function.resolveTypes, List.append_eq_nil_iff] at hgt hfk
  exact ⟨Expr.literalTyped_of_clean hgt.2,
    Expr.enclosed_of_check (fun hlt => absurd hlt (Nat.lt_irrefl 0)) hfk.1⟩

/-- Placement makes the functions ready. -/
theorem Program.ready_of_clean {p : Program} (h : p.analyze.report = []) :
    List.Forall₂ Function.Ready (placeFunctions {} p.analyze.program.functions).functions
      (placeFunctions {} p.analyze.program.functions).frames := by
  have hlaid := laid_placeFunctions (p.placed_of_clean h)
  have hstrip := placeFunctions_strip {} p.analyze.program.functions
  have htyped : ∀ g ∈ (placeFunctions {} p.analyze.program.functions).functions,
      g.body.Everywhere Expr.LiteralTyped ∧ g.body.Enclosed False := by
    intro g hg
    obtain ⟨f, hf, hfg⟩ := List.mem_map.1 (hstrip ▸ List.mem_map_of_mem hg)
    have hbody : f.body.strip .allButPlaces = g.body.strip .allButPlaces :=
      congrArg Function.body hfg
    obtain ⟨hl, hb⟩ := p.typed_of_clean h f hf
    rw [← Expr.everywhere_strip Expr.literalTyped_strip, ← Expr.enclosed_strip .allButPlaces] at *
    exact ⟨hbody ▸ hl, hbody ▸ hb⟩
  exact ((List.forall₂_and_left _ _).2 ⟨htyped, hlaid⟩).imp fun _ _ hg => hg.2.ready hg.1.1 hg.1.2

/-- Code can be made for a program as far as the generator goes: the entry point is there if it must
be, and nothing is beyond the limits. -/
structure Program.Codable (p : Program) (options : GenOptions) : Prop where
  entry : options.requireEntryPoint = false ∨ ∃ f ∈ p.functions, f.ident.name = options.entryPoint
  params : ∀ f ∈ p.functions, f.params.length ≤ 6
  arguments : ∀ f ∈ p.functions, ∀ n callee arguments,
    (Expr.call n callee arguments).Inside f.body → arguments.length ≤ 6
  literals : ∀ f ∈ p.functions, ∀ n text constant,
    (Expr.literal n text constant).Inside f.body → Literal.type? text ≠ some .float

theorem Program.codable_iff {p : Program} {options : GenOptions} :
    p.Codable options ↔ (options.requireEntryPoint = false ∨
      ∃ f ∈ p.functions, f.ident.name = options.entryPoint) ∧ ∀ f ∈ p.functions, f.Small := by
  constructor
  · intro h
    refine ⟨h.entry, fun f hf => ⟨h.params f hf, ?_⟩⟩
    intro x hx
    cases x with
    | literal n text constant => exact h.literals f hf n text constant hx
    | call n callee arguments => exact h.arguments f hf n callee arguments hx
    | _ => exact trivial
  · rintro ⟨hentry, hsmall⟩
    exact ⟨hentry, fun f hf => (hsmall f hf).1, fun f hf n callee arguments hx => (hsmall f hf).2 _ hx,
      fun f hf n text constant hx => (hsmall f hf).2 _ hx⟩

/-- Whether functions are within the limits does not depend on their notes. -/
theorem forall_small_of_bare_eq {fs gs : List Function}
    (h : fs.map Function.bare = gs.map Function.bare) :
    (∀ f ∈ fs, f.Small) ↔ ∀ g ∈ gs, g.Small := by
  have hbare : ∀ hs : List Function, (∀ f ∈ hs, f.Small) ↔ ∀ g ∈ hs.map Function.bare, g.Small := by
    intro hs
    simp [Function.small_bare]
  rw [hbare fs, h, ← hbare gs]

theorem names_of_bare_eq {fs gs : List Function}
    (h : fs.map Function.bare = gs.map Function.bare) :
    fs.map (·.ident.name) = gs.map (·.ident.name) := by
  have hnames := congrArg (List.map (·.ident.name)) h
  simpa [Function.comp_def, Function.strip, Keep.ident] using hnames

/-! ### The names of functions -/

/-- No function is found if and only if the names differ from each other and from earlier ones. -/
theorem firstRedeclared_eq_none_iff {earlier : List String} {fs : List Function} :
    firstRedeclared earlier fs = none ↔
      (fs.map (·.ident.name)).Nodup ∧ ∀ f ∈ fs, f.ident.name ∉ earlier := by
  induction fs generalizing earlier with
  | nil => simp [firstRedeclared]
  | cons f fs ih =>
    unfold firstRedeclared
    by_cases hf : f.ident.name ∈ earlier
    · simp [hf]
    · rw [if_neg hf, ih]
      simp only [List.map_cons, List.nodup_cons, List.mem_map, not_exists, not_and, List.mem_cons,
        not_or, forall_eq_or_imp]
      grind

/-- Functions that were declared without a report have different names. -/
theorem Function.nodup_of_declared {s : Names} {fs : List Function}
    (h : (resolveEach Function.declareName s fs).report = []) :
    (fs.map (·.ident.name)).Nodup ∧ ∀ f ∈ fs, s.scopes.innermost? f.ident.name = none := by
  induction fs generalizing s with
  | nil => simp
  | cons f fs ih =>
    simp only [resolveEach, List.append_eq_nil_iff] at h
    obtain ⟨hnew, hscopes⟩ := Names.declare_of_clean h.1
    obtain ⟨hnodup, hothers⟩ := ih h.2
    have hdiff : ∀ g ∈ fs, g.ident.name ≠ f.ident.name ∧ s.scopes.innermost? g.ident.name = none := by
      intro g hg
      have hg' := hothers g hg
      rw [show (f.declareName s).names.scopes = _ from hscopes, Scopes.innermost?_insert] at hg'
      split at hg'
      · cases hg'
      · exact ⟨‹_›, hg'⟩
    refine ⟨List.nodup_cons.2 ⟨?_, hnodup⟩, List.forall_mem_cons.2 ⟨hnew, fun g hg => (hdiff g hg).2⟩⟩
    intro hmem
    obtain ⟨g, hg, hname⟩ := List.mem_map.1 hmem
    exact (hdiff g hg).1 hname

theorem Program.nodup_of_clean {p : Program} (h : p.analyze.report = []) :
    (p.functions.map (·.ident.name)).Nodup := by
  simp only [Program.analyze, Analysis.report, Program.resolveNames, List.append_eq_nil_iff] at h
  exact (Function.nodup_of_declared h.1.1.1.2).1

/-! ### Constants -/

theorem Constants.entriesLines_ok {cs : List Constant} (h : ∀ c ∈ cs, c.ty = .string) :
    ∃ lines, entriesLines cs = .ok lines := by
  induction cs with
  | nil => exact ⟨[], rfl⟩
  | cons c cs ih =>
    simp only [List.forall_mem_cons] at h
    obtain ⟨lines, hlines⟩ := ih h.2
    exact ⟨_, by rw [entriesLines, entryLines, if_pos h.1, hlines]; rfl⟩

/-- All constants are strings. -/
def Constants.Strings (c : Constants) : Prop := ∀ x ∈ c.entries.toList, x.ty = .string

theorem Layout.kept_strings : Layout.Kept fun s => s.constants.Strings where
  enter _ h := h
  leave _ h := h
  register s ty i h := by
    unfold Layout.register
    split <;> exact h
  allocate s text h := by
    intro x hx
    simp only [Constants.allocate, Array.toList_push, List.mem_append, List.mem_singleton] at hx
    rcases hx with hx | rfl
    · exact h x hx
    · rfl

/-! ### The result -/

theorem Program.checkFunctions_limited {p : Program} (options : GenOptions)
    (h : (p.functions.map (·.ident.name)).Nodup) :
    Limited (options.requireEntryPoint = false ∨
      ∃ f ∈ p.functions, f.ident.name = options.entryPoint) (p.checkFunctions options) := by
  rw [Program.checkFunctions, firstRedeclared_eq_none_iff.2 ⟨h, by simp⟩]
  dsimp only
  split
  · rename_i hmissing
    simp only [Bool.and_eq_true, Bool.not_eq_true', List.any_eq_false, decide_eq_true_eq] at hmissing
    refine ⟨trivial, ?_⟩
    rintro (hreq | ⟨f, hf, hname⟩)
    · simp [hreq] at hmissing
    · exact hmissing.2 f hf hname
  · rename_i hpresent
    simp only [Bool.and_eq_true, Bool.not_eq_true', List.any_eq_false, decide_eq_true_eq] at hpresent
    by_cases hreq : options.requireEntryPoint = true
    · simp only [hreq, true_and, not_forall, not_not] at hpresent
      obtain ⟨f, hf, hname⟩ := hpresent
      exact .inr ⟨f, hf, hname⟩
    · exact .inl (by simpa using hreq)

theorem PlacedFunctions.assemble_limited {placed : PlacedFunctions} (options : GenOptions)
    (hready : List.Forall₂ Function.Ready placed.functions placed.frames)
    (hstrings : placed.constants.Strings) :
    Limited (∀ f ∈ placed.functions, f.Small) (placed.assemble options) := by
  have hzip : (∀ x ∈ placed.functions.zip placed.frames, x.1.Small) ↔
      ∀ f ∈ placed.functions, f.Small := by
    rw [← List.forall_mem_map (f := Prod.fst) (P := Function.Small),
      List.map_fst_zip (Nat.le_of_eq hready.length_eq)]
  have hcode := emitFunctions_limited (fun x hx => List.forall₂_zip hready hx)
    options.comments (placed.functions.map (·.ident.name)) {}
  obtain ⟨lines, hlines⟩ := Constants.entriesLines_ok hstrings
  rw [← propext hzip]
  unfold PlacedFunctions.assemble Constants.dataLines
  rw [hlines]
  cases hrun : emitFunctions options.comments (placed.functions.map (·.ident.name))
      (placed.functions.zip placed.frames) {} with
  | ok r =>
    rw [hrun] at hcode
    simp only [StateT.run, hrun]
    exact hcode
  | error e =>
    rw [hrun] at hcode
    simp only [StateT.run, hrun]
    exact hcode

theorem Program.generate_limited {p : Program} (options : GenOptions) (h : p.analyze.report = []) :
    Limited (p.Codable options) (p.analyze.program.generate options).result := by
  have hnames := names_of_bare_eq p.bare_analyze
  have hcheck := p.analyze.program.checkFunctions_limited options (hnames ▸ p.nodup_of_clean h)
  rw [propext Program.codable_iff, Program.generate]
  have hentry : (∃ f ∈ p.analyze.program.functions, f.ident.name = options.entryPoint) ↔
      ∃ f ∈ p.functions, f.ident.name = options.entryPoint := by
    rw [← List.mem_map, ← List.mem_map, hnames]
  rw [hentry] at hcheck
  cases hc : p.analyze.program.checkFunctions options with
  | error e =>
    rw [hc] at hcheck
    exact ⟨hcheck.1, fun hboth => hcheck.2 hboth.1⟩
  | ok u =>
    rw [hc] at hcheck
    simp only [p.placed_of_clean h]
    have hsmall := forall_small_of_bare_eq p.bare_placed
    refine (PlacedFunctions.assemble_limited options (p.ready_of_clean h)
      (placeFunctions_kept Layout.kept_strings (by simp [Constants.Strings]) _)).congr ?_
    rw [hsmall]
    exact (and_iff_right hcheck).symm

/-- If analysis reports nothing, code is made for the program if and only if it is within the limits
of the generator, and an error is always about such a limit. -/
theorem Program.generate_ok_iff (p : Program) (options : GenOptions) (h : p.analyze.report = []) :
    ((∃ assembly, (p.analyze.program.generate options).result = .ok assembly) ↔ p.Codable options) ∧
      ∀ e, (p.analyze.program.generate options).result = .error e → e.IsLimit := by
  have hlimited := p.generate_limited options h
  cases hr : (p.analyze.program.generate options).result with
  | ok assembly =>
    rw [hr] at hlimited
    exact ⟨iff_of_true ⟨assembly, rfl⟩ hlimited, by simp⟩
  | error e =>
    rw [hr] at hlimited
    exact ⟨iff_of_false (by simp) hlimited.2, by rintro _ ⟨⟩; exact hlimited.1⟩

/-- A function `main(go: bool): int { while go { let go: int = 1; break; } puts("go"); 0 }` and a
library function. -/
def Program.sample : Program :=
  let i (name : String) : Ident := { name, location := .unknown }
  let n : Node := { location := .unknown }
  let t (name : String) := TypeRef.ofName name .unknown
  let loop := Expr.loop n (.var n (i "go"))
    (.block n [.bind n (i "go") (t "int") (.literal n "1" none), .brk n] none)
  let body := Expr.block n [loop, .call n (i "puts") [.literal n "\"go\"" none]]
    (some (.literal n "0" none))
  { functions := [⟨i "main", t "int", [⟨i "go", t "bool"⟩], body, .unknown⟩]
    externals := [⟨i "puts", t "int", [⟨i "text", t "string"⟩], false, .unknown⟩] }

theorem Program.generate_ok_iff_sample :
    Program.sample.analyze.report = [] ∧
      ((∃ assembly, (Program.sample.analyze.program.generate {}).result = .ok assembly) ↔
        Program.sample.Codable {}) ∧
      ∀ e, (Program.sample.analyze.program.generate {}).result = .error e → e.IsLimit :=
  have h : Program.sample.analyze.report = [] := List.isEmpty_iff.1 (by decide +kernel)
  ⟨h, Program.generate_ok_iff _ {} h⟩

end Ilang
