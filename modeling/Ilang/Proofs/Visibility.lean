import Ilang.Proofs.Names
import Ilang.Proofs.Placement
import Ilang.Proofs.Trees
/-!
# What is visible to analysis and to placement

Name resolution and placement walk the same tree with scopes of their own. Their local scopes hold
the same names at every point (`Coupled`); beneath them resolution has the global scope, in which
there are functions only. So a name that analysis accepts as a variable has a place in the frame, a
name that it accepts as new is new in the frame, and placement of an analysed program that nothing
was reported about succeeds (`Program.placed_of_clean`).
-/
namespace Ilang

/-! ## Two chains of scopes -/

/-- The scopes of name resolution have the local names of a frame, and beneath them functions. -/
structure Coupled (table : DeclTable) (s t : Scopes Nat) : Prop where
  opened : t.chain ≠ []
  split : ∃ locals globals, s.chain = locals ++ [globals] ∧
    Scopes.Rel (fun _ _ => True) ⟨locals⟩ t ∧
    ∀ x ∈ globals, ∃ d : Declaration, table[x.2]? = some d ∧ d.isCallable

namespace Coupled

variable {table : DeclTable} {s t : Scopes Nat}

theorem push (h : Coupled table s t) : Coupled table s.push t.push := by
  obtain ⟨locals, globals, hs, hrel, hg⟩ := h.split
  exact ⟨List.cons_ne_nil _ _, [] :: locals, globals, by simp [Scopes.push, hs], hrel.push, hg⟩

theorem innermost (h : Coupled table s t) (name : String) :
    s.innermost? name = none ↔ t.innermost? name = none := by
  obtain ⟨locals, globals, hs, hrel, -⟩ := h.split
  obtain ⟨inner, outer, ht⟩ := List.exists_cons_of_ne_nil h.opened
  cases locals with
  | nil => obtain ⟨c⟩ := t; cases hrel; cases ht
  | cons scope scopes =>
    have he : s.innermost? name = (Scopes.mk (scope :: scopes)).innermost? name := by
      simp [Scopes.innermost?, hs]
    rw [he, ← Option.isNone_iff_eq_none, ← Option.isNone_iff_eq_none,
      Scopes.isNone_of_rel (hrel.innermost name)]

theorem insert (h : Coupled table s t) (name : String) (i k : Nat) :
    Coupled table (s.insert name i) (t.insert name k) := by
  obtain ⟨locals, globals, hs, hrel, hg⟩ := h.split
  refine ⟨(Scopes.grows_insert h.opened name k).ne_nil, ?_⟩
  cases locals with
  | nil => obtain ⟨c⟩ := t; cases hrel; exact absurd rfl h.opened
  | cons scope scopes =>
    refine ⟨((name, i) :: scope) :: scopes, globals, by simp [Scopes.insert, hs], ?_, hg⟩
    exact Scopes.Rel.insert hrel trivial

/-- A name that stands for no function is a local name. -/
theorem lookup (h : Coupled table s t) {name : String} {i : Nat} (hi : s.lookup name = some i)
    (hv : ∀ d : Declaration, table[i]? = some d → d.isCallable = false) :
    ∃ k, t.lookup name = some k := by
  obtain ⟨locals, globals, hs, hrel, hg⟩ := h.split
  have hr := Scopes.isNone_of_rel (hrel.lookup name)
  rw [Scopes.lookup, hs, List.findSome?_append] at hi
  cases hl : locals.findSome? (·.lookup name) with
  | some j =>
    rw [show (Scopes.mk locals).lookup name = some j from hl] at hr
    exact Option.isSome_iff_exists.1 (by rw [← Option.not_isNone, ← hr]; rfl)
  | none =>
    rw [hl] at hi
    have hlg : globals.lookup name = some i := by simpa using hi
    obtain ⟨l, r, hgl, -⟩ := List.lookup_eq_some_iff.1 hlg
    obtain ⟨d, hd, hc⟩ := hg (name, i) (by simp [hgl])
    rw [hv d hd] at hc
    cases hc

end Coupled

/-! ## Names that nothing is reported about -/

theorem Layout.bind_error_eq_none {l : Layout} {i : Ident} :
    (l.bind i).error = none ↔ (l.frame.scopes.lookup i.name).isSome := by
  unfold Layout.bind Frame.resolve
  cases l.frame.scopes.lookup i.name <;> simp

/-- A name that is accepted as a variable is bound by placement. -/
theorem Layout.bind_of_clean {table : DeclTable} {s : Names} {l : Layout}
    (hc : Coupled table s.scopes l.frame.scopes) {i : Ident} (hn : (s.refer i).report = [])
    (hv : table.checkValue (s.refer i).value = []) : (l.bind (s.refer i).value).error = none := by
  simp only [Names.refer] at hn hv ⊢
  cases hi : s.scopes.lookup i.name with
  | none => simp [hi] at hn
  | some index =>
    simp only [hi, DeclTable.checkValue, DeclTable.find, Option.bind_some] at hv
    obtain ⟨k, hk⟩ := hc.lookup hi fun d hd => by
      simp only [hd] at hv
      cases hcall : d.isCallable
      · rfl
      · simp [hcall] at hv
    simp [Layout.bind_error_eq_none, hk]

theorem Names.declare_of_clean {s : Names} {i : Ident} {kind : DeclKind} {ty : Ty}
    {signature : Option Signature} (h : (s.declare i kind ty signature).report = []) :
    s.scopes.innermost? i.name = none ∧
      (s.declare i kind ty signature).names.scopes = s.scopes.insert i.name s.table.size := by
  unfold Names.declare at *
  dsimp only at *
  rw [Scopes.declare_eq] at h ⊢
  cases hi : s.scopes.innermost? i.name with
  | none => exact ⟨rfl, rfl⟩
  | some existing => rw [hi] at h; cases h

/-- A name that is accepted as new gets its place. -/
theorem Layout.register_of_clean {table : DeclTable} {s : Names} {l : Layout}
    (hc : Coupled table s.scopes l.frame.scopes) {i : Ident} {kind : DeclKind} {ty t : Ty}
    {signature : Option Signature} (h : (s.declare i kind ty signature).report = []) :
    (l.register t (s.declare i kind ty signature).value).error = none ∧
      Coupled table (s.declare i kind ty signature).names.scopes
        (l.register t (s.declare i kind ty signature).value).layout.frame.scopes := by
  obtain ⟨hnew, hs⟩ := Names.declare_of_clean h
  have hnew' := (hc.innermost i.name).1 hnew
  rw [hs, Names.declare_value]
  simp only [Layout.register, Frame.register, Scopes.declare_eq, hnew']
  exact ⟨trivial, hc.insert _ _ _⟩

theorem Placed.andThen_of_clean {α β : Type} {p : Placed α} (second : β)
    (go : Layout → Placed β) (h : p.error = none) :
    p.andThen second go = (go p.layout).map (p.value, ·) := by
  simp [Placed.andThen, h]

/-! ## Expressions -/

/-- Placement goes through a piece to its end and sees the same names behind it. -/
structure Placed.Follows {α : Type} (p : Placed α) (table : DeclTable) (s : Names) : Prop where
  error : p.error = none
  coupled : Coupled table s.scopes p.layout.frame.scopes

namespace Placed.Follows

variable {α β : Type} {table : DeclTable} {s t : Names} {p : Placed α}

theorem map (hp : p.Follows table s) {f : α → β} : (p.map f).Follows table s :=
  ⟨hp.error, hp.coupled⟩

theorem andThen (hp : p.Follows table s) {second : β} {go : Layout → Placed β}
    (hgo : (go p.layout).Follows table t) : (p.andThen second go).Follows table t := by
  rw [Placed.andThen_of_clean second go hp.error]
  exact hgo.map

/-- At the end of a scope both see what they saw before it. -/
theorem leave (hp : p.Follows table t) {l : Layout} (hc : Coupled table s.scopes l.frame.scopes)
    (hs : s.enter.Grows t) (hl : l.frame.enter.Grows p.layout.frame) :
    p.leave.Follows table t.leave := by
  refine ⟨hp.error, ?_⟩
  have hf : p.leave.layout.frame.scopes = l.frame.scopes := Scopes.pop_eq_of_push_grows hl.scopes
  rw [hf, Names.leave_scopes hs]
  exact hc

end Placed.Follows

mutual

/-- If nothing is reported about the names and the types of an expression, placement goes through
it. -/
theorem Expr.place_follows {table : DeclTable} {returns : Ty} {depth : Nat} {s : Names} {l : Layout}
    (hc : Coupled table s.scopes l.frame.scopes) {e : Expr} (hn : (e.resolveNames s).report = [])
    (hk : ((e.resolveNames s).value.resolveTypes table).value.check table returns depth = []) :
    (((e.resolveNames s).value.resolveTypes table).value.place l).Follows table
      (e.resolveNames s).names := by
  cases e with
  | literal n text constant =>
    simp only [Expr.resolveNames, Expr.resolveTypes]
    split <;> simp only [Expr.place] <;> split <;> exact ⟨rfl, hc⟩
  | var n ident =>
    refine ⟨Layout.bind_of_clean hc hn hk, ?_⟩
    simp only [Expr.resolveNames, Expr.resolveTypes, Expr.place, Placed.map, Layout.bind_layout]
    exact hc
  | call n callee arguments =>
    simp only [Expr.resolveNames, Expr.resolveTypes, Expr.check, List.append_eq_nil_iff] at hn hk ⊢
    exact (placeAll_follows hc hn.2 hk.1).map
  | block n body result =>
    simp only [Expr.resolveNames, Expr.resolveTypes, Expr.check, List.append_eq_nil_iff] at hn hk ⊢
    have hb := placeAll_follows (l := l.enter) hc.push hn.1 hk.1
    have hr := placeOpt_follows hb.coupled hn.2 hk.2
    have hnames := resolveNamesAll_grows s.enter_ne_nil body
    have hframe := (laidAll_place hb.error).grows (List.cons_ne_nil _ _)
    refine Placed.Follows.map ((hb.andThen hr).leave hc
      (hnames.trans (resolveNamesOpt_grows hnames.scopes.ne_nil result)) ?_)
    rw [Placed.andThen_of_clean _ _ hb.error]
    exact hframe.trans ((laidOpt_place hr.error).grows hframe.scopes.ne_nil)
  | bind n ident type value =>
    simp only [Expr.resolveNames, Expr.resolveTypes, Expr.check, List.append_eq_nil_iff] at hn hk ⊢
    have hv := Expr.place_follows hc hn.1 hk.1
    obtain ⟨herror, hcoupled⟩ := Layout.register_of_clean hv.coupled (t := type.ty) hn.2
    exact (hv.andThen ⟨herror, hcoupled⟩).map
  | assign n target value =>
    simp only [Expr.resolveNames, Expr.resolveTypes, Expr.check, List.append_eq_nil_iff] at hn hk ⊢
    have hv := Expr.place_follows (l := l) hc hn.2 hk.1.1
    have hgrows := (Expr.laid_place hv.error).grows hc.opened
    have hbound := Layout.bind_error_eq_none.1 (Layout.bind_of_clean hc hn.1 hk.1.2)
    refine .map (.andThen hv ⟨Layout.bind_error_eq_none.2 (hgrows.scopes.lookup_isSome hbound), ?_⟩)
    rw [Layout.bind_layout]
    exact hv.coupled
  | binary n op left right =>
    simp only [Expr.resolveNames, Expr.resolveTypes, Expr.check, List.append_eq_nil_iff] at hn hk ⊢
    have hl := Expr.place_follows hc hn.1 hk.1.2
    exact (hl.andThen (Expr.place_follows hl.coupled hn.2 hk.2)).map
  | unary n op operand =>
    simp only [Expr.resolveNames, Expr.resolveTypes, Expr.check, List.append_eq_nil_iff] at hn hk ⊢
    exact (Expr.place_follows hc hn hk.2).map
  | group n inner => exact (Expr.place_follows (e := inner) hc hn hk).map
  | branch n condition onTrue onFalse =>
    simp only [Expr.resolveNames, Expr.resolveTypes, Expr.check, List.append_eq_nil_iff] at hn hk ⊢
    have hcond := Expr.place_follows hc hn.1.1 hk.1.1.1.1
    have ht := Expr.place_follows hcond.coupled hn.1.2 hk.1.1.2
    exact .map (.andThen (.andThen hcond ht)
      (placeOpt_follows (Placed.Follows.andThen hcond ht).coupled hn.2 hk.1.2))
  | ret n value =>
    simp only [Expr.resolveNames, Expr.resolveTypes, Expr.check, List.append_eq_nil_iff] at hn hk ⊢
    exact (Expr.place_follows hc hn hk.1).map
  | loop n condition body =>
    simp only [Expr.resolveNames, Expr.resolveTypes, Expr.check, List.append_eq_nil_iff] at hn hk ⊢
    have hcond := Expr.place_follows hc hn.1 hk.1.1
    exact (hcond.andThen (Expr.place_follows hcond.coupled hn.2 hk.2)).map
  | brk n => exact ⟨rfl, hc⟩

theorem placeAll_follows {table : DeclTable} {returns : Ty} {depth : Nat} {s : Names} {l : Layout}
    (hc : Coupled table s.scopes l.frame.scopes) {es : List Expr}
    (hn : (resolveNamesAll s es).report = [])
    (hk : checkAll table returns depth (resolveTypesAll table (resolveNamesAll s es).value).value = []) :
    (placeAll l (resolveTypesAll table (resolveNamesAll s es).value).value).Follows table
      (resolveNamesAll s es).names := by
  cases es with
  | nil => exact ⟨rfl, hc⟩
  | cons e es =>
    simp only [resolveNamesAll, resolveTypesAll, checkAll, List.append_eq_nil_iff] at hn hk ⊢
    have he := Expr.place_follows hc hn.1 hk.1
    exact (he.andThen (placeAll_follows he.coupled hn.2 hk.2)).map

theorem placeOpt_follows {table : DeclTable} {returns : Ty} {depth : Nat} {s : Names} {l : Layout}
    (hc : Coupled table s.scopes l.frame.scopes) {e : Option Expr}
    (hn : (resolveNamesOpt s e).report = [])
    (hk : checkOpt table returns depth (resolveTypesOpt table (resolveNamesOpt s e).value).value = []) :
    (placeOpt l (resolveTypesOpt table (resolveNamesOpt s e).value).value).Follows table
      (resolveNamesOpt s e).names := by
  cases e with
  | none => exact ⟨rfl, hc⟩
  | some e =>
    exact (Expr.place_follows hc hn hk).map

end

/-! ## Functions -/

theorem placeParams_follows {table : DeclTable} {s : Names} {l : Layout}
    (hc : Coupled table s.scopes l.frame.scopes) {ps : List Param}
    (hn : (resolveEach Param.resolveNames s ps).report = []) :
    (placeParams l (resolveEach Param.resolveNames s ps).value).Follows table
      (resolveEach Param.resolveNames s ps).names := by
  induction ps generalizing s l with
  | nil => exact ⟨rfl, hc⟩
  | cons p ps ih =>
    simp only [resolveEach, List.append_eq_nil_iff] at hn ⊢
    obtain ⟨herror, hcoupled⟩ := Layout.register_of_clean hc (t := p.type.ty) hn.1
    exact .map (.andThen ⟨herror, hcoupled⟩ (ih hcoupled hn.2))

namespace Names

/-- Only the global scope is open, and it holds functions only. -/
def Global (s : Names) : Prop :=
  ∃ globals, s.scopes.chain = [globals] ∧
    ∀ x ∈ globals, ∃ d : Declaration, s.table[x.2]? = some d ∧ d.isCallable

theorem Global.ne_nil {s : Names} (h : s.Global) : s.scopes.chain ≠ [] := by
  obtain ⟨globals, hs, -⟩ := h
  simp [hs]

theorem Global.of_scopes_eq {s t : Names} (h : s.Global) (hscopes : t.scopes = s.scopes)
    (htable : t.table.Extends s.table) : t.Global := by
  obtain ⟨globals, hs, hg⟩ := h
  refine ⟨globals, hscopes ▸ hs, ?_⟩
  intro x hx
  obtain ⟨d, hd, hcall⟩ := hg x hx
  exact ⟨d, htable _ _ hd, hcall⟩

theorem Global.leave {s t : Names} (h : s.Global) (ht : s.enter.Grows t) : t.leave.Global :=
  h.of_scopes_eq (leave_scopes ht) ht.table

theorem Global.declare {s : Names} (h : s.Global) (i : Ident) {kind : DeclKind}
    (hkind : kind = .function ∨ kind = .external) (ty : Ty) (signature : Option Signature) :
    (s.declare i kind ty signature).names.Global := by
  have htable := (declare_grows h.ne_nil i kind ty signature).table
  cases hi : s.scopes.innermost? i.name with
  | some existing =>
    refine h.of_scopes_eq ?_ htable
    simp [Names.declare, Scopes.declare_eq, hi]
  | none =>
    obtain ⟨globals, hs, hg⟩ := h
    refine ⟨(i.name, s.table.size) :: globals, ?_, ?_⟩
    · simp [Names.declare, Scopes.declare_eq, hi, Scopes.insert, hs]
    · intro x hx
      rcases List.mem_cons.1 hx with rfl | hx
      · refine ⟨⟨i.name, kind, ty, i.location, signature⟩, by simp [declare_table], ?_⟩
        rcases hkind with rfl | rfl <;> rfl
      · obtain ⟨d, hd, hcall⟩ := hg x hx
        exact ⟨d, htable _ _ hd, hcall⟩

/-- The start of a function: the scopes of resolution and those of the new frame. -/
theorem Global.coupled {s : Names} (h : s.Global) {table : DeclTable}
    (htable : table.Extends s.table) (function : String) :
    Coupled table s.enter.scopes (Frame.start function).scopes := by
  obtain ⟨globals, hs, hg⟩ := h
  refine ⟨List.cons_ne_nil _ _, [[]], globals, ?_, ?_, ?_⟩
  · simp [Names.enter, Scopes.push, hs]
  · exact .cons .nil .nil
  · intro x hx
    obtain ⟨d, hd, hcall⟩ := hg x hx
    exact ⟨d, htable _ _ hd, hcall⟩

end Names

theorem External.resolveNames_global {s : Names} (h : s.Global) (e : External) :
    (e.resolveNames s).names.Global := by
  have hi := h.declare e.ident (.inr rfl) e.returns.ty (some (signatureOf e.params e.variadic))
  exact hi.leave (resolveEach_grows Param.resolveNames_grows (Names.enter_ne_nil _) e.params)

theorem Function.declareName_global {s : Names} (h : s.Global) (f : Function) :
    (f.declareName s).names.Global :=
  h.declare f.ident (.inl rfl) f.returns.ty _

theorem Function.resolveInside_global {s : Names} (h : s.Global) (f : Function) :
    (f.resolveInside s).names.Global := by
  have hps := resolveEach_grows Param.resolveNames_grows s.enter_ne_nil f.params
  exact h.leave (hps.trans (Expr.resolveNames_grows hps.scopes.ne_nil f.body))

/-- What each part of a list keeps holds behind the list. -/
theorem resolveEach_global {α : Type} {resolve : Names → α → Resolved α}
    (hr : ∀ {s : Names}, s.Global → ∀ a, (resolve s a).names.Global) {s : Names} (h : s.Global)
    (as : List α) : (resolveEach resolve s as).names.Global := by
  induction as generalizing s with
  | nil => exact h
  | cons a as ih => exact ih (hr h a)

/-- If nothing is reported about the names and types inside a function, placement goes through it. -/
theorem Function.place_error_of_clean {table : DeclTable} {s : Names} (h : s.Global)
    (htable : table.Extends s.table) {f : Function} (hn : (f.resolveInside s).report = [])
    (hk : ((f.resolveInside s).value.resolveTypes table).value.check table = [])
    (constants : Constants) :
    (((f.resolveInside s).value.resolveTypes table).value.place constants).error = none := by
  simp only [Function.resolveInside, Function.resolveTypes, Function.check,
    List.append_eq_nil_iff] at hn hk ⊢
  have hps := placeParams_follows (l := ⟨.start f.ident.name, constants⟩)
    (h.coupled htable f.ident.name) hn.1
  exact (Placed.Follows.andThen hps (Expr.place_follows hps.coupled hn.2 hk.1)).error

/-- The functions that name resolution goes through one after another, if nothing is reported. -/
theorem resolveEach_inside {s : Names} (h : s.Global) {fs : List Function}
    (hn : (resolveEach Function.resolveInside s fs).report = []) :
    ∀ g ∈ (resolveEach Function.resolveInside s fs).value, ∃ (t : Names) (f : Function), t.Global ∧
      (resolveEach Function.resolveInside s fs).names.table.Extends t.table ∧
      g = (f.resolveInside t).value ∧ (f.resolveInside t).report = [] := by
  induction fs generalizing s with
  | nil => simp [resolveEach]
  | cons f fs ih =>
    simp only [resolveEach, List.append_eq_nil_iff] at hn ⊢
    intro g hg
    have hglobal := Function.resolveInside_global h f
    rcases List.mem_cons.1 hg with rfl | hg
    · have hgrows := (Function.resolveInside_grows h.ne_nil f).trans
        (resolveEach_grows Function.resolveInside_grows hglobal.ne_nil fs)
      exact ⟨s, f, h, hgrows.table, rfl, hn.1⟩
    · exact ih hglobal hn.2 g hg

theorem placeFunctions_stopped {fs : List Function} (constants : Constants)
    (h : ∀ f ∈ fs, ∀ constants, (f.place constants).error = none) :
    (placeFunctions constants fs).stopped = none := by
  induction fs generalizing constants with
  | nil => rfl
  | cons f fs ih =>
    simp only [placeFunctions, h f (List.mem_cons_self ..)]
    exact ih _ fun g hg => h g (List.mem_cons_of_mem _ hg)

/-- Placement goes through a program that analysis reports nothing about. -/
theorem Program.placed_of_clean {p : Program} (h : p.analyze.report = []) :
    (placeFunctions {} p.analyze.program.functions).stopped = none := by
  simp only [Program.analyze, Analysis.report, List.append_eq_nil_iff] at h
  obtain ⟨⟨hn, -⟩, hk⟩ := h
  simp only [Program.resolveNames, List.append_eq_nil_iff] at hn
  have hglobal : Names.Global ({} : Names).enter := ⟨[], rfl, by simp⟩
  have hes := resolveEach_global External.resolveNames_global hglobal p.externals
  have hfs := resolveEach_global Function.declareName_global hes p.functions
  refine placeFunctions_stopped _ ?_
  intro g hg constants
  have hgk := List.flatMap_eq_nil_iff.1 hk g hg
  simp only [Program.analyze, Program.resolveTypes, List.map_map, List.mem_map] at hg
  obtain ⟨f', hf', rfl⟩ := hg
  obtain ⟨t, f, ht, htable, rfl, hf⟩ := resolveEach_inside hfs hn.2 f' hf'
  exact Function.place_error_of_clean ht htable hf hgk constants

end Ilang
