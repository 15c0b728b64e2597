import Ilang.Proofs.References
import Ilang.Proofs.Slots
import Ilang.Proofs.Translation
/-!
# Name resolution and placement agree

Both passes are lexical scoping and meet the declarations of a function in the same order, so the
variable of a name in the frame and its declaration in the table go together
(`Function.denotes_of_recorded`). What a call stands for is in the table too: if analysis reports
nothing, the name of a function or of an external one, and no function has the name of an external
one (`Program.callee_of_clean`).
-/
namespace Ilang

/-! ## Variables -/

/-- The name of a variable that an expression declares or uses itself. -/
def Expr.variable? : Expr → Option Ident
  | .var _ ident | .bind _ ident _ _ | .assign _ ident _ => some ident
  | _ => none

/-- The names of the parameters and variables of a function, wherever they occur. -/
def Function.variables (f : Function) : List Ident :=
  f.params.map (·.ident) ++ (f.body.nodes .written).filterMap Expr.variable?

/-- A name stands for a variable of a frame and for its declaration, which has the number of the
variable behind `base` others. -/
def Ident.Denotes (table : DeclTable) (frame : Frame) (base : Nat) (i : Ident) : Prop :=
  ∃ k d v, i.slot = some k ∧ i.binding = some (base + k) ∧ table[base + k]? = some d ∧
    frame.vars[k]? = some v ∧ d.name = i.name ∧ v.name = i.name ∧ d.ty = v.ty

/-- The variables of a function are mentioned, or declared, as such. -/
theorem Function.mention_of_variable {f : Function} {i : Ident} (hi : i ∈ f.variables)
    (globals : List Ident) :
    ∃ x ∈ f.mentions globals, x.ident = i ∧ (x.use = .var ∨ x.declaration?.isSome) := by
  rcases List.mem_append.1 hi with hi | hi
  · obtain ⟨p, hp, rfl⟩ := List.mem_map.1 hi
    obtain ⟨l, r, hlr⟩ := List.append_of_mem hp
    exact ⟨_, List.mem_append_left _ (mem_mentionsInTurn.2 ⟨l, p, r, hlr,
      List.mem_singleton_self _⟩), rfl, .inr rfl⟩
  · obtain ⟨e, he, hvariable⟩ := List.mem_filterMap.1 hi
    have hnamed : ∃ use, e.named? = some (i, use) ∧
        (use = .var ∨ ∃ kind ty signature, use = .declares kind ty signature) := by
      cases e with
      | var | bind | assign => cases hvariable; simp [Expr.named?]
      | _ => cases hvariable
    obtain ⟨use, hnamed, huse⟩ := hnamed
    obtain ⟨x, hx, hident, hxuse⟩ := Expr.exists_mention (Expr.mem_nodes.1 he) hnamed
      [f.params.map (·.ident), globals]
    refine ⟨x, List.mem_append_right _ hx, hident, ?_⟩
    rcases huse with rfl | ⟨kind, ty, signature, rfl⟩
    · exact .inl hxuse
    · exact .inr (by simp [Mention.declaration?, hxuse])

theorem Mention.name_eq_of_declaration? {x : Mention} {d : Declaration}
    (h : x.declaration? = some d) : d.name = x.ident.name := by
  unfold declaration? at h
  split at h
  · cases h
  · cases h
  · cases h; rfl

theorem Mention.ident_eq_of_declared? {x : Mention} {i : Ident} (h : x.declared? = some i) :
    ∃ d, x.declaration? = some d ∧ x.ident = i := by
  obtain ⟨d, hd, hi⟩ := Option.map_eq_some_iff.1 h
  exact ⟨d, hd, hi⟩

/-- A declaration has its own entry. -/
theorem Recorded.find_own {earlier table : DeclTable} {report : Report} {xs : List Mention}
    (h : Recorded earlier table report xs) {x : Mention} (hx : x ∈ xs) {d : Declaration}
    (hd : x.declaration? = some d) : table.find x.ident.binding = some d := by
  obtain ⟨l, r, rfl⟩ := List.append_of_mem hx
  rw [noted_at h.own hd, DeclTable.find, Option.bind_some, ← Array.getElem?_toList, h.table,
    List.getElem?_append_right (by simp)]
  simp [List.filterMap_append, List.filterMap_cons_some hd]

section
variable {f : Function} {globals : List Ident} {earlier table : DeclTable} {report : Report}
  {frame : Frame}

/-- What a function declares denotes a variable. -/
theorem Function.denotes_own (hr : Recorded earlier table report (f.mentions globals))
    (hs : Slotted [globals] (.start f.ident.name) frame (f.mentions globals)) {y : Mention}
    (hy : y ∈ f.mentions globals) {d : Declaration} (hd : y.declaration? = some d) :
    y.ident.Denotes table frame earlier.size := by
  have hfind := hr.find_own hy hd
  obtain ⟨l, r, hlr⟩ := List.append_of_mem hy
  rw [hlr] at hr hs
  have hbinding := noted_at hr.own hd
  have hslot := noted_at hs.own hd
  have hsize : (Frame.start f.ident.name).vars = #[] := rfl
  rw [hsize, Array.size_empty, Nat.zero_add] at hslot
  rw [hbinding] at hfind
  -- The variable is found behind those that were declared before it.
  have hvar := congrArg (fun vs => vs[(l.filterMap Mention.declaration?).length]?) hs.vars
  simp [hsize, List.filterMap_append, List.filterMap_cons_some hd] at hvar
  obtain ⟨v, hv, hname, hty⟩ := hvar
  have hident := Mention.name_eq_of_declaration? hd
  exact ⟨_, d, v, hslot, hbinding, hfind, hv, hident, hname.trans hident, hty.symm⟩

/-- The variables of a function denote what they should. -/
theorem Function.denotes_of_recorded (hr : Recorded earlier table report (f.mentions globals))
    (hs : Slotted [globals] (.start f.ident.name) frame (f.mentions globals)) :
    ∀ i ∈ f.variables, i.Denotes table frame earlier.size := by
  intro i hi
  obtain ⟨x, hx, rfl, huse⟩ := f.mention_of_variable hi globals
  rcases huse with huse | hdeclared
  · -- A use has the notes of the declaration that it means, and that is one of the function.
    obtain ⟨locals, j, k, haround, hmeaning, hj, hxk⟩ := hs.used x hx huse
    obtain ⟨locals', haround', hlocals⟩ := Function.exists_locals hx
    obtain rfl : locals' = locals := List.append_cancel_right (haround'.symm.trans haround)
    obtain ⟨scope, hscope, hfirst⟩ := List.exists_of_findSome?_eq_some hmeaning
    obtain ⟨y, hy, hyj⟩ := hlocals scope hscope j (List.mem_of_find?_eq_some hfirst)
    obtain ⟨d, hd, rfl⟩ := Mention.ident_eq_of_declared? hyj
    have hname : y.ident.name = x.ident.name := by simpa using List.find?_some hfirst
    have hbound : x.ident.binding = y.ident.binding := by
      rw [hr.bound x hx (by simp [Mention.declaration?, huse]), Mention.meaning, haround, meaningOf,
        List.findSome?_append, show locals'.findSome? _ = some y.ident from hmeaning]
      rfl
    obtain ⟨k', d', v, hslot, hbinding, hd', hv, hdname, hvname, hty⟩ := denotes_own hr hs hy hd
    have hslot' : x.ident.slot = y.ident.slot := hxk.trans hj.symm
    exact ⟨k', d', v, hslot'.trans hslot, hbound.trans hbinding, hd', hv, hdname.trans hname,
      hvname.trans hname, hty⟩
  · obtain ⟨d, hd⟩ := Option.isSome_iff_exists.1 hdeclared
    exact denotes_own hr hs hx hd

/-- Two names that denote variables of one frame have the same declaration if and only if they have
the same variable. -/
theorem Ident.Denotes.binding_eq_iff {base : Nat} {i j : Ident} (hi : i.Denotes table frame base)
    (hj : j.Denotes table frame base) : i.binding = j.binding ↔ i.slot = j.slot := by
  obtain ⟨k, d, v, hslot, hbinding, -⟩ := hi
  obtain ⟨k', d', v', hslot', hbinding', -⟩ := hj
  rw [hslot, hbinding, hslot', hbinding', Option.some_inj, Option.some_inj]
  omega

theorem Ident.Denotes.mono {base : Nat} {i : Ident} (hi : i.Denotes table frame base)
    {final : DeclTable} (h : final.Extends table) : i.Denotes final frame base := by
  obtain ⟨k, d, v, hslot, hbinding, hd, hv⟩ := hi
  exact ⟨k, d, v, hslot, hbinding, h _ _ hd, hv⟩

end

/-! ## Programs -/

/-- Name resolution has recorded the mentions of a function in the table of a program. -/
def Program.Records (p : Program) (f : Function) : Prop :=
  ∃ earlier table report, Recorded earlier table report (f.mentions p.resolveNames.1.globals) ∧
    p.resolveNames.1.table.Extends table ∧ report ⊆ p.resolveNames.2

/-- Later passes change nothing about that. -/
theorem Program.Records.of_strip_eq {p : Program} {k : Keep} (hk : k.bindings = true)
    {fs gs : List Function} (h : fs.map (Function.strip k) = gs.map (Function.strip k))
    (hgs : ∀ g ∈ gs, p.Records g) : ∀ f ∈ fs, p.Records f := by
  intro f hf
  obtain ⟨g, hg, hgf⟩ := List.mem_map.1 (h ▸ List.mem_map_of_mem hf)
  obtain ⟨earlier, table, report, hrecorded, htable, hreport⟩ := hgs g hg
  refine ⟨earlier, table, report, ?_, htable, hreport⟩
  rw [← Recorded.strip_iff hk, ← Function.mentions_strip] at hrecorded ⊢
  rw [← hgf]
  exact hrecorded

theorem Program.records_placed {p : Program} (hread : p.AsRead) :
    ∀ f ∈ (placeFunctions {} p.analyze.program.functions).functions, p.Records f := by
  have hanalyzed : ∀ f ∈ p.analyze.program.functions, p.Records f :=
    .of_strip_eq rfl p.resolveNames.1.strip_resolveTypes (Program.recorded_of_mem hread)
  exact .of_strip_eq rfl (placeFunctions_strip _ _) hanalyzed

/-! ## Calls -/

theorem mem_checkAll {table : DeclTable} {returns : Ty} {depth : Nat} {es : List Expr}
    (h : checkAll table returns depth es = []) : ∀ e ∈ es, e.check table returns depth = [] := by
  induction es with
  | nil => simp
  | cons e es ih =>
    obtain ⟨he, hes⟩ := List.append_eq_nil_iff.1 h
    exact List.forall_mem_cons.2 ⟨he, ih hes⟩

theorem Expr.check_child {table : DeclTable} {returns : Ty} {depth : Nat} {e : Expr}
    (h : e.check table returns depth = []) :
    ∀ c ∈ e.children, ∃ depth', c.check table returns depth' = [] := by
  intro c hc
  cases e with
  | literal | var | brk => cases hc
  | call n callee arguments =>
    simp only [check, List.append_eq_nil_iff] at h
    exact ⟨depth, mem_checkAll h.1 c hc⟩
  | block n body result =>
    simp only [check, List.append_eq_nil_iff] at h
    rcases List.mem_append.1 hc with hc | hc
    · exact ⟨depth, mem_checkAll h.1 c hc⟩
    · obtain rfl := Option.mem_toList.1 hc
      exact ⟨depth, h.2⟩
  | branch n condition onTrue onFalse =>
    simp only [check, List.append_eq_nil_iff] at h
    simp only [children, List.mem_cons, Option.mem_toList] at hc
    rcases hc with rfl | rfl | rfl
    · exact ⟨depth, h.1.1.1.1⟩
    · exact ⟨depth, h.1.1.2⟩
    · exact ⟨depth, h.1.2⟩
  | loop n condition body =>
    simp only [check, List.append_eq_nil_iff] at h
    simp only [children, List.mem_cons, List.not_mem_nil, or_false] at hc
    rcases hc with rfl | rfl
    · exact ⟨depth, h.1.1⟩
    · exact ⟨depth + 1, h.2⟩
  | binary n op left right =>
    simp only [check, List.append_eq_nil_iff] at h
    simp only [children, List.mem_cons, List.not_mem_nil, or_false] at hc
    rcases hc with rfl | rfl
    · exact ⟨depth, h.1.2⟩
    · exact ⟨depth, h.2⟩
  | bind | assign | unary | group | ret =>
    obtain rfl := List.mem_singleton.1 hc
    simp only [check, List.append_eq_nil_iff] at h
    exact ⟨depth, by tauto⟩

/-- The name of a call does not stand for something without a signature. -/
def Expr.CallsSignature (table : DeclTable) : Expr → Prop
  | .call _ callee _ => ∀ d, table.find callee.binding = some d → d.signature.isSome
  | _ => True

theorem Expr.callsSignature_of_check {table : DeclTable} {returns : Ty} {depth : Nat} {e : Expr}
    (h : e.check table returns depth = []) : e.Everywhere (CallsSignature table) := by
  induction e using Expr.induction_children generalizing depth with
  | _ e ih =>
    refine everywhere_iff.2 ⟨?_, fun c hc => ?_⟩
    · cases e with
      | call n callee arguments =>
        intro d hd
        simp only [check, List.append_eq_nil_iff, DeclTable.checkCall, hd] at h
        cases hs : d.signature with
        | none => simp [hs] at h
        | some s => rfl
      | _ => trivial
    · obtain ⟨depth', hc'⟩ := check_child h c hc
      exact ih c hc hc'

theorem Expr.callsSignature_strip (table : DeclTable) (e : Expr) :
    (e.strip .allButPlaces).CallsSignature table ↔ e.CallsSignature table := by
  cases e <;> exact Iff.rfl

theorem Program.callsSignature_of_clean {p : Program} (h : p.analyze.report = []) :
    ∀ f ∈ (placeFunctions {} p.analyze.program.functions).functions,
      f.body.Everywhere (Expr.CallsSignature p.resolveNames.1.table) := by
  have hchecks : p.analyze.program.functions.flatMap (Function.check p.resolveNames.1.table) = [] :=
    (List.append_eq_nil_iff.1 h).2
  refine everywhere_of_strip_eq (Expr.callsSignature_strip _) (placeFunctions_strip _ _) ?_
  intro g hg
  have hcheck := List.append_eq_nil_iff.1 (List.flatMap_eq_nil_iff.1 hchecks g hg)
  exact Expr.callsSignature_of_check hcheck.1

/-- What is declared inside a function has no signature. -/
theorem Function.signature_eq_none {f : Function} {globals : List Ident} {x : Mention}
    (hx : x ∈ f.mentions globals) {d : Declaration} (hd : x.declaration? = some d) :
    d.signature = none := by
  rcases List.mem_append.1 hx with hx | hx
  · obtain ⟨l, p, r, -, hx⟩ := mem_mentionsInTurn.1 hx
    rw [List.mem_singleton.1 hx] at hd
    cases hd
    rfl
  · obtain ⟨e, -, hnamed⟩ := Expr.exists_named hx
    obtain ⟨ident, use, around⟩ := x
    cases e with
    | var | call | assign => cases hnamed; cases hd
    | bind => cases hnamed; cases hd; rfl
    | _ => cases hnamed

/-- The name of an external function is mentioned. -/
theorem Program.external_mention {p : Program} {e : External} (he : e ∈ p.externals) :
    ∃ before, ⟨e.ident, .declares .external e.returns.ty
      (some (signatureOf e.params e.variadic)), [before]⟩ ∈ p.mentions := by
  obtain ⟨l, r, hlr⟩ := List.append_of_mem he
  refine ⟨[] ++ l.flatMap fun e => [e.ident], List.mem_append_left _ ?_⟩
  exact mem_mentionsInTurn.2 ⟨l, e, r, hlr, List.mem_cons_self⟩

/-- The name of a function is mentioned, behind those of all external ones. -/
theorem Program.function_mention {p : Program} {f : Function} (hf : f ∈ p.functions) :
    ∃ before, f.nameMention (p.externals.map (·.ident) ++ before) ∈ p.mentions := by
  obtain ⟨l, r, hlr⟩ := List.append_of_mem hf
  refine ⟨l.flatMap fun f => [f.ident], List.mem_append_right _ (List.mem_append_left _ ?_)⟩
  exact mem_mentionsInTurn.2 ⟨l, f, r, hlr, List.mem_singleton_self _⟩

/-- What is visible everywhere has the entry of an external function or of another one. -/
theorem Program.find_global {p : Program} (hread : p.AsRead) {i : Ident}
    (hi : i ∈ p.resolveNames.1.globals) :
    ∃ d, p.resolveNames.1.table.find i.binding = some d ∧ d.name = i.name ∧
      (d.kind = .external ∧ i ∈ p.resolveNames.1.externals.map (·.ident) ∨
        d.kind = .function ∧ i ∈ p.resolveNames.1.functions.map (·.ident)) := by
  have hrecorded := Program.resolveNames_recorded hread
  rcases List.mem_append.1 hi with hi | hi
  · obtain ⟨e, he, rfl⟩ := List.mem_map.1 hi
    obtain ⟨before, hx⟩ := Program.external_mention he
    exact ⟨_, hrecorded.find_own hx rfl, rfl, .inl ⟨rfl, hi⟩⟩
  · obtain ⟨f, hf, rfl⟩ := List.mem_map.1 hi
    obtain ⟨before, hx⟩ := Program.function_mention hf
    exact ⟨_, hrecorded.find_own hx rfl, rfl, .inr ⟨rfl, hi⟩⟩

theorem Program.functionNames_resolved (p : Program) :
    p.resolveNames.1.functions.map (·.ident.name) = p.functions.map (·.ident.name) :=
  names_of_bare_eq (bare_eq_of_strip_eq p.strip_resolveNames)

theorem Program.externalNames_resolved (p : Program) :
    p.resolveNames.1.externals.map (·.ident.name) = p.externals.map (·.ident.name) := by
  refine map_resolveEach (fun s e => ?_) _ _
  rw [External.resolveNames, Names.declare_value]

/-- If nothing is reported, no function has the name of an external one. -/
theorem Program.disjoint_of_clean {p : Program} (hread : p.AsRead) (h : p.resolveNames.2 = [])
    {i : Ident} (hi : i ∈ p.resolveNames.1.externals.map (·.ident)) :
    ∀ f ∈ p.resolveNames.1.functions, f.ident.name ≠ i.name := by
  intro f hf hname
  obtain ⟨before, hx⟩ := Program.function_mention hf
  have hreport := (Program.resolveNames_recorded hread).report
  rw [h] at hreport
  have hnone := List.flatMap_eq_nil_iff.1 hreport.symm _ hx
  have hrival : firstNamed f.ident.name
      (p.resolveNames.1.externals.map (·.ident) ++ before) = none := by
    simpa [Function.nameMention, Mention.report, Mention.rival] using hnone
  have hne := List.find?_eq_none.1 hrival i (List.mem_append_left _ hi)
  exact hne (by simp [hname])

/-- If analysis reports nothing, the name of a call stands for something that is visible
everywhere. -/
theorem Program.exists_global_of_call {p : Program} (hread : p.AsRead) (h : p.analyze.report = [])
    {f : Function} (hf : f ∈ (placeFunctions {} p.analyze.program.functions).functions) {n : Node}
    {callee : Ident} {arguments : List Expr} (hcall : (Expr.call n callee arguments).Inside f.body) :
    ∃ i ∈ p.resolveNames.1.globals, i.name = callee.name ∧ callee.binding = i.binding := by
  have hnames : p.resolveNames.2 = [] := (List.append_eq_nil_iff.1 (List.append_eq_nil_iff.1 h).1).1
  obtain ⟨earlier, table, report, hrecorded, htable, hreport⟩ := Program.records_placed hread f hf
  obtain ⟨x, hbody, hident, huse⟩ := Expr.exists_mention hcall rfl
    [f.params.map (·.ident), p.resolveNames.1.globals]
  have hx : x ∈ f.mentions p.resolveNames.1.globals := List.mem_append_right _ hbody
  obtain rfl : x.ident = callee := hident
  -- The name has a meaning, because nothing is reported.
  obtain ⟨i, hmeaning⟩ : ∃ i, x.meaning = some i := by
    rw [hnames, List.subset_nil] at hreport
    rw [hrecorded.report, List.flatMap_eq_nil_iff] at hreport
    have hnone := hreport x hx
    rw [Mention.report, huse] at hnone
    cases hm : x.meaning with
    | none => simp [hm] at hnone
    | some i => exact ⟨i, rfl⟩
  have hbinding : x.ident.binding = i.binding := by
    rw [hrecorded.bound x hx (by simp [Mention.declaration?, huse]), hmeaning, Option.bind_some]
  have hsignature := Program.callsSignature_of_clean h f hf _ hcall
  obtain ⟨locals, haround, hlocals⟩ := Function.exists_locals hx
  obtain ⟨scope, hscope, hfirst⟩ := List.exists_of_findSome?_eq_some hmeaning
  have hi := List.mem_of_find?_eq_some hfirst
  rw [haround] at hscope
  rcases List.mem_append.1 hscope with hscope | hscope
  · -- It is not a variable, because these have no signature.
    obtain ⟨y, hy, hyi⟩ := hlocals scope hscope i hi
    obtain ⟨d, hd, rfl⟩ := Mention.ident_eq_of_declared? hyi
    have hfind := htable.find (hrecorded.find_own hy hd)
    have hsome := hsignature d (by rw [hbinding, hfind])
    rw [Function.signature_eq_none hy hd] at hsome
    cases hsome
  · rw [List.mem_singleton.1 hscope] at hi
    exact ⟨i, hi, by simpa using List.find?_some hfirst, hbinding⟩

/-- If analysis reports nothing, a call stands for a function or for an external one, and which of
them it is can be told by its name. -/
theorem Program.callee_of_clean {p : Program} (hread : p.AsRead) (h : p.analyze.report = []) :
    ∀ f ∈ (placeFunctions {} p.analyze.program.functions).functions, ∀ n callee arguments,
      (Expr.call n callee arguments).Inside f.body →
      ∃ d, p.resolveNames.1.table.find callee.binding = some d ∧
        (d.kind = .external ∧ callee.name ∈ p.externals.map (·.ident.name) ∧
            callee.name ∉ p.functions.map (·.ident.name) ∨
          d.kind = .function ∧ callee.name ∈ p.functions.map (·.ident.name)) := by
  intro f hf n callee arguments hcall
  have hnames : p.resolveNames.2 = [] := (List.append_eq_nil_iff.1 (List.append_eq_nil_iff.1 h).1).1
  obtain ⟨i, hi, hname, hbinding⟩ := Program.exists_global_of_call hread h hf hcall
  obtain ⟨d, hd, -, hkind⟩ := Program.find_global hread hi
  refine ⟨d, by rw [hbinding, hd], ?_⟩
  rw [← p.externalNames_resolved, ← p.functionNames_resolved, ← hname]
  rcases hkind with ⟨hkind, hi⟩ | ⟨hkind, hi⟩
  · refine .inl ⟨hkind, ?_, ?_⟩
    · obtain ⟨e, he, rfl⟩ := List.mem_map.1 hi
      exact List.mem_map.2 ⟨e, he, rfl⟩
    · intro hmem
      obtain ⟨g, hg, hgname⟩ := List.mem_map.1 hmem
      exact Program.disjoint_of_clean hread hnames hi g hg hgname
  · obtain ⟨g, hg, rfl⟩ := List.mem_map.1 hi
    exact .inr ⟨hkind, List.mem_map.2 ⟨g, hg, rfl⟩⟩

/-! ## Both passes together -/

/-- The function that an expression calls itself. -/
def Expr.callee? : Expr → Option Ident
  | .call _ callee _ => some callee
  | _ => none

/-- The functions that a function calls, in the order in which they are evaluated. -/
def Function.callees (f : Function) : List Ident :=
  (f.body.nodes .evaluated).filterMap Expr.callee?

/-- The function that an instruction calls, and whether it is external. -/
def Instr.call? : Instr → Option (String × Bool)
  | call target external => some (target, external)
  | _ => none

theorem Instr.filterMap_references (is : List Instr) :
    (references is).filterMap call? = is.filterMap call? := by
  rw [references, List.filterMap_filter]
  refine List.filterMap_congr fun i _ => ?_
  cases i <;> rfl

/-- The call in the code of an expression is that of its function. -/
theorem Expr.filterMap_callee (functions : List String) (es : List Expr) :
    (es.filterMap (reference? functions)).filterMap Instr.call? =
      (es.filterMap callee?).map fun i => (i.name, !functions.contains i.name) := by
  rw [List.filterMap_filterMap, List.map_filterMap]
  refine List.filterMap_congr fun e _ => ?_
  cases e with
  | literal n text constant =>
    simp only [reference?, callee?]
    split
    · cases constant <;> rfl
    · rfl
  | _ => rfl

/-- If analysis reports nothing, a call that is not to a function of the program is one to an
external function. -/
theorem Program.external_of_clean {p : Program} (hread : p.AsRead) (h : p.analyze.report = [])
    {f : Function} (hf : f ∈ (placeFunctions {} p.analyze.program.functions).functions) {i : Ident}
    (hi : i ∈ f.callees) :
    (!(p.functions.map (·.ident.name)).contains i.name) =
      (p.resolveNames.1.table.find i.binding).any (·.kind = .external) := by
  obtain ⟨e, he, hcallee⟩ := List.mem_filterMap.1 hi
  cases e with
  | call n callee arguments =>
    cases hcallee
    obtain ⟨d, hd, hkind⟩ :=
      Program.callee_of_clean hread h f hf n i arguments (Expr.mem_nodes.1 he)
    rw [hd, Option.any_some]
    rcases hkind with ⟨hkind, -, hname⟩ | ⟨hkind, hname⟩
    · simp [hkind, hname]
    · simp [hkind, hname]
  | _ => cases hcallee

/-- The calls in the code of a program. -/
theorem PlacedFunctions.calls_of_ok {placed : PlacedFunctions} {options : GenOptions}
    {assembly : Assembly} {labels : Labels}
    (hlength : placed.functions.length = placed.frames.length)
    (h : placed.assemble options = .ok (assembly, labels)) :
    assembly.code.filterMap Instr.call? = placed.functions.flatMap fun f =>
      f.callees.map fun i =>
        (i.name, !(placed.functions.map (·.ident.name)).contains i.name) := by
  rw [← Instr.filterMap_references, PlacedFunctions.references_of_ok hlength h,
    List.filterMap_flatMap]
  simp only [Expr.filterMap_callee, Function.callees]

/-- Name resolution and placement agree on the variables of a program that analysis reports nothing
about: each name of a variable has a declaration and a place, with its name and the same type, and
two names in a function have the same declaration if and only if they have the same place. A call
goes through the linkage table if and only if its declaration is that of an external function. -/
theorem Program.variables_agree {p : Program} (hp : p.Written) (h : p.analyze.report = []) :
    let table := p.analyze.program.table
    let placed := placeFunctions {} p.analyze.program.functions
    placed.stopped = none ∧
      List.Forall₂ (fun f frame =>
        (∀ i ∈ f.variables, ∃ b d k v, i.binding = some b ∧ table[b]? = some d ∧
          i.slot = some k ∧ frame.vars[k]? = some v ∧
          d.name = i.name ∧ v.name = i.name ∧ d.ty = v.ty) ∧
        ∀ i ∈ f.variables, ∀ j ∈ f.variables, i.binding = j.binding ↔ i.slot = j.slot)
        placed.functions placed.frames ∧
      ∀ options assembly labels,
        (p.analyze.program.generate options).result = .ok (assembly, labels) →
        assembly.code.filterMap Instr.call? = placed.functions.flatMap fun f =>
          f.callees.map fun i => (i.name, (table.find i.binding).any (·.kind = .external)) := by
  intro table placed
  have hread := hp.asRead
  have hlaid := laid_placeFunctions (p.placed_of_clean h)
  have hbare : placed.functions.map Function.bare = p.functions.map Function.bare := p.bare_placed
  refine ⟨p.placed_of_clean h, ?_, ?_⟩
  · have hall : ∀ f ∈ placed.functions, p.Records f ∧ f.body.ValueRead := fun f hf =>
      ⟨Program.records_placed hread f hf,
        (Function.asRead_of_bare_eq hbare hread.functions f hf).2⟩
    refine ((List.forall₂_and_left _ _).2 ⟨hall, hlaid⟩).imp ?_
    rintro f frame ⟨⟨⟨earlier, _, _, hrecorded, htable, -⟩, hbody⟩, hlaid⟩
    have hdenotes := fun i hi =>
      (Function.denotes_of_recorded hrecorded (hlaid.slotted hbody _) i hi).mono htable
    refine ⟨fun i hi => ?_, fun i hi j hj => (hdenotes i hi).binding_eq_iff (hdenotes j hj)⟩
    obtain ⟨k, d, v, hslot, hbinding, hd, hv, hnames⟩ := hdenotes i hi
    exact ⟨earlier.size + k, d, k, v, hbinding, hd, hslot, hv, hnames⟩
  · intro options assembly labels hgen
    obtain ⟨-, -, hassemble⟩ := Program.generate_eq_ok hgen
    rw [PlacedFunctions.calls_of_ok hlaid.length_eq hassemble]
    refine List.flatMap_congr fun f hf => List.map_congr_left fun i hi => ?_
    rw [names_of_bare_eq hbare, Program.external_of_clean hread h hf hi]
    rfl

/-- A parameter is hidden twice, first inside a block and then after it. -/
def Program.shadowText : String :=
  "extrn int printf(string format, ...) int main(int n) " ++
    braced ("let m: int = " ++ braced "let n: int = n; n = twice(n); n" ++
      "; let n: int = m; printf(\"%d\", n); n") ++ " int twice(int n) " ++ braced "n + n"

/-- Two names of `main` denote the same variable for both passes, and one call of it is external. -/
theorem Program.variables_agree_text :
    ∃ (p : Program) (assembly : Assembly) (labels : Labels) (f : Function),
      p.Written ∧ p.analyze.report = [] ∧
      (p.analyze.program.generate {}).result = .ok (assembly, labels) ∧
      f ∈ (placeFunctions {} p.analyze.program.functions).functions ∧
      f.variables.map (·.slot) =
        [some 0, some 0, some 1, some 1, some 1, some 1, some 2, some 2, some 3, some 3, some 3] ∧
      (∀ i ∈ f.variables, ∀ j ∈ f.variables, i.binding = j.binding ↔ i.slot = j.slot) ∧
      assembly.code.filterMap Instr.call? = [("twice", false), ("printf", true)] ∧
      assembly.code.filterMap Instr.call? =
        (placeFunctions {} p.analyze.program.functions).functions.flatMap fun f =>
          f.callees.map fun i =>
            (i.name, (p.analyze.program.table.find i.binding).any (·.kind = .external)) := by
  have hcheck : compilesWith Program.shadowText fun assembly f =>
      decide (f.variables.map (·.slot) =
        [some 0, some 0, some 1, some 1, some 1, some 1, some 2, some 2, some 3, some 3, some 3] ∧
        assembly.code.filterMap Instr.call? = [("twice", false), ("printf", true)]) := by
    decide +kernel
  obtain ⟨p, assembly, labels, f, hwritten, hclean, hgen, hf, h⟩ := exists_of_compilesWith hcheck
  obtain ⟨hslots, hcalls⟩ := of_decide_eq_true h
  rw [(Program.generate_eq_ok hgen).2.1] at hf
  obtain ⟨-, hagree, hexternal⟩ := Program.variables_agree hwritten hclean
  rw [← List.map_fst_zip (Nat.le_of_eq hagree.length_eq)] at hf
  obtain ⟨⟨f, frame⟩, hmem, rfl⟩ := List.mem_map.1 hf
  exact ⟨p, assembly, labels, f, hwritten, hclean, hgen, (List.of_mem_zip hmem).1, hslots,
    (List.forall₂_zip hagree hmem).2, hcalls, hexternal _ _ _ hgen⟩

end Ilang
