import Ilang.Proofs.Agreement
/-!
# Analysis decides the type system

Analysis reports nothing about a program if and only if the program is well typed
(`Program.report_iff_wellTyped`). A declaration is reported if and only if its name is not new in
its scope (`Declares`), and if no name is declared twice, the environment that the rules use
describes the scopes in which the body of each function is analysed.
-/
namespace Ilang

/-! ## Declarations -/

/-- A step of name resolution declares one name, and reports nothing if and only if the name is new
in its scope and `sound` holds. -/
structure Declares {α : Type} (table : DeclTable) (step : Names → Resolved α) (x : String × Meaning)
    (sound : Prop) : Prop where
  report : ∀ {s : Names} {Γ : Env} {declared : List String}, Γ.Shows table s declared →
    table.Extends (step s).names.table → ((step s).report = [] ↔ x.1 ∉ declared ∧ sound)
  shows : ∀ {s : Names} {Γ : Env} {declared : List String}, Γ.Shows table s declared →
    table.Extends (step s).names.table → x.1 ∉ declared →
    Env.Shows (Function.update Γ x.1 (some x.2)) table (step s).names (declared ++ [x.1])

section
variable {α : Type} {table : DeclTable} {resolve : Names → α → Resolved α}
  {entry : α → String × Meaning} {sound : α → Prop} {s : Names} {Γ : Env} {declared : List String}
  (hgrows : ∀ {s : Names}, s.scopes.chain ≠ [] → ∀ a, s.Grows (resolve s a).names)
include hgrows

/-- Names that are new one after another get their meanings. -/
theorem Env.Shows.declareEach {as : List α} (h : Γ.Shows table s declared)
    (has : ∀ a ∈ as, Declares table (resolve · a) (entry a) (sound a))
    (htable : table.Extends (resolveEach resolve s as).names.table)
    (hnew : (declared ++ (as.map entry).map Prod.fst).Nodup) :
    Env.Shows (Γ.extend (as.map entry)) table (resolveEach resolve s as).names
      (declared ++ (as.map entry).map Prod.fst) := by
  induction as generalizing s Γ declared with
  | nil =>
    rw [List.map_nil, List.map_nil, List.append_nil]
    exact h
  | cons a as ih =>
    rw [List.forall_mem_cons] at has
    rw [List.map_cons, List.map_cons, List.append_cons] at hnew ⊢
    have hfirst := htable.of_grows
      (resolveEach_grows hgrows (hgrows h.opened a).scopes.ne_nil as)
    refine ih (has.1.shows h hfirst ?_) has.2 htable hnew
    have := (List.nodup_append.1 hnew).1
    grind

theorem resolveEach_report_iff {as : List α} (h : Γ.Shows table s declared)
    (has : ∀ a ∈ as, Declares table (resolve · a) (entry a) (sound a))
    (htable : table.Extends (resolveEach resolve s as).names.table) :
    (resolveEach resolve s as).report = [] ↔
      (declared ++ (as.map entry).map Prod.fst).Nodup ∧ ∀ a ∈ as, sound a := by
  induction as generalizing s Γ declared with
  | nil => simpa [resolveEach] using h.distinct
  | cons a as ih =>
    rw [List.forall_mem_cons] at has
    have hfirst := htable.of_grows
      (resolveEach_grows hgrows (hgrows h.opened a).scopes.ne_nil as)
    rw [List.map_cons, List.map_cons, List.append_cons, List.forall_mem_cons]
    simp only [resolveEach, List.append_eq_nil_iff, has.1.report h hfirst]
    by_cases hnew : (entry a).1 ∈ declared
    · have : ¬ (declared ++ [(entry a).1] ++ (as.map entry).map Prod.fst).Nodup := by grind
      exact iff_of_false (fun hr => hr.1.1 hnew) fun hr => this hr.1
    · rw [ih (has.1.shows h hfirst hnew) has.2 htable]
      tauto

end

theorem Param.declares {p : Param} (h : p.type.AsRead) (table : DeclTable) :
    Declares table (Param.resolveNames · p) p.entry True where
  report hs _ := by
    rw [and_true]
    exact (Names.declare_report_iff _ _ _ _ _).trans (hs.inner _)
  shows hs htable hnew := hs.declare hnew htable ⟨rfl, rfl, h⟩

theorem headerMeaning_means {returns : TypeRef} {params : List Param} (hreturns : returns.AsRead)
    (hparams : ∀ p ∈ params, p.type.AsRead) {d : Declaration} (hd : d.isCallable = true)
    {variadic : Bool} (hs : d.signature = some (signatureOf params variadic))
    (hty : d.ty = returns.ty) : d.Means (headerMeaning returns params variadic) := by
  refine ⟨hd, ?_, hty.trans hreturns⟩
  rw [hs, signatureOf]
  congr 2
  exact List.map_congr_left hparams

/-- Parameters are reported if and only if two of them have one name. -/
theorem resolveParams_report_iff {table : DeclTable} {s : Names} {Γ : Env}
    (h : Γ.Describes table s) {ps : List Param} (hps : ∀ p ∈ ps, p.type.AsRead)
    (htable : table.Extends (resolveEach Param.resolveNames s.enter ps).names.table) :
    (resolveEach Param.resolveNames s.enter ps).report = [] ↔ (ps.map (·.ident.name)).Nodup := by
  have := resolveEach_report_iff Param.resolveNames_grows h.enter
    (fun p hp => Param.declares (hps p hp) table) htable
  simpa [Param.entry, Function.comp_def] using this

theorem External.declares {e : External} (h : e.AsRead) (table : DeclTable) :
    Declares table (External.resolveNames · e) e.entry (e.params.map (·.ident.name)).Nodup := by
  have hshows : ∀ {s : Names} {Γ : Env} {declared : List String}, Γ.Shows table s declared →
      table.Extends (e.resolveNames s).names.table → e.ident.name ∉ declared →
      Env.Shows (Function.update Γ e.ident.name (some e.entry.2)) table
        (s.declare e.ident .external e.returns.ty
          (some (signatureOf e.params e.variadic))).names (declared ++ [e.ident.name]) := by
    intro s Γ declared hs htable hnew
    refine hs.declare hnew ?_ (headerMeaning_means h.returns h.params rfl rfl rfl)
    exact htable.of_grows (Names.grows_leave (Names.declare_grows hs.opened _ _ _ _).scopes.ne_nil
      (resolveEach_grows Param.resolveNames_grows (Names.enter_ne_nil _) e.params))
  constructor
  · intro s Γ declared hs htable
    have hname : (s.declare e.ident .external e.returns.ty
        (some (signatureOf e.params e.variadic))).report = [] ↔ e.ident.name ∉ declared :=
      (Names.declare_report_iff _ _ _ _ _).trans (hs.inner _)
    simp only [External.resolveNames, List.append_eq_nil_iff, hname]
    refine and_congr_right fun hnew => ?_
    exact resolveParams_report_iff (hshows hs htable hnew).toDescribes h.params htable
  · intro s Γ declared hs htable hnew
    refine (hshows hs htable hnew).congr (Names.leave_scopes ?_)
    exact resolveEach_grows Param.resolveNames_grows (Names.enter_ne_nil _) e.params

theorem Function.declares {f : Function} (h : f.AsRead) (table : DeclTable) :
    Declares table (Function.declareName · f) f.entry True where
  report hs _ := by
    rw [and_true]
    exact (Names.declare_report_iff _ _ _ _ _).trans (hs.inner _)
  shows hs htable hnew :=
    hs.declare hnew htable (headerMeaning_means h.returns h.params rfl rfl rfl)

/-! ## Functions -/

theorem reportHeader_iff {returns : TypeRef} {params : List Param} (hreturns : returns.AsRead)
    (hparams : ∀ p ∈ params, p.type.AsRead) :
    reportHeader returns params = [] ↔
      ∀ type ∈ returns :: params.map Param.type, (Ty.ofName? type.name).isSome := by
  simp only [reportHeader, List.append_eq_nil_iff, List.flatMap_eq_nil_iff,
    TypeRef.report_iff hreturns, List.forall_mem_cons, List.forall_mem_map]
  refine and_congr_right fun _ => forall₂_congr fun p hp => ?_
  exact TypeRef.report_iff (hparams p hp)

/-- Binding the names of parameters changes no header. -/
theorem reportHeader_resolved (returns : TypeRef) (s : Names) (params : List Param) :
    reportHeader returns (resolveEach Param.resolveNames s params).value =
      reportHeader returns params := by
  have htypes : (resolveEach Param.resolveNames s params).value.map Param.type =
      params.map Param.type := map_resolveEach (fun _ _ => rfl) s params
  simp only [reportHeader]
  rw [← List.flatMap_map, htypes, List.flatMap_map]

/-- No pass reports anything in a function. -/
@[mk_iff]
structure Function.Passes (table : DeclTable) (s : Names) (f : Function) : Prop where
  names : (f.resolveInside s).report = []
  types : ((f.resolveInside s).value.resolveTypes table).report = []
  checks : ((f.resolveInside s).value.resolveTypes table).value.check table = []

section
variable {table : DeclTable} {s : Names} {Γ : Env}

theorem Function.passes_iff_parts {f : Function} :
    f.Passes table s ↔ (resolveEach Param.resolveNames s.enter f.params).report = [] ∧
      reportHeader f.returns f.params = [] ∧ f.body.Passes table f.returns.ty 0
        (resolveEach Param.resolveNames s.enter f.params).names f.returns.ty := by
  have hheader := reportHeader_resolved f.returns s.enter f.params
  simp only [Function.passes_iff, Expr.passes_iff, Function.resolveInside, Function.resolveTypes,
    Function.check, List.append_eq_nil_iff, hheader]
  grind

theorem Function.passes_iff_wellTyped {f : Function} (hread : f.AsRead) (h : Γ.Describes table s)
    (htable : table.Extends (f.resolveInside s).names.table) :
    f.Passes table s ↔ f.WellTyped Γ := by
  have hgrows := resolveEach_grows Param.resolveNames_grows s.enter_ne_nil f.params
  have hbtable : table.Extends (f.body.resolveNames
      (resolveEach Param.resolveNames s.enter f.params).names).names.table := htable
  have hptable := hbtable.of_grows (Expr.resolveNames_grows hgrows.scopes.ne_nil f.body)
  rw [Function.passes_iff_parts, resolveParams_report_iff h hread.params hptable,
    reportHeader_iff hread.returns hread.params]
  -- The parameters are visible in the body if their names are different, which both sides ask for.
  have hbody (hd : (f.params.map (·.ident.name)).Nodup) :
      f.body.Passes table f.returns.ty 0 (resolveEach Param.resolveNames s.enter f.params).names
        f.returns.ty ↔
      HasType (Ty.ofName f.returns.name) false (Γ.extend (f.params.map Param.entry)) f.body
        (Ty.ofName f.returns.name) := by
    have hagrees := Expr.StatementRead.agrees hread.body.everywhere table f.returns.ty
    rw [Expr.computed_of_notBind hread.body.notBind] at hagrees
    have hshows := h.enter.declareEach Param.resolveNames_grows
      (fun p hp => Param.declares (hread.params p hp) table) hptable
      (by simpa [Param.entry, Function.comp_def] using hd)
    have hdepth : false = true ↔ 0 ≠ 0 := by simp
    rw [hagrees hdepth hshows.toDescribes hbtable, hread.returns]
  constructor
  · rintro ⟨hd, hknown, hb⟩
    exact ⟨⟨hknown, hd⟩, (hbody hd).1 hb⟩
  · rintro ⟨⟨hknown, hd⟩, hb⟩
    exact ⟨hd, hknown, (hbody hd).2 hb⟩

/-- No pass reports anything in any function if and only if all functions are well typed. -/
theorem resolveInside_iff_wellTyped {fs : List Function} (hread : ∀ f ∈ fs, f.AsRead)
    (h : Γ.Describes table s)
    (htable : table.Extends (resolveEach Function.resolveInside s fs).names.table) :
    ((resolveEach Function.resolveInside s fs).report = [] ∧
      ∀ g ∈ (resolveEach Function.resolveInside s fs).value,
        (g.resolveTypes table).report = [] ∧ (g.resolveTypes table).value.check table = []) ↔
      ∀ f ∈ fs, f.WellTyped Γ := by
  induction fs generalizing s with
  | nil => simp [resolveEach]
  | cons f fs ih =>
    rw [List.forall_mem_cons] at hread ⊢
    have hgrows := Function.resolveInside_grows h.opened f
    have hrest := resolveEach_grows Function.resolveInside_grows hgrows.scopes.ne_nil fs
    rw [← Function.passes_iff_wellTyped hread.1 h (htable.of_grows hrest),
      ← ih hread.2 (h.congr (f.resolveInside_scopes s)) htable, Function.passes_iff]
    simp only [resolveEach, List.append_eq_nil_iff, List.forall_mem_cons]
    tauto

end

/-- Declaring functions only binds their names. -/
theorem forall_declared_iff {q : Function → Prop}
    (hq : ∀ (f : Function) (i : Ident), i.name = f.ident.name → (q { f with ident := i } ↔ q f))
    (s : Names) (fs : List Function) :
    (∀ g ∈ (resolveEach Function.declareName s fs).value, q g) ↔ ∀ f ∈ fs, q f := by
  induction fs generalizing s with
  | nil => simp [resolveEach]
  | cons f fs ih =>
    simp only [resolveEach, List.forall_mem_cons, ih]
    refine and_congr_left fun _ => hq f _ ?_
    rw [Names.declare_value]

/-! ## Programs -/

namespace Program

variable {p : Program}

/-- What each pass reports. -/
theorem report_iff (p : Program) :
    p.analyze.report = [] ↔ (p.externalNames.report = [] ∧ p.functionNames.report = []) ∧
      (∀ e ∈ p.externals, reportHeader e.returns e.params = []) ∧ p.insideNames.report = [] ∧
      ∀ g ∈ p.insideNames.value, (g.resolveTypes p.declarations).report = [] ∧
        (g.resolveTypes p.declarations).value.check p.declarations = [] := by
  have hheaders : (p.externalNames.value.map fun e => reportHeader e.returns e.params) =
      p.externals.map fun e => reportHeader e.returns e.params :=
    map_resolveEach (fun s e => reportHeader_resolved e.returns _ e.params) _ _
  have hexternals : (p.externalNames.value.flatMap fun e => reportHeader e.returns e.params) = [] ↔
      ∀ e ∈ p.externals, reportHeader e.returns e.params = [] := by
    rw [List.flatMap_def, hheaders, ← List.flatMap_def, List.flatMap_eq_nil_iff]
  have hall : p.analyze.report = p.externalNames.report ++ p.functionNames.report ++
      p.insideNames.report ++
      ((p.externalNames.value.flatMap fun e => reportHeader e.returns e.params) ++
        (p.insideNames.value.map (Function.resolveTypes p.declarations)).flatMap Typed.report) ++
      ((p.insideNames.value.map (Function.resolveTypes p.declarations)).map Typed.value).flatMap
        (Function.check p.declarations) := rfl
  simp only [hall, List.append_eq_nil_iff, hexternals, List.flatMap_map, List.flatMap_eq_nil_iff,
    forall_and]
  tauto

/-- At the start nothing is visible. -/
theorem shows_start (table : DeclTable) : Env.Shows (fun _ => none) table ({} : Names).enter [] :=
  ⟨⟨Names.enter_ne_nil _, fun _ => .none⟩, fun _ => iff_of_true rfl List.not_mem_nil, .nil⟩

theorem shows_externals (hread : p.AsRead)
    (h : ((p.externals.map External.entry).map Prod.fst).Nodup) :
    Env.Shows (Env.extend (fun _ => none) (p.externals.map External.entry)) p.declarations
      p.externalNames.names ((p.externals.map External.entry).map Prod.fst) :=
  (shows_start p.declarations).declareEach External.resolveNames_grows
    (fun e he => External.declares (hread.externals e he) _) p.declarations_extends_externalNames h

/-- The names of functions are reported if and only if two of them are the same. -/
theorem declared_iff (hread : p.AsRead) :
    (p.externalNames.report = [] ∧ p.functionNames.report = []) ↔
      (p.entries.map Prod.fst).Nodup ∧
        ∀ e ∈ p.externals, (e.params.map (·.ident.name)).Nodup := by
  have hes := resolveEach_report_iff External.resolveNames_grows (shows_start p.declarations)
    (fun e he => External.declares (hread.externals e he) _) p.declarations_extends_externalNames
  have hfs (hnames : ((p.externals.map External.entry).map Prod.fst).Nodup) :=
    resolveEach_report_iff Function.declareName_grows (shows_externals hread hnames)
      (fun f hf => Function.declares (hread.functions f hf) _) p.declarations_extends_functionNames
  rw [externalNames, hes, entries, List.map_append, List.nil_append]
  constructor
  · rintro ⟨⟨hnames, hparams⟩, hfunctions⟩
    exact ⟨((hfs hnames).1 hfunctions).1, hparams⟩
  · rintro ⟨hnames, hparams⟩
    have hexternals := (List.nodup_append.1 hnames).1
    exact ⟨⟨hexternals, hparams⟩, (hfs hexternals).2 ⟨hnames, fun _ _ => trivial⟩⟩

/-- If their names are different, all functions are visible behind their declarations. -/
theorem describes_declared (hread : p.AsRead) (h : (p.entries.map Prod.fst).Nodup) :
    Env.Describes (Env.extend (fun _ => none) p.entries) p.declarations p.functionNames.names := by
  rw [entries, List.map_append] at h
  rw [entries, Env.extend, List.foldl_append]
  exact ((shows_externals hread (List.nodup_append.1 h).1).declareEach Function.declareName_grows
    (fun f hf => Function.declares (hread.functions f hf) _) p.declarations_extends_functionNames
    h).toDescribes

theorem inside_iff (hread : p.AsRead) (h : (p.entries.map Prod.fst).Nodup) :
    (p.insideNames.report = [] ∧ ∀ g ∈ p.insideNames.value,
      (g.resolveTypes p.declarations).report = [] ∧
        (g.resolveTypes p.declarations).value.check p.declarations = []) ↔
      ∀ f ∈ p.functions, f.WellTyped (Env.extend (fun _ => none) p.entries) := by
  have hq : ∀ f ∈ p.functionNames.value, f.AsRead := by
    refine (forall_declared_iff ?_ _ _).2 hread.functions
    rintro f i hi
    exact ⟨fun ⟨a, b, c, d⟩ => ⟨hi ▸ a, b, c, d⟩, fun ⟨a, b, c, d⟩ => ⟨hi.symm ▸ a, b, c, d⟩⟩
  rw [insideNames, resolveInside_iff_wellTyped hq (describes_declared hread h) fun _ _ hi => hi]
  refine forall_declared_iff ?_ _ _
  rintro f i -
  exact ⟨fun ⟨a, b⟩ => ⟨a, b⟩, fun ⟨a, b⟩ => ⟨a, b⟩⟩

end Program

/-- Analysis reports nothing about a program that a text stands for if and only if the program is
well typed. -/
theorem Program.report_iff_wellTyped {p : Program} (h : p.Written) :
    p.analyze.report = [] ↔ p.WellTyped := by
  have hread := h.asRead
  have hheader (e : External) (he : e ∈ p.externals) :
      reportHeader e.returns e.params = [] ↔ _ :=
    reportHeader_iff (hread.externals e he).returns (hread.externals e he).params
  rw [Program.report_iff, Program.declared_iff hread]
  constructor
  · rintro ⟨⟨hnames, hparams⟩, hheaders, hinside⟩
    refine ⟨hnames, fun e he => ⟨(hheader e he).1 (hheaders e he), hparams e he⟩, ?_⟩
    exact (Program.inside_iff hread hnames).1 hinside
  · rintro ⟨hnames, hexternals, hfunctions⟩
    refine ⟨⟨hnames, fun e he => (hexternals e he).distinct⟩, ?_, ?_⟩
    · exact fun e he => (hheader e he).2 (hexternals e he).known
    · exact (Program.inside_iff hread hnames).2 hfunctions

/-- Each `n` hides the one outside, and `twice` is called before its text. -/
def Program.hidingText : String :=
  "extrn int printf(string format, ...) int main(bool n) " ++
    braced ("while n " ++ braced "let n: int = twice(2); printf(\"%d\", n); break;" ++
      "; let n: int = 3") ++ " int twice(int n) " ++ braced "n + n"

/-- A variable is not visible in its own initial value, where `n` is still the parameter. -/
def Program.earlyText : String := "int main(bool n) " ++ braced "let n: int = n; n"

/-- The first text is well typed and passes, the second one is neither. -/
theorem Program.report_iff_wellTyped_texts :
    (∃ p, Program.ofText? "main" Program.hidingText = some p ∧ p.Written ∧
      p.analyze.report = [] ∧ p.WellTyped) ∧
    ∃ p, Program.ofText? "main" Program.earlyText = some p ∧ p.Written ∧
      p.analyze.report ≠ [] ∧ ¬ p.WellTyped := by
  constructor
  · have hcheck : (Program.ofText? "main" Program.hidingText).any fun p =>
        p.analyze.report.isEmpty := by
      decide +kernel
    obtain ⟨p, hp, hclean⟩ := (Option.any_eq_true ..).1 hcheck
    have hwritten := Program.written_of_ofText? hp
    have hclean := List.isEmpty_iff.1 hclean
    exact ⟨p, hp, hwritten, hclean, (Program.report_iff_wellTyped hwritten).1 hclean⟩
  · have hcheck : (Program.ofText? "main" Program.earlyText).any fun p =>
        !p.analyze.report.isEmpty := by
      decide +kernel
    obtain ⟨p, hp, hfound⟩ := (Option.any_eq_true ..).1 hcheck
    have hwritten := Program.written_of_ofText? hp
    have hfound : p.analyze.report ≠ [] := by simpa using hfound
    exact ⟨p, hp, hwritten, hfound, fun h => hfound ((Program.report_iff_wellTyped hwritten).2 h)⟩

end Ilang
