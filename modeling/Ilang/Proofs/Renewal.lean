import Ilang.Proofs.Trees
/-!
# Analysis starts anew

Analysis writes all its notes again. Name resolution reads no binding of a program and no entry of
its table (`Program.resolveNames_strip`), and type resolution reads no type
(`Program.resolveTypes_strip`). So it does not matter which of these notes a program had before, and
a second analysis leaves everything as it is (`Program.analyze_anew`).
-/
namespace Ilang

/-! ## All notes -/

namespace Keep

/-- All notes. -/
def everything : Keep := ⟨true, true, true⟩

theorem ident_everything (i : Ident) : everything.ident i = i := rfl

theorem node_everything (n : Node) : everything.node n = n := rfl

theorem label_everything (constant : Option String) : everything.label constant = constant := rfl

/-- What is kept, and all bindings with it. -/
def rebound (k : Keep) : Keep := { k with bindings := true }

theorem node_rebound (k : Keep) (n : Node) : k.rebound.node n = k.node n := rfl

theorem label_rebound (k : Keep) (constant : Option String) :
    k.rebound.label constant = k.label constant := rfl

end Keep

mutual

theorem Expr.strip_everything (e : Expr) : e.strip .everything = e := by
  cases e <;>
    simp [Expr.strip, Keep.ident_everything, Keep.node_everything, Keep.label_everything,
      Expr.strip_everything, stripAll_everything, stripOpt_everything]

theorem stripAll_everything (es : List Expr) : stripAll .everything es = es := by
  cases es <;> simp [stripAll, Expr.strip_everything, stripAll_everything]

theorem stripOpt_everything (e : Option Expr) : stripOpt .everything e = e := by
  cases e <;> simp [stripOpt, Expr.strip_everything]

end

theorem Param.strip_everything : Param.strip .everything = id := rfl

theorem External.strip_everything : External.strip .everything = id := by
  funext e
  simp [External.strip, Keep.ident_everything, Param.strip_everything]

theorem Function.strip_everything : Function.strip .everything = id := by
  funext f
  simp [Function.strip, Keep.ident_everything, Param.strip_everything, Expr.strip_everything]

theorem Program.strip_everything (p : Program) : p.strip .everything = p := by
  unfold Program.strip
  rw [Function.strip_everything, External.strip_everything, List.map_id, List.map_id]
  rfl

/-! ## Names -/

/-- The same names and the same report with another piece of a program. -/
def Resolved.map {α β : Type} (g : α → β) (r : Resolved α) : Resolved β :=
  ⟨g r.value, r.names, r.report⟩

namespace Names

variable (k : Keep) (s : Names) (i : Ident)

theorem refer_strip : s.refer (k.ident i) = (s.refer i).map k.rebound.ident := rfl

theorem declare_strip (kind : DeclKind) (ty : Ty) (signature : Option Signature) :
    s.declare (k.ident i) kind ty signature =
      (s.declare i kind ty signature).map k.rebound.ident := by
  unfold Names.declare Resolved.map
  dsimp only [Keep.ident]
  split <;> rfl

end Names

mutual

/-- Name resolution does not read bindings, and leaves the other notes as they are. -/
theorem Expr.resolveNames_strip (k : Keep) (s : Names) (e : Expr) :
    (e.strip k).resolveNames s = (e.resolveNames s).map (Expr.strip k.rebound) := by
  cases e <;>
    simp [Expr.strip, Expr.resolveNames, Resolved.map, Keep.node_rebound, Keep.label_rebound,
      Names.refer_strip, Names.declare_strip, Expr.resolveNames_strip, resolveNamesAll_strip,
      resolveNamesOpt_strip]

theorem resolveNamesAll_strip (k : Keep) (s : Names) (es : List Expr) :
    resolveNamesAll s (stripAll k es) = (resolveNamesAll s es).map (stripAll k.rebound) := by
  cases es <;>
    simp [stripAll, resolveNamesAll, Resolved.map, Expr.resolveNames_strip, resolveNamesAll_strip]

theorem resolveNamesOpt_strip (k : Keep) (s : Names) (e : Option Expr) :
    resolveNamesOpt s (stripOpt k e) = (resolveNamesOpt s e).map (stripOpt k.rebound) := by
  cases e <;> simp [stripOpt, resolveNamesOpt, Resolved.map, Expr.resolveNames_strip]

end

/-- What each part of a list does with other notes, the list does. -/
theorem resolveEach_map {α : Type} {resolve : Names → α → Resolved α} {g g' : α → α}
    (h : ∀ s a, resolve s (g a) = (resolve s a).map g') (s : Names) (as : List α) :
    resolveEach resolve s (as.map g) = (resolveEach resolve s as).map (List.map g') := by
  induction as generalizing s with
  | nil => rfl
  | cons a as ih => simp [resolveEach, Resolved.map, h, ih]

theorem Param.resolveNames_strip (k : Keep) (s : Names) (p : Param) :
    (p.strip k).resolveNames s = (p.resolveNames s).map (Param.strip k.rebound) := by
  simp [Param.resolveNames, Param.strip, Resolved.map, Names.declare_strip]

theorem signatureOf_strip (k : Keep) (params : List Param) (variadic : Bool) :
    signatureOf (params.map (Param.strip k)) variadic = signatureOf params variadic := by
  simp [signatureOf, Param.strip]

theorem External.resolveNames_strip (k : Keep) (s : Names) (e : External) :
    (e.strip k).resolveNames s = (e.resolveNames s).map (External.strip k.rebound) := by
  simp [External.resolveNames, External.strip, Resolved.map, Names.declare_strip, signatureOf_strip,
    resolveEach_map (Param.resolveNames_strip k)]

/-- A function whose name has been declared, but with only some of the notes inside it. -/
def Function.stripInside (k : Keep) (f : Function) : Function :=
  { f.strip k with ident := k.rebound.ident f.ident }

theorem Function.declareName_strip (k : Keep) (s : Names) (f : Function) :
    (f.strip k).declareName s = (f.declareName s).map (Function.stripInside k) := by
  simp [Function.declareName, Function.strip, Function.stripInside, Resolved.map,
    Names.declare_strip, signatureOf_strip]

theorem Function.resolveInside_strip (k : Keep) (s : Names) (f : Function) :
    (f.stripInside k).resolveInside s = (f.resolveInside s).map (Function.strip k.rebound) := by
  simp [Function.resolveInside, Function.strip, Function.stripInside, Resolved.map,
    Expr.resolveNames_strip, resolveEach_map (Param.resolveNames_strip k)]

theorem Program.resolveNames_strip (k : Keep) (p : Program) :
    (p.strip k).resolveNames = (p.resolveNames.1.strip k.rebound, p.resolveNames.2) := by
  simp [Program.resolveNames, Program.strip, Resolved.map,
    resolveEach_map (External.resolveNames_strip k), resolveEach_map (Function.declareName_strip k),
    resolveEach_map (Function.resolveInside_strip k), Keep.rebound]

/-! ## Types -/

theorem Keep.ident_allButTypes (i : Ident) : Keep.allButTypes.ident i = i := rfl

theorem Keep.label_allButTypes (constant : Option String) :
    Keep.allButTypes.label constant = constant := rfl

mutual

/-- Type resolution does not read types. -/
theorem Expr.resolveTypes_strip (table : DeclTable) (e : Expr) :
    (e.strip .allButTypes).resolveTypes table = e.resolveTypes table := by
  cases e <;>
    simp [Expr.strip, Expr.resolveTypes, Keep.ident_allButTypes, Keep.label_allButTypes,
      Keep.location_node, Expr.resolveTypes_strip, resolveTypesAll_strip, resolveTypesOpt_strip]

theorem resolveTypesAll_strip (table : DeclTable) (es : List Expr) :
    resolveTypesAll table (stripAll .allButTypes es) = resolveTypesAll table es := by
  cases es <;> simp [stripAll, resolveTypesAll, Expr.resolveTypes_strip, resolveTypesAll_strip]

theorem resolveTypesOpt_strip (table : DeclTable) (e : Option Expr) :
    resolveTypesOpt table (stripOpt .allButTypes e) = resolveTypesOpt table e := by
  cases e <;> simp [stripOpt, resolveTypesOpt, Expr.resolveTypes_strip]

end

theorem Param.strip_allButTypes : Param.strip .allButTypes = id := rfl

theorem External.strip_allButTypes : External.strip .allButTypes = id := by
  funext e
  simp [External.strip, Keep.ident_allButTypes, Param.strip_allButTypes]

theorem Function.resolveTypes_strip (table : DeclTable) (f : Function) :
    (f.strip .allButTypes).resolveTypes table = f.resolveTypes table := by
  simp [Function.resolveTypes, Function.strip, Keep.ident_allButTypes, Param.strip_allButTypes,
    Expr.resolveTypes_strip]

theorem Program.resolveTypes_strip (p : Program) :
    (p.strip .allButTypes).resolveTypes = p.resolveTypes := by
  have htable : (p.strip .allButTypes).table = p.table := rfl
  have hexternals : (p.strip .allButTypes).externals = p.externals := by
    simp [Program.strip, External.strip_allButTypes]
  have hfunctions : (p.strip .allButTypes).functions.map (Function.resolveTypes p.table) =
      p.functions.map (Function.resolveTypes p.table) := by
    simp [Program.strip, Function.resolveTypes_strip]
  simp only [Program.resolveTypes, htable, hexternals, hfunctions]

/-! ## The result -/

/-- Name resolution writes bindings and the table only. -/
theorem Program.strip_bound (p : Program) :
    p.resolveNames.1.strip .allButBindings = p.strip .allButBindings := by
  have hexternals : p.resolveNames.1.externals.map (External.strip .allButBindings) =
      p.externals.map (External.strip .allButBindings) :=
    map_resolveEach External.strip_resolveNames _ _
  simp only [Program.strip, p.strip_resolveNames, hexternals]
  rfl

/-- Type resolution writes types only. -/
theorem Program.strip_typed (p : Program) :
    p.resolveTypes.1.strip .allButTypes = p.strip .allButTypes := by
  simp only [Program.strip, p.strip_resolveTypes]
  rfl

/-- Analysis writes bindings, the table and types only. -/
theorem Program.strip_analyze (p : Program) :
    p.analyze.program.strip .onlyPlaces = p.strip .onlyPlaces := by
  have htyped : p.analyze.program.strip .onlyPlaces = p.resolveNames.1.strip .onlyPlaces :=
    strip_eq_of_strip_eq rfl p.resolveNames.1.strip_typed
  have hbound : p.resolveNames.1.strip .onlyPlaces = p.strip .onlyPlaces :=
    strip_eq_of_strip_eq rfl p.strip_bound
  exact htyped.trans hbound

/-- Analysis reads only what it does not write. -/
theorem Program.analyze_strip (p : Program) : (p.strip .onlyPlaces).analyze = p.analyze := by
  have hnames : (p.strip .onlyPlaces).resolveNames =
      (p.resolveNames.1.strip .allButTypes, p.resolveNames.2) :=
    p.resolveNames_strip .onlyPlaces
  simp only [Program.analyze, hnames, Program.resolveTypes_strip]

theorem Program.analyze_eq_of_strip_eq {p q : Program}
    (h : q.strip .onlyPlaces = p.strip .onlyPlaces) : q.analyze = p.analyze := by
  rw [← q.analyze_strip, h, p.analyze_strip]

/-- Name resolution a second time binds everything as before. -/
theorem Program.resolveNames_again (p : Program) :
    p.resolveNames.1.resolveNames = p.resolveNames := by
  have hsame : ∀ q : Program, (q.strip .allButBindings).resolveNames = q.resolveNames := by
    intro q
    rw [resolveNames_strip, show Keep.allButBindings.rebound = .everything from rfl,
      strip_everything]
  rw [← hsame, p.strip_bound, hsame]

/-- It does not matter which bindings, types and declarations a program has before analysis, and
analysis changes nothing else. So a second one leaves the program and its report as they are, and so
does name resolution alone. -/
theorem Program.analyze_anew (p : Program) :
    (∀ q : Program, q.strip .onlyPlaces = p.strip .onlyPlaces → q.analyze = p.analyze) ∧
      p.analyze.program.strip .onlyPlaces = p.strip .onlyPlaces ∧
      p.analyze.program.analyze = p.analyze ∧
      p.resolveNames.1.resolveNames = p.resolveNames := by
  have hsame := p.strip_analyze
  refine ⟨?_, hsame, ?_, p.resolveNames_again⟩
  · intro q hq
    exact analyze_eq_of_strip_eq hq
  · exact analyze_eq_of_strip_eq hsame

/-- A function `main(int n): int { let m: int = n; x }` in which all names have the same binding and
all expressions the same type. -/
def Program.noted (binding : Option Nat) (ty : Ty) (table : DeclTable) : Program :=
  let i (name : String) : Ident := { name, location := .unknown, binding }
  let n : Node := { location := .unknown, ty }
  let t := TypeRef.ofName "int" .unknown
  let body := Expr.block n [.bind n (i "m") t (.var n (i "n"))] (some (.var n (i "x")))
  { functions := [⟨i "main", t, [⟨i "n", t⟩], body, .unknown⟩], table }

/-- A declaration of `x` that is left over from before does not hide that `x` is not declared. -/
theorem Program.analyze_anew_noted :
    ∃ p q : Program, p = .noted (some 0) .int #[⟨"x", .letBound, .int, .unknown, none⟩] ∧
      q = .noted none .undefined #[] ∧ q.strip .onlyPlaces = p.strip .onlyPlaces ∧
      q.analyze = p.analyze ∧
      p.analyze.report.map (·.message) = ["undeclared identifier x", "cannot resolve type of x",
        "function main returns int but its body has type undefined"] ∧
      p.analyze.program.strip .onlyPlaces = p.strip .onlyPlaces ∧
      p.analyze.program.analyze = p.analyze ∧
      p.resolveNames.1.resolveNames = p.resolveNames := by
  obtain ⟨hforgets, hkeeps, hagain, hnames⟩ := Program.analyze_anew
    (.noted (some 0) .int #[⟨"x", .letBound, .int, .unknown, none⟩])
  have hstrip : (Program.noted none .undefined #[]).strip .onlyPlaces =
    (Program.noted (some 0) .int #[⟨"x", .letBound, .int, .unknown, none⟩]).strip .onlyPlaces := rfl
  exact ⟨_, _, rfl, rfl, hstrip, hforgets _ hstrip, by decide +kernel, hkeeps, hagain, hnames⟩

end Ilang
