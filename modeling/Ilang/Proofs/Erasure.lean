import Ilang.Assembly
import Ilang.Proofs.Reprinting
/-!
# Passes over programs without locations

No pass asks where something stands. Each one does to a program without locations what it does to
the program itself, but for the locations that it copies: name resolution
(`Program.resolveNames_erased`), type resolution (`Program.resolveTypes_erased`), the type rules
(`Program.check_erased`), all three together (`Program.analyze_erased`) and making the assembly
(`Program.generate_erased`).
-/
namespace Ilang

/-! ## What is left of names and types -/

section
variable (i : Ident) (t : TypeRef)

@[simp] theorem Ident.name_unlocated : i.unlocated.name = i.name := rfl

@[simp] theorem Ident.binding_unlocated : i.unlocated.binding = i.binding := rfl

@[simp] theorem Ident.slot_unlocated : i.unlocated.slot = i.slot := rfl

@[simp] theorem TypeRef.ty_unlocated : t.unlocated.ty = t.ty := rfl

end

theorem length_unlocatedAll (es : List Expr) : (unlocatedAll es).length = es.length := by
  induction es with
  | nil => rfl
  | cons e es ih => simp [unlocatedAll, ih]

/-! ## What is left of a report -/

/-- A declaration without its location. -/
def Declaration.unlocated (d : Declaration) : Declaration := { d with location := .unknown }

/-- A table without locations. -/
def DeclTable.unlocated (table : DeclTable) : DeclTable := table.map Declaration.unlocated

/-- What a diagnostic says without locations: its kind, its message and how many notes it has. -/
def Diagnostic.gist (d : Diagnostic) : DiagnosticKind × String × Nat :=
  (d.kind, d.message, d.notes.length)

/-- What a report says without locations, in order. -/
def Report.gist (r : Report) : List (DiagnosticKind × String × Nat) := r.map Diagnostic.gist

/-- What a problem is, wherever it is. -/
def Problem.gist (p : Problem) : DiagnosticKind × String × Nat :=
  (p.kind, p.message, p.notes.length)

namespace Report

@[simp] theorem gist_nil : gist [] = [] := rfl

@[simp] theorem gist_append (r s : Report) : gist (r ++ s) = gist r ++ gist s := List.map_append

@[simp] theorem gist_cons (p : Problem) (l : Location) (r : Report) :
    gist (p.located l :: r) = p.gist :: gist r := rfl

@[simp] theorem gist_ite (c : Prop) [Decidable c] (r s : Report) :
    gist (if c then r else s) = if c then gist r else gist s :=
  apply_ite gist c r s

theorem gist_flatMap {α β : Type} {as : List α} {u : α → β} {r : α → Report} {s : β → Report}
    (h : ∀ a, (s (u a)).gist = (r a).gist) : gist ((as.map u).flatMap s) = gist (as.flatMap r) := by
  induction as with
  | nil => rfl
  | cons a as ih => simp [h, ih]

end Report

theorem Problem.gist_duplicate (name : String) {l l' : Option Location}
    (h : l'.isSome = l.isSome) : (duplicate name l').gist = (duplicate name l).gist := by
  cases l <;> cases l' <;> first | rfl | cases h

/-! ## Names -/

/-- Names without the locations of their declarations. -/
def Names.unlocated (s : Names) : Names := { s with table := s.table.unlocated }

/-- The same was resolved but for locations. -/
@[simp] abbrev Resolved.Unlocates {α β : Type} (u : α → β) (r : Resolved α) (r' : Resolved β) :
    Prop :=
  r'.value = u r.value ∧ r'.names = r.names.unlocated ∧ r'.report.gist = r.report.gist

namespace Names

variable (s : Names) (i : Ident)

@[simp] theorem unlocated_table : s.unlocated.table = s.table.unlocated := rfl

@[simp] theorem unlocated_enter : s.unlocated.enter = s.enter.unlocated := rfl

@[simp] theorem unlocated_leave : s.unlocated.leave = s.leave.unlocated := rfl

theorem declare_unlocated (kind : DeclKind) (ty : Ty) (signature : Option Signature) :
    (s.declare i kind ty signature).Unlocates Ident.unlocated
      (s.unlocated.declare i.unlocated kind ty signature) := by
  have hsize : s.unlocated.table.size = s.table.size := by simp [unlocated, DeclTable.unlocated]
  have hpush : s.unlocated.table.push ⟨i.name, kind, ty, .unknown, signature⟩ =
      DeclTable.unlocated (s.table.push ⟨i.name, kind, ty, i.location, signature⟩) := by
    simp [unlocated, DeclTable.unlocated, Declaration.unlocated]
  have hscopes : s.unlocated.scopes = s.scopes := rfl
  unfold declare
  dsimp only
  rw [hscopes, Ident.name_unlocated, hsize, Scopes.declare_eq]
  cases s.scopes.innermost? i.name with
  | none => exact ⟨rfl, congrArg (Names.mk _) hpush, rfl⟩
  | some existing =>
    refine ⟨rfl, congrArg (Names.mk s.scopes) hpush, congrArg (· :: []) ?_⟩
    -- The note quotes where the name was declared first, so the two differ there and only there.
    refine Problem.gist_duplicate i.name ?_
    rw [show i.unlocated.location = .unknown from rfl, hpush, DeclTable.unlocated,
      Option.isSome_map, Option.isSome_map, Array.getElem?_map, Option.isSome_map]

theorem refer_unlocated :
    (s.refer i).Unlocates Ident.unlocated (s.unlocated.refer i.unlocated) := by
  refine ⟨rfl, rfl, ?_⟩
  simp only [refer, Report.gist_ite, Report.gist_cons]
  rfl

end Names

mutual

/-- Name resolution does not ask for locations. -/
theorem Expr.resolveNames_unlocated (s : Names) (e : Expr) :
    (e.resolveNames s).Unlocates Expr.unlocated (e.unlocated.resolveNames s.unlocated) := by
  cases e <;>
    simp [Expr.unlocated, Expr.resolveNames, Names.declare_unlocated, Names.refer_unlocated,
      Expr.resolveNames_unlocated, resolveNamesAll_unlocated, resolveNamesOpt_unlocated]

theorem resolveNamesAll_unlocated (s : Names) (es : List Expr) :
    (resolveNamesAll s es).Unlocates unlocatedAll
      (resolveNamesAll s.unlocated (unlocatedAll es)) := by
  cases es <;>
    simp [unlocatedAll, resolveNamesAll, Expr.resolveNames_unlocated, resolveNamesAll_unlocated]

theorem resolveNamesOpt_unlocated (s : Names) (e : Option Expr) :
    (resolveNamesOpt s e).Unlocates unlocatedOpt (resolveNamesOpt s.unlocated (unlocatedOpt e)) := by
  cases e <;> simp [unlocatedOpt, resolveNamesOpt, Expr.resolveNames_unlocated]

end

/-- What each part of a list does without locations, the list does. -/
theorem resolveEach_unlocated {α : Type} {resolve : Names → α → Resolved α} {u : α → α}
    (h : ∀ s a, (resolve s a).Unlocates u (resolve s.unlocated (u a))) (s : Names) (as : List α) :
    (resolveEach resolve s as).Unlocates (List.map u)
      (resolveEach resolve s.unlocated (as.map u)) := by
  induction as generalizing s with
  | nil => exact ⟨rfl, rfl, rfl⟩
  | cons a as ih => simp [resolveEach, h, ih]

theorem Param.resolveNames_unlocated (s : Names) (p : Param) :
    (p.resolveNames s).Unlocates Param.unlocated (p.unlocated.resolveNames s.unlocated) := by
  simp [Param.resolveNames, Param.unlocated, Names.declare_unlocated]

@[simp] theorem signatureOf_unlocated (params : List Param) (variadic : Bool) :
    signatureOf (params.map Param.unlocated) variadic = signatureOf params variadic := by
  simp [signatureOf, Param.unlocated]

theorem External.resolveNames_unlocated (s : Names) (e : External) :
    (e.resolveNames s).Unlocates External.unlocated (e.unlocated.resolveNames s.unlocated) := by
  simp [External.resolveNames, External.unlocated, Names.declare_unlocated,
    resolveEach_unlocated Param.resolveNames_unlocated]

theorem Function.declareName_unlocated (s : Names) (f : Function) :
    (f.declareName s).Unlocates Function.unlocated (f.unlocated.declareName s.unlocated) := by
  simp [Function.declareName, Function.unlocated, Names.declare_unlocated]

theorem Function.resolveInside_unlocated (s : Names) (f : Function) :
    (f.resolveInside s).Unlocates Function.unlocated (f.unlocated.resolveInside s.unlocated) := by
  simp [Function.resolveInside, Function.unlocated, Expr.resolveNames_unlocated,
    resolveEach_unlocated Param.resolveNames_unlocated]

/-- A program without locations, also in its table. -/
def Program.erased (p : Program) : Program := { p.unlocated with table := p.table.unlocated }

theorem Program.resolveNames_erased (p : Program) :
    p.erased.resolveNames.1 = p.resolveNames.1.erased ∧
      p.erased.resolveNames.2.gist = p.resolveNames.2.gist := by
  -- Resolution starts with an empty table, whatever the program has.
  have hstart : ({} : Names).enter.unlocated = ({} : Names).enter := by
    simp [Names.enter, Names.unlocated, DeclTable.unlocated]
  have hexternals := resolveEach_unlocated External.resolveNames_unlocated ({} : Names).enter
    p.externals
  rw [hstart] at hexternals
  simp [Program.resolveNames, Program.erased, Program.unlocated, hexternals,
    resolveEach_unlocated Function.declareName_unlocated,
    resolveEach_unlocated Function.resolveInside_unlocated]

/-! ## Types -/

@[simp] theorem Expr.ty_unlocated (e : Expr) : e.unlocated.ty = e.ty := by
  cases e <;> rfl

section
variable (table : DeclTable) (i : Ident)

theorem DeclTable.find_unlocated (binding : Option Nat) :
    table.unlocated.find binding = (table.find binding).map Declaration.unlocated := by
  cases binding <;> simp [DeclTable.find, DeclTable.unlocated]

@[simp] theorem DeclTable.typeOf?_unlocated :
    table.unlocated.typeOf? i.unlocated = table.typeOf? i := by
  rw [DeclTable.typeOf?, DeclTable.find_unlocated, Option.map_map]
  rfl

@[simp] theorem DeclTable.typeOf_unlocated :
    table.unlocated.typeOf i.unlocated = table.typeOf i := by
  simp [DeclTable.typeOf]

@[simp] theorem DeclTable.reportUntyped_unlocated :
    (table.unlocated.reportUntyped i.unlocated).gist = (table.reportUntyped i).gist := by
  simp only [DeclTable.reportUntyped, DeclTable.typeOf?_unlocated, Report.gist_ite,
    Report.gist_cons]
  rfl

@[simp] theorem TypeRef.report_unlocated (t : TypeRef) :
    t.unlocated.report.gist = t.report.gist := by
  simp only [TypeRef.report, Report.gist_ite, Report.gist_cons]
  rfl

end

/-- The same got types but for locations. -/
@[simp] abbrev Typed.Unlocates {α β : Type} (u : α → β) (r : Typed α) (r' : Typed β) : Prop :=
  r'.value = u r.value ∧ r'.report.gist = r.report.gist

theorem Node.unlocated_with_ty (n : Node) (t : Ty) :
    ({ n.unlocated with ty := t } : Node) = ({ n with ty := t } : Node).unlocated := rfl

mutual

/-- Type resolution does not ask for locations. -/
theorem Expr.resolveTypes_unlocated (table : DeclTable) (e : Expr) :
    (e.resolveTypes table).Unlocates Expr.unlocated (e.unlocated.resolveTypes table.unlocated) := by
  cases e with
  | literal n text constant =>
    simp only [Expr.unlocated, Expr.resolveTypes]
    split <;> exact ⟨rfl, rfl⟩
  | block n body result =>
    have hty : ∀ e : Option Expr, (unlocatedOpt e).map Expr.ty = e.map Expr.ty := by
      intro e
      cases e <;> simp [unlocatedOpt]
    simp [Expr.unlocated, Expr.resolveTypes, Node.unlocated_with_ty, resolveTypesAll_unlocated,
      resolveTypesOpt_unlocated, hty]
  | _ =>
    simp [Expr.unlocated, Expr.resolveTypes, Node.unlocated_with_ty, Expr.resolveTypes_unlocated,
      resolveTypesAll_unlocated, resolveTypesOpt_unlocated]

theorem resolveTypesAll_unlocated (table : DeclTable) (es : List Expr) :
    (resolveTypesAll table es).Unlocates unlocatedAll
      (resolveTypesAll table.unlocated (unlocatedAll es)) := by
  cases es <;>
    simp [unlocatedAll, resolveTypesAll, Expr.resolveTypes_unlocated, resolveTypesAll_unlocated]

theorem resolveTypesOpt_unlocated (table : DeclTable) (e : Option Expr) :
    (resolveTypesOpt table e).Unlocates unlocatedOpt
      (resolveTypesOpt table.unlocated (unlocatedOpt e)) := by
  cases e <;> simp [unlocatedOpt, resolveTypesOpt, Expr.resolveTypes_unlocated]

end

theorem reportHeader_unlocated (returns : TypeRef) (params : List Param) :
    (reportHeader returns.unlocated (params.map Param.unlocated)).gist =
      (reportHeader returns params).gist := by
  have hparams : Report.gist ((params.map Param.unlocated).flatMap (·.type.report)) =
      Report.gist (params.flatMap (·.type.report)) :=
    Report.gist_flatMap fun p => TypeRef.report_unlocated p.type
  rw [reportHeader, reportHeader, Report.gist_append, Report.gist_append, TypeRef.report_unlocated,
    hparams]

theorem Function.resolveTypes_unlocated (table : DeclTable) (f : Function) :
    (f.resolveTypes table).Unlocates Function.unlocated
      (f.unlocated.resolveTypes table.unlocated) := by
  simp [Function.resolveTypes, Function.unlocated, Expr.resolveTypes_unlocated,
    reportHeader_unlocated]

theorem Program.resolveTypes_erased (p : Program) :
    p.erased.resolveTypes.1 = p.resolveTypes.1.erased ∧
      p.erased.resolveTypes.2.gist = p.resolveTypes.2.gist := by
  have hheaders : Report.gist ((p.externals.map External.unlocated).flatMap fun e =>
      reportHeader e.returns e.params) =
      Report.gist (p.externals.flatMap fun e => reportHeader e.returns e.params) :=
    Report.gist_flatMap fun (e : External) => reportHeader_unlocated e.returns e.params
  have hreports : Report.gist ((p.functions.map Function.unlocated).flatMap fun f =>
      (f.resolveTypes p.table.unlocated).report) =
      Report.gist (p.functions.flatMap fun f => (f.resolveTypes p.table).report) :=
    Report.gist_flatMap fun f => (f.resolveTypes_unlocated p.table).2
  rw [List.flatMap_map] at hheaders hreports
  constructor
  · simp [Program.resolveTypes, Program.erased, Program.unlocated, Function.comp_def,
      Function.resolveTypes_unlocated]
  · simp only [Program.resolveTypes, Program.erased, Program.unlocated, Report.gist_append,
      List.map_map, List.flatMap_map]
    exact congrArg₂ (· ++ ·) hheaders hreports

/-! ## Type rules -/

namespace DeclTable

variable (table : DeclTable) (i : Ident)

@[simp] theorem checkValue_unlocated :
    (table.unlocated.checkValue i.unlocated).gist = (table.checkValue i).gist := by
  unfold checkValue
  rw [find_unlocated, Ident.binding_unlocated]
  cases table.find i.binding with
  | none => rfl
  | some d =>
    simp only [Option.map_some, Report.gist_ite, Report.gist_cons]
    rfl

theorem missingArguments_unlocated (name : String) (l l' : Location) (position : Nat)
    (ts : List Ty) :
    (missingArguments name l' position ts).gist = (missingArguments name l position ts).gist := by
  induction ts generalizing position with
  | nil => rfl
  | cons t ts ih => simp [missingArguments, ih]

theorem checkArguments_unlocated (name : String) (l l' : Location) (variadic : Bool)
    (position : Nat) (es : List Expr) (ts : List Ty) :
    (checkArguments name l' variadic position (unlocatedAll es) ts).gist =
      (checkArguments name l variadic position es ts).gist := by
  fun_induction checkArguments name l variadic position es ts with
  | case1 => exact missingArguments_unlocated ..
  | case2 position a as t ts ih => simp [unlocatedAll, checkArguments, ih]
  | case3 position a as ih => simp [unlocatedAll, checkArguments, ih]

@[simp] theorem checkCall_unlocated (es : List Expr) (l l' : Location) :
    (table.unlocated.checkCall i.unlocated (unlocatedAll es) l').gist =
      (table.checkCall i es l).gist := by
  unfold checkCall
  rw [find_unlocated, Ident.binding_unlocated]
  cases table.find i.binding with
  | none => rfl
  | some d =>
    dsimp only [Option.map_some]
    rw [show d.unlocated.signature = d.signature from rfl]
    cases d.signature with
    | none => rfl
    | some signature =>
      simp only [Report.gist_append, Report.gist_ite, Report.gist_cons, length_unlocatedAll,
        Ident.name_unlocated, checkArguments_unlocated i.name l l']

end DeclTable

@[simp] theorem checkCondition_unlocated (construct : Conditional) (e : Expr) :
    (checkCondition construct e.unlocated).gist = (checkCondition construct e).gist := by
  simp [checkCondition]

mutual

/-- The type rules do not ask for locations. -/
theorem Expr.check_unlocated (table : DeclTable) (returns : Ty) (depth : Nat) (e : Expr) :
    (e.unlocated.check table.unlocated returns depth).gist =
      (e.check table returns depth).gist := by
  cases e with
  | call n callee arguments =>
    simp [Expr.unlocated, Expr.check, checkAll_unlocated, table.checkCall_unlocated callee arguments
      n.location]
  | assign n target value =>
    simp only [Expr.unlocated, Expr.check, Report.gist_append, Expr.check_unlocated,
      DeclTable.checkValue_unlocated, DeclTable.find_unlocated, Ident.binding_unlocated]
    cases table.find target.binding with
    | none => rfl
    | some d => simp [Declaration.unlocated]
  | branch n condition onTrue onFalse =>
    cases onFalse <;>
      simp [Expr.unlocated, unlocatedOpt, Expr.check, checkOpt, Expr.check_unlocated]
  | _ =>
    simp [Expr.unlocated, Expr.check, Expr.check_unlocated, checkAll_unlocated, checkOpt_unlocated]

theorem checkAll_unlocated (table : DeclTable) (returns : Ty) (depth : Nat) (es : List Expr) :
    (checkAll table.unlocated returns depth (unlocatedAll es)).gist =
      (checkAll table returns depth es).gist := by
  cases es <;> simp [unlocatedAll, checkAll, Expr.check_unlocated, checkAll_unlocated]

theorem checkOpt_unlocated (table : DeclTable) (returns : Ty) (depth : Nat) (e : Option Expr) :
    (checkOpt table.unlocated returns depth (unlocatedOpt e)).gist =
      (checkOpt table returns depth e).gist := by
  cases e <;> simp [unlocatedOpt, checkOpt, Expr.check_unlocated]

end

theorem Function.check_unlocated (table : DeclTable) (f : Function) :
    (f.unlocated.check table.unlocated).gist = (f.check table).gist := by
  simp [Function.check, Function.unlocated, Expr.check_unlocated]

theorem Program.check_erased (p : Program) : p.erased.check.gist = p.check.gist :=
  Report.gist_flatMap fun f => f.check_unlocated p.table

/-- Analysis makes of a program without locations what it makes of the program, and reports the same
in every pass but for locations. -/
theorem Program.analyze_erased (p : Program) :
    p.erased.analyze.program = p.analyze.program.erased ∧
      p.erased.analyze.names.gist = p.analyze.names.gist ∧
      p.erased.analyze.types.gist = p.analyze.types.gist ∧
      p.erased.analyze.checks.gist = p.analyze.checks.gist := by
  obtain ⟨hnamed, hnames⟩ := p.resolveNames_erased
  obtain ⟨htyped, htypes⟩ := p.resolveNames.1.resolveTypes_erased
  simp only [Program.analyze, hnamed, htyped]
  exact ⟨trivial, hnames, htypes, Program.check_erased _⟩

/-! ## Placement -/

/-- An error without its location. -/
def GenError.unlocated : GenError → GenError
  | redeclaredFunction name _ => redeclaredFunction name .unknown
  | unresolvedLocal name _ => unresolvedLocal name .unknown
  | redefinedLocal name _ => redefinedLocal name .unknown
  | tooManyArguments callee count max _ => tooManyArguments callee count max .unknown
  | unsupportedLiteral text ty _ => unsupportedLiteral text ty .unknown
  | breakOutsideLoop _ => breakOutsideLoop .unknown
  | e => e

/-- The same walk over a piece of a program without locations. -/
def Placed.unlocated {α β : Type} (u : α → β) (p : Placed α) : Placed β :=
  ⟨u p.value, p.layout, p.error.map GenError.unlocated⟩

namespace Placed

variable {α β γ δ : Type} {u : α → γ} {v : β → δ} (p : Placed α)

theorem map_unlocated {f : α → β} {g : γ → δ} (h : ∀ a, g (u a) = v (f a)) :
    (p.unlocated u).map g = (p.map f).unlocated v := by
  simp [map, unlocated, h]

theorem leave_unlocated : (p.unlocated u).leave = p.leave.unlocated u := rfl

theorem andThen_unlocated {second : β} {go : Layout → Placed β} {go' : Layout → Placed δ}
    (h : ∀ s, go' s = (go s).unlocated v) :
    (p.unlocated u).andThen (v second) go' =
      (p.andThen second go).unlocated (Prod.map u v) := by
  obtain ⟨value, layout, error⟩ := p
  cases error with
  | none => simp [andThen, unlocated, map, h]
  | some e => rfl

end Placed

section
variable (s : Layout) (ty : Ty) (i : Ident)

theorem Layout.register_unlocated :
    s.register ty i.unlocated = (s.register ty i).unlocated Ident.unlocated := by
  unfold Layout.register Frame.register
  dsimp only [Ident.name_unlocated]
  rw [Scopes.declare_eq]
  cases s.frame.scopes.innermost? i.name <;> rfl

theorem Layout.bind_unlocated : s.bind i.unlocated = (s.bind i).unlocated Ident.unlocated := by
  unfold Layout.bind Frame.resolve
  rw [Ident.name_unlocated]
  cases s.frame.scopes.lookup i.name <;> rfl

end

mutual

/-- Placement does not ask for locations. -/
theorem Expr.place_unlocated (s : Layout) (e : Expr) :
    e.unlocated.place s = (e.place s).unlocated Expr.unlocated := by
  cases e with
  | literal n text constant =>
    simp only [Expr.unlocated, Expr.place]
    rw [show n.unlocated.ty = n.ty from rfl]
    split <;> rfl
  | var n ident =>
    rw [Expr.unlocated, Expr.place, Layout.bind_unlocated]
    exact Placed.map_unlocated _ fun i => rfl
  | call n callee arguments =>
    rw [Expr.unlocated, Expr.place, placeAll_unlocated]
    exact Placed.map_unlocated _ fun es => rfl
  | block n body result =>
    rw [Expr.unlocated, Expr.place, placeAll_unlocated,
      Placed.andThen_unlocated _ fun s => placeOpt_unlocated s result, Placed.leave_unlocated]
    exact Placed.map_unlocated _ fun r => rfl
  | bind n ident type value =>
    rw [Expr.unlocated, Expr.place, Expr.place_unlocated, TypeRef.ty_unlocated,
      Placed.andThen_unlocated _ fun s => Layout.register_unlocated s type.ty ident]
    exact Placed.map_unlocated _ fun r => rfl
  | assign n target value =>
    rw [Expr.unlocated, Expr.place, Expr.place_unlocated,
      Placed.andThen_unlocated _ fun s => Layout.bind_unlocated s target]
    exact Placed.map_unlocated _ fun r => rfl
  | binary n op left right =>
    rw [Expr.unlocated, Expr.place, Expr.place_unlocated,
      Placed.andThen_unlocated _ fun s => Expr.place_unlocated s right]
    exact Placed.map_unlocated _ fun r => rfl
  | unary | group | ret =>
    rw [Expr.unlocated, Expr.place, Expr.place_unlocated]
    exact Placed.map_unlocated _ fun e => rfl
  | branch n condition onTrue onFalse =>
    rw [Expr.unlocated, Expr.place, Expr.place_unlocated,
      Placed.andThen_unlocated _ fun s => Expr.place_unlocated s onTrue,
      Placed.andThen_unlocated _ fun s => placeOpt_unlocated s onFalse]
    exact Placed.map_unlocated _ fun r => rfl
  | loop n condition body =>
    rw [Expr.unlocated, Expr.place, Expr.place_unlocated,
      Placed.andThen_unlocated _ fun s => Expr.place_unlocated s body]
    exact Placed.map_unlocated _ fun r => rfl
  | brk n => rfl

theorem placeAll_unlocated (s : Layout) (es : List Expr) :
    placeAll s (unlocatedAll es) = (placeAll s es).unlocated unlocatedAll := by
  cases es with
  | nil => rfl
  | cons e es =>
    rw [unlocatedAll, placeAll, Expr.place_unlocated,
      Placed.andThen_unlocated _ fun s => placeAll_unlocated s es]
    exact Placed.map_unlocated _ fun r => rfl

theorem placeOpt_unlocated (s : Layout) (e : Option Expr) :
    placeOpt s (unlocatedOpt e) = (placeOpt s e).unlocated unlocatedOpt := by
  cases e with
  | none => rfl
  | some e =>
    rw [unlocatedOpt, placeOpt, Expr.place_unlocated]
    exact Placed.map_unlocated _ fun e => rfl

end

theorem placeParams_unlocated (s : Layout) (ps : List Param) :
    placeParams s (ps.map Param.unlocated) =
      (placeParams s ps).unlocated (List.map Param.unlocated) := by
  induction ps generalizing s with
  | nil => rfl
  | cons p ps ih =>
    have hident : p.unlocated.ident = p.ident.unlocated := rfl
    have htype : p.unlocated.type.ty = p.type.ty := rfl
    rw [List.map_cons, placeParams, hident, htype, Layout.register_unlocated,
      Placed.andThen_unlocated _ ih]
    exact Placed.map_unlocated _ fun r => rfl

theorem Function.place_unlocated (constants : Constants) (f : Function) :
    f.unlocated.place constants = (f.place constants).unlocated Function.unlocated := by
  have hparams : f.unlocated.params = f.params.map Param.unlocated := rfl
  have hbody : f.unlocated.body = f.body.unlocated := rfl
  rw [Function.place, hparams, hbody, placeParams_unlocated,
    Placed.andThen_unlocated _ fun s => f.body.place_unlocated s, Placed.leave_unlocated]
  exact Placed.map_unlocated _ fun r => rfl

/-! ## Emission -/

theorem GenError.mapError_bind {α β : Type} (u : GenError → GenError) (x : Except GenError α)
    (f : α → Except GenError β) :
    (x >>= f).mapError u = x.mapError u >>= fun a => (f a).mapError u := by
  cases x <;> rfl

/-- The same code, or the same error without its location. -/
def Emit.unlocated {α : Type} (x : Emit α) : Emit α :=
  fun l => (x l).mapError GenError.unlocated

namespace Emit

variable {α β : Type}

theorem unlocated_bind (x : Emit α) (f : α → Emit β) :
    (x >>= f).unlocated = x.unlocated >>= fun a => (f a).unlocated := by
  funext l
  exact GenError.mapError_bind GenError.unlocated (x l) fun r => f r.1 r.2

theorem unlocated_pure (a : α) : (pure a : Emit α).unlocated = pure a := rfl

theorem unlocated_lift (x : Except GenError α) :
    (liftM x : Emit α).unlocated = (liftM (x.mapError GenError.unlocated) : Emit α) := by
  cases x <;> rfl

theorem unlocated_branchLabel : branchLabel.unlocated = branchLabel := rfl

theorem unlocated_loopLabel : loopLabel.unlocated = loopLabel := rfl

end Emit

theorem Frame.slotOf_unlocated (f : Frame) (i : Ident) :
    f.slotOf i.unlocated = (f.slotOf i).mapError GenError.unlocated := by
  unfold Frame.slotOf
  rw [Ident.slot_unlocated]
  cases i.slot.bind fun index => f.vars[index]? <;> rfl

theorem literalCode_unlocated (n : Node) (text : String) (constant : Option String) :
    literalCode n.unlocated text constant =
      (literalCode n text constant).mapError GenError.unlocated := by
  unfold literalCode
  rw [show n.unlocated.ty = n.ty from rfl]
  cases n.ty with
  | int => dsimp only; cases Text.int64? text <;> rfl
  | bool => dsimp only; split_ifs <;> rfl
  | string => cases constant <;> rfl
  | unit | float | undefined => rfl

theorem Convention.argumentReg_unlocated (index : Nat) :
    (argumentReg index).mapError GenError.unlocated = argumentReg index := by
  unfold argumentReg
  cases argumentRegs[index]? <;> rfl

theorem popArguments_unlocated (n : Nat) :
    (popArguments n).mapError GenError.unlocated = popArguments n := by
  induction n with
  | zero => rfl
  | succ n ih =>
    rw [popArguments, GenError.mapError_bind, Convention.argumentReg_unlocated]
    simp only [GenError.mapError_bind, ih]
    rfl

mutual

/-- Emission asks for locations in errors alone. -/
theorem Expr.emit_unlocated (env : Surroundings) (e : Expr) :
    e.unlocated.emit env = (e.emit env).unlocated := by
  cases e with
  | literal n text constant =>
    simp only [Expr.unlocated, Expr.emit, Emit.unlocated_bind, Emit.unlocated_lift,
      literalCode_unlocated, Emit.unlocated_pure]
  | var n ident =>
    simp only [Expr.unlocated, Expr.emit, Emit.unlocated_bind, Emit.unlocated_lift,
      Frame.slotOf_unlocated, Emit.unlocated_pure]
  | call n callee arguments =>
    simp only [Expr.unlocated, Expr.emit, length_unlocatedAll]
    split_ifs
    · rfl
    · simp only [Emit.unlocated_bind, Emit.unlocated_lift, emitArguments_unlocated,
        popArguments_unlocated, Emit.unlocated_pure, Ident.name_unlocated]
  | block n body result =>
    simp only [Expr.unlocated, Expr.emit, Emit.unlocated_bind, emitAll_unlocated,
      emitOpt_unlocated, Emit.unlocated_pure]
  | bind n ident _ value | assign n ident value =>
    simp only [Expr.unlocated, Expr.emit, Emit.unlocated_bind, Emit.unlocated_lift,
      Expr.emit_unlocated, Frame.slotOf_unlocated, Emit.unlocated_pure]
  | binary | unary | ret =>
    simp only [Expr.unlocated, Expr.emit, Emit.unlocated_bind, Expr.emit_unlocated,
      Emit.unlocated_pure]
  | group n inner =>
    simp only [Expr.unlocated, Expr.emit, Expr.emit_unlocated]
  | branch n condition onTrue onFalse =>
    simp only [Expr.unlocated, Expr.emit, Emit.unlocated_bind, Emit.unlocated_branchLabel,
      Expr.emit_unlocated, emitOpt_unlocated, Emit.unlocated_pure]
  | loop n condition body =>
    simp only [Expr.unlocated, Expr.emit, Emit.unlocated_bind, Emit.unlocated_loopLabel,
      Expr.emit_unlocated, Emit.unlocated_pure]
  | brk n =>
    simp only [Expr.unlocated, Expr.emit]
    cases env.frame.currentLoop? <;> rfl

theorem emitAll_unlocated (env : Surroundings) (es : List Expr) :
    emitAll env (unlocatedAll es) = (emitAll env es).unlocated := by
  cases es with
  | nil => rfl
  | cons e es =>
    simp only [unlocatedAll, emitAll, Emit.unlocated_bind, Expr.emit_unlocated, emitAll_unlocated,
      Emit.unlocated_pure]

theorem emitArguments_unlocated (env : Surroundings) (es : List Expr) :
    emitArguments env (unlocatedAll es) = (emitArguments env es).unlocated := by
  cases es with
  | nil => rfl
  | cons e es =>
    simp only [unlocatedAll, emitArguments, Emit.unlocated_bind, Expr.emit_unlocated,
      emitArguments_unlocated, Emit.unlocated_pure]

theorem emitOpt_unlocated (env : Surroundings) (heading : List Instr) (e : Option Expr) :
    emitOpt env heading (unlocatedOpt e) = (emitOpt env heading e).unlocated := by
  cases e with
  | none => rfl
  | some e =>
    simp only [unlocatedOpt, emitOpt, Emit.unlocated_bind, Expr.emit_unlocated,
      Emit.unlocated_pure]

end

theorem storeParams_unlocated (f : Frame) (index : Nat) (ps : List Param) :
    storeParams f index (ps.map Param.unlocated) =
      (storeParams f index ps).mapError GenError.unlocated := by
  induction ps generalizing index with
  | nil => rfl
  | cons p ps ih =>
    have hident : p.unlocated.ident = p.ident.unlocated := rfl
    rw [List.map_cons, storeParams, storeParams, hident]
    simp only [GenError.mapError_bind, Convention.argumentReg_unlocated, Frame.slotOf_unlocated, ih]
    rfl

theorem Function.emit_unlocated (comments : Bool) (functions : List String) (frame : Frame)
    (f : Function) :
    f.unlocated.emit comments functions frame = (f.emit comments functions frame).unlocated := by
  simp only [Function.emit, Function.unlocated, List.length_map]
  split_ifs
  · rfl
  · simp only [Emit.unlocated_bind, Emit.unlocated_lift, storeParams_unlocated,
      Expr.emit_unlocated, Emit.unlocated_pure]

theorem emitFunctions_unlocated (comments : Bool) (functions : List String)
    (fs : List (Function × Frame)) :
    emitFunctions comments functions (fs.map (Prod.map Function.unlocated id)) =
      (emitFunctions comments functions fs).unlocated := by
  induction fs with
  | nil => rfl
  | cons f fs ih =>
    simp only [List.map_cons, Prod.map, emitFunctions, id, Emit.unlocated_bind,
      Function.emit_unlocated, ih, Emit.unlocated_pure]

/-! ## Assembly -/

/-- The same walk over functions without locations. -/
def PlacedFunctions.unlocated (placed : PlacedFunctions) : PlacedFunctions where
  functions := placed.functions.map Function.unlocated
  frames := placed.frames
  constants := placed.constants
  stopped := placed.stopped.map (Prod.map id GenError.unlocated)

theorem placeFunctions_unlocated (constants : Constants) (fs : List Function) :
    placeFunctions constants (fs.map Function.unlocated) =
      (placeFunctions constants fs).unlocated := by
  induction fs generalizing constants with
  | nil => rfl
  | cons f fs ih =>
    rw [List.map_cons, placeFunctions, placeFunctions, Function.place_unlocated]
    cases h : (f.place constants).error with
    | none => simp [Placed.unlocated, PlacedFunctions.unlocated, h, ih]
    | some e => simp [Placed.unlocated, PlacedFunctions.unlocated, h]

theorem firstRedeclared_unlocated (earlier : List String) (fs : List Function) :
    firstRedeclared earlier (fs.map Function.unlocated) =
      (firstRedeclared earlier fs).map Function.unlocated := by
  induction fs generalizing earlier with
  | nil => rfl
  | cons f fs ih =>
    rw [List.map_cons, firstRedeclared, firstRedeclared,
      show f.unlocated.ident.name = f.ident.name from rfl, ih]
    split_ifs <;> rfl

theorem Program.checkFunctions_erased (options : GenOptions) (p : Program) :
    p.erased.checkFunctions options =
      (p.checkFunctions options).mapError GenError.unlocated := by
  have hfunctions : p.erased.functions = p.functions.map Function.unlocated := rfl
  have hnames : (p.functions.map Function.unlocated).any (·.ident.name = options.entryPoint) =
      p.functions.any (·.ident.name = options.entryPoint) := List.any_map
  unfold Program.checkFunctions
  rw [hfunctions, firstRedeclared_unlocated, hnames]
  cases firstRedeclared [] p.functions with
  | some f => rfl
  | none => dsimp only [Option.map_none]; split_ifs <;> rfl

theorem Constants.entriesLines_unlocated (cs : List Constant) :
    (entriesLines cs).mapError GenError.unlocated = entriesLines cs := by
  induction cs with
  | nil => rfl
  | cons c cs ih =>
    have hentry : (entryLines c).mapError GenError.unlocated = entryLines c := by
      unfold entryLines
      split_ifs <;> rfl
    rw [entriesLines]
    simp only [GenError.mapError_bind, hentry, ih]
    rfl

theorem Constants.dataLines_unlocated (c : Constants) :
    c.dataLines.mapError GenError.unlocated = c.dataLines := by
  rw [dataLines, GenError.mapError_bind, entriesLines_unlocated]
  rfl

theorem PlacedFunctions.assemble_unlocated (options : GenOptions) (placed : PlacedFunctions) :
    placed.unlocated.assemble options =
      (placed.assemble options).mapError GenError.unlocated := by
  have hnames : (placed.functions.map Function.unlocated).map (·.ident.name) =
      placed.functions.map (·.ident.name) := by
    rw [List.map_map]
    rfl
  have hzip : (placed.functions.map Function.unlocated).zip placed.frames =
      (placed.functions.zip placed.frames).map (Prod.map Function.unlocated id) := by
    rw [← List.zip_map, List.map_id]
  unfold assemble
  dsimp only [PlacedFunctions.unlocated]
  rw [hnames, hzip, emitFunctions_unlocated]
  simp only [GenError.mapError_bind, Constants.dataLines_unlocated]
  rfl

/-- A program without locations has the same assembly, or the same error but for its location. -/
theorem Program.generate_erased (options : GenOptions) (p : Program) :
    (p.erased.generate options).result =
      (p.generate options).result.mapError GenError.unlocated := by
  have hfunctions : p.erased.functions = p.functions.map Function.unlocated := rfl
  unfold Program.generate
  rw [Program.checkFunctions_erased, hfunctions, placeFunctions_unlocated]
  cases p.checkFunctions options with
  | error e => rfl
  | ok =>
    have hstopped : (placeFunctions {} p.functions).unlocated.stopped =
        (placeFunctions {} p.functions).stopped.map (Prod.map id GenError.unlocated) := rfl
    dsimp only [Except.mapError]
    rw [hstopped]
    cases (placeFunctions {} p.functions).stopped with
    | some stopped => rfl
    | none => exact PlacedFunctions.assemble_unlocated options _

end Ilang
