import Ilang.Proofs.Closure
import Ilang.Proofs.Renaming
/-!
# Functions do not depend on each other's bodies

If one function of a program gets another body, the passes report the same about every other
function, and the code of every other function is the same but for the numbers of its labels
(`Program.functions_independent`). A body leaves nothing behind but entries of the declaration
table, so the names around a function stand for the same declarations whatever stands in the
functions before it, though under other indices.
-/
namespace Ilang

/-! ## Names with other indices -/

/-- Two indices stand for the same declaration, each in its own table. -/
def DeclTable.SameEntry (table table' : DeclTable) (a b : Nat) : Prop :=
  ∃ d, table[a]? = some d ∧ table'[b]? = some d

/-- The same names are visible, and stand for the same declarations. -/
structure Names.Alike (s s' : Names) : Prop where
  opened : s.scopes.chain ≠ []
  opened' : s'.scopes.chain ≠ []
  scopes : s.scopes.Rel (s.table.SameEntry s'.table) s'.scopes

/-- A name in two trees stands for the same declaration. -/
structure Ident.Alike (table table' : DeclTable) (i j : Ident) : Prop where
  name : j.name = i.name
  location : j.location = i.location
  found : table'.find j.binding = table.find i.binding

namespace Names.Alike

variable {s s' t t' : Names} {table table' : DeclTable}

/-- Entries that are added to the tables change nothing. -/
theorem widen (h : s.Alike s') (ht : t.scopes = s.scopes) (htable : t.table.Extends s.table)
    (ht' : t'.scopes = s'.scopes) (htable' : t'.table.Extends s'.table) : t.Alike t' := by
  refine ⟨ht ▸ h.opened, ht' ▸ h.opened', ?_⟩
  rw [ht, ht']
  exact h.scopes.mono fun a b ⟨d, ha, hb⟩ => ⟨d, htable a d ha, htable' b d hb⟩

theorem enter (h : s.Alike s') : s.enter.Alike s'.enter :=
  ⟨s.enter_ne_nil, s'.enter_ne_nil, h.scopes.push⟩

/-- A scope that is closed leaves what was visible before. -/
theorem leave (h : s.Alike s') (ht : s.enter.Grows t) (ht' : s'.enter.Grows t') :
    t.leave.Alike t'.leave :=
  h.widen (leave_scopes ht) ht.table (leave_scopes ht') ht'.table

theorem declare (h : s.Alike s') (i : Ident) (kind : DeclKind) (ty : Ty)
    (signature : Option Signature) :
    (s.declare i kind ty signature).names.Alike (s'.declare i kind ty signature).names ∧
      (s'.declare i kind ty signature).report = (s.declare i kind ty signature).report := by
  let d : Declaration := ⟨i.name, kind, ty, i.location, signature⟩
  have hpushed : DeclTable.SameEntry (s.table.push d) (s'.table.push d) s.table.size
      s'.table.size := ⟨d, Array.getElem?_push_size, Array.getElem?_push_size⟩
  have hkept : s.scopes.Rel (DeclTable.SameEntry (s.table.push d) (s'.table.push d)) s'.scopes :=
    h.scopes.mono fun a b ⟨e, ha, hb⟩ =>
      ⟨e, DeclTable.push_extends _ _ a e ha, DeclTable.push_extends _ _ b e hb⟩
  -- A name is declared twice in the one state exactly if it is in the other.
  have hinner := hkept.innermost i.name
  unfold Names.declare
  dsimp only
  rw [Scopes.declare_eq, Scopes.declare_eq]
  generalize s.scopes.innermost? i.name = u, s'.scopes.innermost? i.name = v at hinner
  cases hinner with
  | none =>
    refine ⟨⟨?_, ?_, hkept.insert hpushed⟩, rfl⟩
    · exact (Scopes.grows_insert h.opened _ _).ne_nil
    · exact (Scopes.grows_insert h.opened' _ _).ne_nil
  | some hentry =>
    obtain ⟨e, ha, hb⟩ := hentry
    refine ⟨⟨h.opened, h.opened', hkept⟩, ?_⟩
    dsimp only
    rw [ha, hb]

theorem refer (h : s.Alike s') (i : Ident) (ht : table.Extends s.table)
    (ht' : table'.Extends s'.table) :
    Ident.Alike table table' (s.refer i).value (s'.refer i).value := by
  refine ⟨rfl, rfl, ?_⟩
  have hfound := h.scopes.lookup i.name
  unfold Names.refer
  dsimp only
  generalize s.scopes.lookup i.name = u, s'.scopes.lookup i.name = v at hfound
  cases hfound with
  | none => rfl
  | some hentry =>
    obtain ⟨d, ha, hb⟩ := hentry
    exact (ht' _ d hb).trans (ht _ d ha).symm

theorem report_refer (h : s.Alike s') (i : Ident) : (s'.refer i).report = (s.refer i).report := by
  simp only [Names.refer, Scopes.isNone_of_rel (h.scopes.lookup i.name)]

end Names.Alike

/-! ## Reports about trees with other indices -/

/-- Two trees get the same types and the same reports, each with its own table. -/
structure Expr.Alike (table table' : DeclTable) (d e : Expr) : Prop where
  types : (e.resolveTypes table').report = (d.resolveTypes table).report
  ty : (e.resolveTypes table').value.ty = (d.resolveTypes table).value.ty
  location : (e.resolveTypes table').value.location = (d.resolveTypes table).value.location
  checks (returns : Ty) (depth : Nat) : (e.resolveTypes table').value.check table' returns depth =
    (d.resolveTypes table).value.check table returns depth

theorem Expr.Alike.face {table table' : DeclTable} {d e : Expr} (h : Expr.Alike table table' d e) :
    (e.resolveTypes table').value.face = (d.resolveTypes table).value.face :=
  Prod.ext h.ty h.location

/-- The same of expressions that follow each other. -/
structure AlikeAll (table table' : DeclTable) (ds es : List Expr) : Prop where
  types : (resolveTypesAll table' es).report = (resolveTypesAll table ds).report
  faces : (resolveTypesAll table' es).value.map Expr.face =
    (resolveTypesAll table ds).value.map Expr.face
  checks (returns : Ty) (depth : Nat) :
    checkAll table' returns depth (resolveTypesAll table' es).value =
      checkAll table returns depth (resolveTypesAll table ds).value

/-- The same of expressions that may be missing. -/
structure AlikeOpt (table table' : DeclTable) (d e : Option Expr) : Prop where
  types : (resolveTypesOpt table' e).report = (resolveTypesOpt table d).report
  ty : (resolveTypesOpt table' e).value.map Expr.ty = (resolveTypesOpt table d).value.map Expr.ty
  checks (returns : Ty) (depth : Nat) :
    checkOpt table' returns depth (resolveTypesOpt table' e).value =
      checkOpt table returns depth (resolveTypesOpt table d).value

/-- Two pieces have the same report, leave the same names, and are alike in all tables that come of
this. -/
structure Resolved.Alike {α : Type} (same : DeclTable → DeclTable → α → α → Prop)
    (r r' : Resolved α) : Prop where
  names : r.names.Alike r'.names
  report : r'.report = r.report
  value (table table' : DeclTable) (h : table.Extends r.names.table)
    (h' : table'.Extends r'.names.table) : same table table' r.value r'.value

namespace Ident.Alike

variable {table table' : DeclTable} {i j : Ident}

theorem typeOf (h : Ident.Alike table table' i j) : table'.typeOf j = table.typeOf i := by
  rw [DeclTable.typeOf, DeclTable.typeOf, DeclTable.typeOf?, DeclTable.typeOf?, h.found]

theorem reportUntyped (h : Ident.Alike table table' i j) :
    table'.reportUntyped j = table.reportUntyped i := by
  rw [DeclTable.reportUntyped, DeclTable.reportUntyped, DeclTable.typeOf?, DeclTable.typeOf?,
    h.found, h.name, h.location]

theorem checkValue (h : Ident.Alike table table' i j) :
    table'.checkValue j = table.checkValue i := by
  rw [DeclTable.checkValue, DeclTable.checkValue, h.found, h.name, h.location]

theorem checkCall (h : Ident.Alike table table' i j) {as bs : List Expr}
    (hfaces : bs.map Expr.face = as.map Expr.face) (location : Location) :
    table'.checkCall j bs location = table.checkCall i as location := by
  have hlength : bs.length = as.length := by simpa using congrArg List.length hfaces
  simp only [DeclTable.checkCall, h.found, h.name, h.location, hlength,
    DeclTable.checkArguments_eq _ _ _ hfaces]

end Ident.Alike

namespace Expr.Alike

variable {table table' : DeclTable} {n : Node} {i j : Ident} {d d' e e' : Expr}

theorem literal {text : String} {constant : Option String} :
    Expr.Alike table table' (.literal n text constant) (.literal n text constant) := by
  constructor <;> simp only [Expr.resolveTypes]
  intro returns depth
  cases Literal.type? text <;> rfl

theorem var (hi : Ident.Alike table table' i j) : Expr.Alike table table' (.var n i) (.var n j) :=
  ⟨hi.reportUntyped, hi.typeOf, rfl, fun _ _ => hi.checkValue⟩

theorem call {as bs : List Expr} (hi : Ident.Alike table table' i j)
    (h : AlikeAll table table' as bs) : Expr.Alike table table' (.call n i as) (.call n j bs) :=
  ⟨congrArg₂ (· ++ ·) h.types hi.reportUntyped, hi.typeOf, rfl, fun returns depth =>
    congrArg₂ (· ++ ·) (h.checks returns depth) (hi.checkCall h.faces n.location)⟩

theorem block {as bs : List Expr} {a b : Option Expr} (hbody : AlikeAll table table' as bs)
    (hresult : AlikeOpt table table' a b) :
    Expr.Alike table table' (.block n as a) (.block n bs b) :=
  ⟨congrArg₂ (· ++ ·) hbody.types hresult.types, congrArg (·.getD .unit) hresult.ty, rfl,
    fun returns depth =>
      congrArg₂ (· ++ ·) (hbody.checks returns depth) (hresult.checks returns depth)⟩

/-- What is declared is reported by its name and not by its index. -/
theorem bind {type : TypeRef} (hname : j.name = i.name) (h : Expr.Alike table table' d e) :
    Expr.Alike table table' (.bind n i type d) (.bind n j type e) := by
  refine ⟨congrArg (_ ++ ·) h.types, rfl, rfl, fun returns depth => ?_⟩
  simp only [Expr.resolveTypes, Expr.check, h.checks returns depth, h.ty, hname]

theorem assign (hi : Ident.Alike table table' i j) (h : Expr.Alike table table' d e) :
    Expr.Alike table table' (.assign n i d) (.assign n j e) := by
  refine ⟨h.types, hi.typeOf, rfl, fun returns depth => ?_⟩
  simp only [Expr.resolveTypes, Expr.check, h.checks returns depth, h.ty, hi.checkValue, hi.found,
    hi.name]

theorem binary {op : BinaryOp} (hleft : Expr.Alike table table' d e)
    (hright : Expr.Alike table table' d' e') :
    Expr.Alike table table' (.binary n op d d') (.binary n op e e') := by
  refine ⟨congrArg₂ (· ++ ·) hleft.types hright.types, hleft.ty, rfl, fun returns depth => ?_⟩
  simp only [Expr.resolveTypes, Expr.check, hleft.ty, hright.ty, hleft.checks returns depth,
    hright.checks returns depth]

theorem unary {op : UnaryOp} (h : Expr.Alike table table' d e) :
    Expr.Alike table table' (.unary n op d) (.unary n op e) := by
  refine ⟨h.types, h.ty, rfl, fun returns depth => ?_⟩
  simp only [Expr.resolveTypes, Expr.check, h.ty, h.checks returns depth]

theorem group (h : Expr.Alike table table' d e) :
    Expr.Alike table table' (.group n d) (.group n e) :=
  ⟨h.types, h.ty, rfl, h.checks⟩

theorem branch {a b : Option Expr} (hcondition : Expr.Alike table table' d e)
    (htrue : Expr.Alike table table' d' e') (hfalse : AlikeOpt table table' a b) :
    Expr.Alike table table' (.branch n d d' a) (.branch n e e' b) := by
  refine ⟨congrArg₂ (· ++ ·) (congrArg₂ (· ++ ·) hcondition.types htrue.types) hfalse.types,
    htrue.ty, rfl, fun returns depth => ?_⟩
  simp only [Expr.resolveTypes, Expr.check, checkCondition, hcondition.ty, hcondition.location,
    hcondition.checks returns depth, htrue.ty, htrue.checks returns depth,
    hfalse.checks returns depth]
  congr 1
  -- Both trees have an `else`, and it has the same type in both, or neither has one.
  have hty := hfalse.ty
  generalize (resolveTypesOpt table _).value = u, (resolveTypesOpt table' _).value = v at hty
  cases u with
  | none =>
    cases v with
    | none => rfl
    | some => cases hty
  | some u =>
    cases v with
    | none => cases hty
    | some v =>
      dsimp only
      rw [Option.some.inj hty]

theorem ret (h : Expr.Alike table table' d e) : Expr.Alike table table' (.ret n d) (.ret n e) := by
  refine ⟨h.types, h.ty, rfl, fun returns depth => ?_⟩
  simp only [Expr.resolveTypes, Expr.check, h.ty, h.checks returns depth]

theorem loop (hcondition : Expr.Alike table table' d e) (hbody : Expr.Alike table table' d' e') :
    Expr.Alike table table' (.loop n d d') (.loop n e e') := by
  refine ⟨congrArg₂ (· ++ ·) hcondition.types hbody.types, rfl, rfl, fun returns depth => ?_⟩
  simp only [Expr.resolveTypes, Expr.check, checkCondition, hcondition.ty, hcondition.location,
    hcondition.checks returns depth, hbody.checks returns (depth + 1)]

theorem brk : Expr.Alike table table' (.brk n) (.brk n) := ⟨rfl, rfl, rfl, fun _ _ => rfl⟩

end Expr.Alike

/-- A piece is alike in the tables of what follows it, which only adds to them. -/
theorem Resolved.Alike.value_of_grows {α : Type} {same : DeclTable → DeclTable → α → α → Prop}
    {r r' : Resolved α} (h : Resolved.Alike same r r') {t t' : Names} (hgrows : r.names.Grows t)
    (hgrows' : r'.names.Grows t') {table table' : DeclTable} (ht : table.Extends t.table)
    (ht' : table'.Extends t'.table) : same table table' r.value r'.value :=
  h.value table table' (ht.of_grows hgrows) (ht'.of_grows hgrows')

mutual

/-- The same tree in the same surroundings gets the same reports, whatever the indices. -/
theorem Expr.resolveNames_alike {s s' : Names} (h : s.Alike s') (e : Expr) :
    Resolved.Alike Expr.Alike (e.resolveNames s) (e.resolveNames s') := by
  cases e with
  | literal n text constant => exact ⟨h, rfl, fun _ _ _ _ => .literal⟩
  | brk n => exact ⟨h, rfl, fun _ _ _ _ => .brk⟩
  | var n i => exact ⟨h, h.report_refer i, fun _ _ ht ht' => .var (h.refer i ht ht')⟩
  | call n callee arguments =>
    have ha := resolveNamesAll_alike h arguments
    have hgrows := resolveNamesAll_grows h.opened arguments
    have hgrows' := resolveNamesAll_grows h.opened' arguments
    refine ⟨ha.names, congrArg₂ (· ++ ·) (h.report_refer callee) ha.report,
      fun table table' ht ht' => ?_⟩
    -- The callee is looked up in front of the arguments, in a table that they only add to.
    have hi := h.refer callee (ht.of_grows hgrows) (ht'.of_grows hgrows')
    exact .call hi (ha.value table table' ht ht')
  | block n body result =>
    have hb := resolveNamesAll_alike h.enter body
    have hr := resolveNamesOpt_alike hb.names result
    have hgrows := resolveNamesAll_grows s.enter_ne_nil body
    have hgrows' := resolveNamesAll_grows s'.enter_ne_nil body
    have hmore := resolveNamesOpt_grows hgrows.scopes.ne_nil result
    have hmore' := resolveNamesOpt_grows hgrows'.scopes.ne_nil result
    refine ⟨h.leave (hgrows.trans hmore) (hgrows'.trans hmore'),
      congrArg₂ (· ++ ·) hb.report hr.report, fun table table' ht ht' => ?_⟩
    exact .block (hb.value_of_grows hmore hmore' ht ht') (hr.value table table' ht ht')
  | bind n i type value =>
    have hv := Expr.resolveNames_alike h value
    have hi := hv.names.declare i .letBound type.ty none
    have hgrows := Names.declare_grows hv.names.opened i .letBound type.ty none
    have hgrows' := Names.declare_grows hv.names.opened' i .letBound type.ty none
    refine ⟨hi.1, congrArg₂ (· ++ ·) hv.report hi.2, fun table table' ht ht' => ?_⟩
    simp only [Expr.resolveNames, Names.declare_value]
    exact .bind rfl (hv.value_of_grows hgrows hgrows' ht ht')
  | assign n i value =>
    have hv := Expr.resolveNames_alike h value
    have hgrows := Expr.resolveNames_grows h.opened value
    have hgrows' := Expr.resolveNames_grows h.opened' value
    refine ⟨hv.names, congrArg₂ (· ++ ·) (h.report_refer i) hv.report,
      fun table table' ht ht' => ?_⟩
    have hi := h.refer i (ht.of_grows hgrows) (ht'.of_grows hgrows')
    exact .assign hi (hv.value table table' ht ht')
  | binary n op left right =>
    have hl := Expr.resolveNames_alike h left
    have hr := Expr.resolveNames_alike hl.names right
    have hgrows := Expr.resolveNames_grows hl.names.opened right
    have hgrows' := Expr.resolveNames_grows hl.names.opened' right
    refine ⟨hr.names, congrArg₂ (· ++ ·) hl.report hr.report, fun table table' ht ht' => ?_⟩
    exact .binary (hl.value_of_grows hgrows hgrows' ht ht') (hr.value table table' ht ht')
  | unary n op value =>
    have hv := Expr.resolveNames_alike h value
    exact ⟨hv.names, hv.report, fun table table' ht ht' => .unary (hv.value table table' ht ht')⟩
  | group n value =>
    have hv := Expr.resolveNames_alike h value
    exact ⟨hv.names, hv.report, fun table table' ht ht' => .group (hv.value table table' ht ht')⟩
  | branch n condition onTrue onFalse =>
    have hc := Expr.resolveNames_alike h condition
    have ht := Expr.resolveNames_alike hc.names onTrue
    have hf := resolveNamesOpt_alike ht.names onFalse
    have hgrows := Expr.resolveNames_grows hc.names.opened onTrue
    have hgrows' := Expr.resolveNames_grows hc.names.opened' onTrue
    have hmore := resolveNamesOpt_grows ht.names.opened onFalse
    have hmore' := resolveNamesOpt_grows ht.names.opened' onFalse
    refine ⟨hf.names, congrArg₂ (· ++ ·) (congrArg₂ (· ++ ·) hc.report ht.report) hf.report,
      fun table table' hT hT' => ?_⟩
    exact .branch (hc.value_of_grows (hgrows.trans hmore) (hgrows'.trans hmore') hT hT')
      (ht.value_of_grows hmore hmore' hT hT') (hf.value table table' hT hT')
  | ret n value =>
    have hv := Expr.resolveNames_alike h value
    exact ⟨hv.names, hv.report, fun table table' ht ht' => .ret (hv.value table table' ht ht')⟩
  | loop n condition body =>
    have hc := Expr.resolveNames_alike h condition
    have hb := Expr.resolveNames_alike hc.names body
    have hgrows := Expr.resolveNames_grows hc.names.opened body
    have hgrows' := Expr.resolveNames_grows hc.names.opened' body
    refine ⟨hb.names, congrArg₂ (· ++ ·) hc.report hb.report, fun table table' ht ht' => ?_⟩
    exact .loop (hc.value_of_grows hgrows hgrows' ht ht') (hb.value table table' ht ht')

theorem resolveNamesAll_alike {s s' : Names} (h : s.Alike s') (es : List Expr) :
    Resolved.Alike AlikeAll (resolveNamesAll s es) (resolveNamesAll s' es) := by
  cases es with
  | nil => exact ⟨h, rfl, fun _ _ _ _ => ⟨rfl, rfl, fun _ _ => rfl⟩⟩
  | cons e es =>
    have he := Expr.resolveNames_alike h e
    have hes := resolveNamesAll_alike he.names es
    have hgrows := resolveNamesAll_grows he.names.opened es
    have hgrows' := resolveNamesAll_grows he.names.opened' es
    refine ⟨hes.names, congrArg₂ (· ++ ·) he.report hes.report, fun table table' ht ht' => ?_⟩
    have hfirst := he.value_of_grows hgrows hgrows' ht ht'
    have hothers := hes.value table table' ht ht'
    exact ⟨congrArg₂ (· ++ ·) hfirst.types hothers.types,
      congrArg₂ List.cons hfirst.face hothers.faces, fun returns depth =>
      congrArg₂ (· ++ ·) (hfirst.checks returns depth) (hothers.checks returns depth)⟩

theorem resolveNamesOpt_alike {s s' : Names} (h : s.Alike s') (e : Option Expr) :
    Resolved.Alike AlikeOpt (resolveNamesOpt s e) (resolveNamesOpt s' e) := by
  cases e with
  | none => exact ⟨h, rfl, fun _ _ _ _ => ⟨rfl, rfl, fun _ _ => rfl⟩⟩
  | some e =>
    have he := Expr.resolveNames_alike h e
    refine ⟨he.names, he.report, fun table table' ht ht' => ?_⟩
    have hvalue := he.value table table' ht ht'
    exact ⟨hvalue.types, congrArg some hvalue.ty, hvalue.checks⟩

end

/-! ## Reports about functions -/

/-- What is reported about each part of a list. -/
def reportsEach {α : Type} (resolve : Names → α → Resolved α) : Names → List α → List Report
  | _, [] => []
  | s, a :: as => (resolve s a).report :: reportsEach resolve (resolve s a).names as

theorem flatten_reportsEach {α : Type} (resolve : Names → α → Resolved α) (s : Names)
    (as : List α) : (reportsEach resolve s as).flatten = (resolveEach resolve s as).report := by
  induction as generalizing s with
  | nil => rfl
  | cons a as ih => rw [reportsEach, List.flatten_cons, ih, resolveEach]

namespace Program

variable (p : Program)

/-- What name resolution reports about each function when it declares its name. -/
def declarationReports : List Report :=
  reportsEach Function.declareName p.externalNames.names p.functions

/-- What name resolution reports about the parameters and the body of each function. -/
def nameReports : List Report :=
  reportsEach Function.resolveInside p.functionNames.names p.functionNames.value

/-- What type resolution reports about each function. -/
def typeReports : List Report :=
  p.insideNames.value.map fun f => (f.resolveTypes p.declarations).report

/-- What type checking reports about each function. -/
def checkReports : List Report :=
  p.insideNames.value.map fun f => (f.resolveTypes p.declarations).value.check p.declarations

/-- Apart from external functions, each pass reports what it reports about the functions. -/
structure ReportsByFunction : Prop where
  names : p.analyze.names =
    p.externalNames.report ++ p.declarationReports.flatten ++ p.nameReports.flatten
  types : p.analyze.types =
    p.externalNames.value.flatMap (fun e => reportHeader e.returns e.params) ++
      p.typeReports.flatten
  checks : p.analyze.checks = p.checkReports.flatten

theorem reportsByFunction : p.ReportsByFunction where
  names := by
    rw [declarationReports, nameReports, flatten_reportsEach, flatten_reportsEach]
    rfl
  types := by
    rw [typeReports, ← List.flatMap_def]
    exact congrArg (_ ++ ·) (List.flatMap_map _ _ _)
  checks := by
    rw [checkReports, ← List.flatMap_def]
    exact (List.flatMap_map _ _ _).trans (List.flatMap_map _ _ _)

/-- The passes report the same about a function of two programs. -/
structure SameReports (q : Program) (i : Nat) : Prop where
  declaration : ∃ report, p.declarationReports[i]? = some report ∧
    q.declarationReports[i]? = some report
  names : ∃ report, p.nameReports[i]? = some report ∧ q.nameReports[i]? = some report
  types : ∃ report, p.typeReports[i]? = some report ∧ q.typeReports[i]? = some report
  checks : ∃ report, p.checkReports[i]? = some report ∧ q.checkReports[i]? = some report

/-- A program with another body for one of its functions. -/
def withBody (j : Nat) (body : Expr) : Program :=
  { p with functions := p.functions.modify j fun f => { f with body := body } }

end Program

/-- The names of functions are declared without a look at the bodies. -/
theorem declareNames_modify (s : Names) (fs : List Function) (j : Nat) (body : Expr) :
    let other := fun f : Function => { f with body := body }
    reportsEach Function.declareName s (fs.modify j other) =
        reportsEach Function.declareName s fs ∧
      (resolveEach Function.declareName s (fs.modify j other)).names =
        (resolveEach Function.declareName s fs).names ∧
      (resolveEach Function.declareName s (fs.modify j other)).value =
        (resolveEach Function.declareName s fs).value.modify j other := by
  intro other
  induction fs generalizing s j with
  | nil => cases j <;> exact ⟨rfl, rfl, rfl⟩
  | cons f fs ih =>
    cases j with
    | zero => exact ⟨rfl, rfl, rfl⟩
    | succ j =>
      obtain ⟨hreports, hnames, hvalue⟩ := ih (f.declareName s).names j
      refine ⟨?_, ?_, ?_⟩
      · exact congrArg (_ :: ·) hreports
      · exact hnames
      · exact congrArg (_ :: ·) hvalue

/-- Every function finds the names that were there before the first one. -/
theorem exists_inside {s : Names} (hs : s.scopes.chain ≠ []) {fs : List Function} {i : Nat}
    {f : Function} (hf : fs[i]? = some f) :
    ∃ t : Names, t.scopes = s.scopes ∧ t.table.Extends s.table ∧
      (resolveEach Function.resolveInside s fs).value[i]? = some (f.resolveInside t).value ∧
      (reportsEach Function.resolveInside s fs)[i]? = some (f.resolveInside t).report ∧
      (resolveEach Function.resolveInside s fs).names.table.Extends
        (f.resolveInside t).names.table := by
  induction fs generalizing s i with
  | nil => cases hf
  | cons g fs ih =>
    have hgrows := Function.resolveInside_grows hs g
    cases i with
    | zero =>
      cases hf
      exact ⟨s, rfl, fun _ _ h => h, rfl, rfl,
        (resolveEach_grows Function.resolveInside_grows hgrows.scopes.ne_nil fs).table⟩
    | succ i =>
      obtain ⟨t, hscopes, htable, hvalue, hreport, hend⟩ := ih hgrows.scopes.ne_nil hf
      refine ⟨t, ?_, fun k d hk => htable k d (hgrows.table k d hk), hvalue, hreport, hend⟩
      rw [hscopes, Function.resolveInside_scopes]

/-- The header of a function and its body are gone through alike in the same surroundings. -/
structure Function.Alike (table table' : DeclTable) (f g : Function) : Prop where
  types : (g.resolveTypes table').report = (f.resolveTypes table).report
  checks : (g.resolveTypes table').value.check table' = (f.resolveTypes table).value.check table

theorem resolveParams_alike {s s' : Names} (h : s.Alike s') (ps : List Param) :
    (resolveEach Param.resolveNames s ps).names.Alike (resolveEach Param.resolveNames s' ps).names ∧
      (resolveEach Param.resolveNames s' ps).report =
        (resolveEach Param.resolveNames s ps).report := by
  induction ps generalizing s s' with
  | nil => exact ⟨h, rfl⟩
  | cons p ps ih =>
    obtain ⟨hnames, hreport⟩ := h.declare p.ident .parameter p.type.ty none
    obtain ⟨hothers, hreports⟩ := ih hnames
    exact ⟨hothers, congrArg₂ (· ++ ·) hreport hreports⟩

theorem Function.resolveInside_alike {s s' : Names} (h : s.Alike s') (f : Function) :
    Resolved.Alike Function.Alike (f.resolveInside s) (f.resolveInside s') := by
  obtain ⟨hparams, hreport⟩ := resolveParams_alike h.enter f.params
  have hbody := Expr.resolveNames_alike hparams f.body
  have hgrows := resolveEach_grows Param.resolveNames_grows s.enter_ne_nil f.params
  have hgrows' := resolveEach_grows Param.resolveNames_grows s'.enter_ne_nil f.params
  have hmore := Expr.resolveNames_grows hparams.opened f.body
  have hmore' := Expr.resolveNames_grows hparams.opened' f.body
  refine ⟨h.leave (hgrows.trans hmore) (hgrows'.trans hmore'),
    congrArg₂ (· ++ ·) hreport hbody.report, fun table table' ht ht' => ?_⟩
  have hvalue := hbody.value table table' ht ht'
  have hheader (t : Names) : reportHeader f.returns (resolveEach Param.resolveNames t f.params).value =
      reportHeader f.returns f.params := reportHeader_resolved f.returns t f.params
  refine ⟨?_, ?_⟩
  · simp only [Function.resolveInside, Function.resolveTypes, hheader, hvalue.types]
  · exact congrArg₂ (fun (report : Report) (t : Ty) => report ++ if t = f.returns.ty then [] else
      [(Problem.functionBody f.ident.name f.returns.ty t).located f.ident.location])
      (hvalue.checks f.returns.ty 0) hvalue.ty

theorem External.names_alike {s s' : Names} (h : s.Alike s') (e : External) :
    (e.resolveNames s).names.Alike (e.resolveNames s').names := by
  obtain ⟨hnames, -⟩ :=
    h.declare e.ident .external e.returns.ty (some (signatureOf e.params e.variadic))
  exact hnames.leave (resolveEach_grows Param.resolveNames_grows (Names.enter_ne_nil _) e.params)
    (resolveEach_grows Param.resolveNames_grows (Names.enter_ne_nil _) e.params)

theorem resolveEach_alike {α : Type} {resolve : Names → α → Resolved α}
    (hr : ∀ {s s' : Names}, s.Alike s' → ∀ a, (resolve s a).names.Alike (resolve s' a).names)
    {s s' : Names} (h : s.Alike s') (as : List α) :
    (resolveEach resolve s as).names.Alike (resolveEach resolve s' as).names := by
  induction as generalizing s s' with
  | nil => exact h
  | cons a as ih => exact ih (hr h a)

/-- What a name of a function stands for is in the table. -/
theorem Program.functionNames_alike (p : Program) :
    p.functionNames.names.Alike p.functionNames.names := by
  have hstart : ({} : Names).enter.Alike ({} : Names).enter :=
    ⟨Names.enter_ne_nil _, Names.enter_ne_nil _, .cons .nil .nil⟩
  have hexternals : p.externalNames.names.Alike p.externalNames.names :=
    resolveEach_alike External.names_alike hstart p.externals
  exact resolveEach_alike (fun h f => (h.declare f.ident .function f.returns.ty _).1) hexternals
    p.functions

theorem length_reportsEach {α : Type} (resolve : Names → α → Resolved α) (s : Names)
    (as : List α) : (reportsEach resolve s as).length = as.length := by
  induction as generalizing s with
  | nil => rfl
  | cons a as ih => rw [reportsEach, List.length_cons, ih, List.length_cons]

/-- Another body for one function changes no report about the others. -/
theorem Program.sameReports_withBody {p : Program} {i j : Nat} (hij : i ≠ j)
    (hi : i < p.functions.length) (body : Expr) : p.SameReports (p.withBody j body) i := by
  obtain ⟨hreports, hnames, hvalue⟩ := declareNames_modify p.externalNames.names p.functions j body
  have hlength : p.functionNames.value.length = p.functions.length := by
    have hmap : p.functionNames.value.map (·.params) = p.functions.map (·.params) :=
      map_resolveEach (fun _ _ => rfl) _ _
    simpa using congrArg List.length hmap
  have hdeclared : i < p.declarationReports.length := by
    rw [declarationReports, length_reportsEach]
    exact hi
  have hf : p.functionNames.value[i]? = some p.functionNames.value[i] := List.getElem?_eq_getElem _
  have hf' : (p.withBody j body).functionNames.value[i]? = some p.functionNames.value[i] := by
    rw [← hf]
    exact (congrArg (·[i]?) hvalue).trans (List.getElem?_modify_ne _ _ (Ne.symm hij))
  -- Each side resolves the function from a state that differs in the declarations of others only.
  obtain ⟨t, hscopes, htable, hinside, hreport, hend⟩ := exists_inside p.functionNames_opened hf
  obtain ⟨t', hscopes', htable', hinside', hreport', hend'⟩ :=
    exists_inside (p.withBody j body).functionNames_opened hf'
  have hstart : p.functionNames.names.Alike (p.withBody j body).functionNames.names := by
    rw [show (p.withBody j body).functionNames.names = p.functionNames.names from hnames]
    exact p.functionNames_alike
  have halike := Function.resolveInside_alike
    (hstart.widen hscopes htable hscopes' htable') p.functionNames.value[i]
  have hfunction := halike.value _ _ hend hend'
  refine ⟨⟨_, List.getElem?_eq_getElem hdeclared, ?_⟩, ⟨_, hreport, halike.report ▸ hreport'⟩,
    ?_, ?_⟩
  · rw [show (p.withBody j body).declarationReports = p.declarationReports from hreports]
    exact List.getElem?_eq_getElem hdeclared
  · exact ⟨_, List.getElem?_map.trans (congrArg (Option.map _) hinside), List.getElem?_map.trans
      ((congrArg (Option.map _) hinside').trans (congrArg some hfunction.types))⟩
  · exact ⟨_, List.getElem?_map.trans (congrArg (Option.map _) hinside), List.getElem?_map.trans
      ((congrArg (Option.map _) hinside').trans (congrArg some hfunction.checks))⟩

/-! ## Code of functions -/

mutual

theorem Expr.rename_id (e : Expr) : e.rename id = e := by
  cases e with
  | literal | var | brk => rfl
  | call n callee arguments => rw [Expr.rename, renameAll_id arguments]
  | block n body result => rw [Expr.rename, renameAll_id body, renameOpt_id result]
  | bind n i type value | assign n i value =>
    rw [Expr.rename, Expr.rename_id value]
    rfl
  | binary n op left right | loop n left right =>
    rw [Expr.rename, Expr.rename_id left, Expr.rename_id right]
  | unary n op value | group n value | ret n value => rw [Expr.rename, Expr.rename_id value]
  | branch n condition onTrue onFalse =>
    rw [Expr.rename, Expr.rename_id condition, Expr.rename_id onTrue, renameOpt_id onFalse]

theorem renameAll_id (es : List Expr) : renameAll id es = es := by
  cases es with
  | nil => rfl
  | cons e es => rw [renameAll, Expr.rename_id e, renameAll_id es]

theorem renameOpt_id (e : Option Expr) : renameOpt id e = e := by
  cases e with
  | none => rfl
  | some e => rw [renameOpt, Expr.rename_id e]

end

theorem Function.rename_id (f : Function) : f.rename id = f := by
  have hparams : f.params.map (Param.rename id) = f.params :=
    (List.map_congr_left fun _ _ => rfl).trans (List.map_id _)
  rw [Function.rename, hparams, Expr.rename_id]

/-- A piece of code is that of a function, made behind any constants and with any labels. -/
def Function.Compiles (comments : Bool) (names : List String) (f : Function) (block : List Instr) :
    Prop :=
  ∃ (c : Constants) (l m : Labels) (code : Code), l.Standard ∧ (f.place c).error = none ∧
    (f.place c).value.emit comments names (f.place c).layout.frame l = .ok (code, m) ∧
    block = code.toList

/-- Every function gets its code by itself, behind the constants and the labels of those before
it. -/
theorem exists_compiles {comments : Bool} {names : List String} {constants : Constants}
    {fs : List Function} {l m : Labels} {code : Code} (hl : l.Standard)
    (hstopped : (placeFunctions constants fs).stopped = none)
    (h : emitFunctions comments names ((placeFunctions constants fs).functions.zip
      (placeFunctions constants fs).frames) l = .ok (code, m)) :
    ∃ blocks : List (List Instr), code.toList = blocks.flatten ∧
      List.Forall₂ (Function.Compiles comments names) fs blocks := by
  induction fs generalizing constants l m code with
  | nil =>
    obtain ⟨rfl, rfl⟩ := Emit.pure_eq_ok h
    exact ⟨[], rfl, .nil⟩
  | cons f fs ih =>
    cases he : (f.place constants).error with
    | some e => simp only [placeFunctions, he] at hstopped; cases hstopped
    | none =>
      simp only [placeFunctions, he] at hstopped
      simp only [placeFunctions, he, List.zip_cons_cons, emitFunctions] at h
      obtain ⟨first, k, hfirst, h₁⟩ := Emit.bind_eq_ok h
      obtain ⟨others, k', hothers, h₂⟩ := Emit.bind_eq_ok h₁
      obtain ⟨rfl, rfl⟩ := Emit.pure_eq_ok h₂
      -- The next function goes on with the labels that this one left.
      have hk : k.Standard := by
        have hemits := Function.emits_of_ok hfirst
        generalize first.instructions = is at hemits
        cases hemits with
        | intro _ _ hb => exact (hb.issues hl).standard
      obtain ⟨blocks, hblocks, hall⟩ := ih hk hstopped hothers
      refine ⟨first.toList :: blocks, ?_,
        .cons ⟨constants, l, k, first, hl, he, hfirst, rfl⟩ hall⟩
      rw [Code.toList_append, hblocks, List.flatten_cons]

/-- Two trees of a function have the same code but for the numbers of labels. -/
theorem Function.Recast.sameBlock {f g : Function} (h : f.Recast id g) {comments : Bool}
    {names : List String} {block block' : List Instr} (hf : f.Compiles comments names block)
    (hg : g.Compiles comments names block') :
    ∃ r, Instr.SameBlock r f.ident.name block block' := by
  obtain ⟨c, l, m, code, hl, he, hcode, rfl⟩ := hf
  obtain ⟨c', l', m', code', hl', he', hcode', rfl⟩ := hg
  -- Labels and constants are counted on from where the function found the counters.
  let r : Relabelling := ⟨.shift l.branches.issued l'.branches.issued,
    .shift l.loops.issued l'.loops.issued, .shift c.entries.size c'.entries.size⟩
  have hpools : r.Pools fun c c' => r.constants.Follows c.entries.size c'.entries.size := by
    refine ⟨fun h => h 0, fun h text ty => ?_⟩
    simp only [Constants.allocate, Array.size_push]
    exact h.add 1
  have hplaced := h.place Function.injective_id hpools (Renumbering.follows_shift _ _)
  have hsame := (hplaced.value he).code comments names _ _ hplaced.layout.frame l l'
    ⟨hl, hl', Renumbering.follows_shift _ _, Renumbering.follows_shift _ _⟩
  rw [hcode, hcode'] at hsame
  have hname : (f.place c).layout.frame.function = f.ident.name :=
    (Function.laid_place he).function_eq
  rw [← hname]
  cases hsame with
  | ok hblocks => exact ⟨r, hblocks.1⟩

/-- A piece of code goes from the label of a function to its last instruction. -/
def Instr.Spans (name : String) (block : List Instr) : Prop :=
  ∃ is, block = .label name :: is ++ [.leave, .ret]

theorem Function.Compiles.spans {f : Function} {comments : Bool} {names : List String}
    {block : List Instr} (h : f.Compiles comments names block) : Instr.Spans f.ident.name block := by
  obtain ⟨c, l, m, code, -, he, hcode, rfl⟩ := h
  have hname : (f.place c).layout.frame.function = f.ident.name :=
    (Function.laid_place he).function_eq
  rw [Function.emit] at hcode
  split at hcode
  · cases hcode
  · obtain ⟨stores, -, h₁⟩ := Emit.bind_lift_eq_ok hcode
    obtain ⟨body, k, -, h₂⟩ := Emit.bind_eq_ok h₁
    obtain ⟨rfl, rfl⟩ := Emit.pure_eq_ok h₂
    rw [← hname]
    refine ⟨remark comments "prologue" ++ [.push .rbp, .mov Reg.rsp Reg.rbp] ++
      remark comments "stack allocation" ++ [.sub (.imm (f.place c).layout.frame.size) Reg.rsp] ++
      remark comments "move function parameters into local stack space" ++ stores ++
      remark comments "function body" ++ body.toList ++ remark comments "epilogue", ?_⟩
    simp only [Code.toList_append, Code.toList_instrs, List.cons_append, List.append_assoc,
      List.nil_append]

/-- The code of a program is made of the code of its functions. -/
theorem Program.exists_compiled {p : Program} {options : GenOptions} {assembly : Assembly}
    {labels : Labels} (h : (p.analyze.program.generate options).result = .ok (assembly, labels)) :
    ∃ blocks, assembly.code = header options ++ blocks.flatten ∧
      List.Forall₂ (Function.Compiles options.comments (p.functions.map (·.ident.name)))
        p.analyze.program.functions blocks := by
  obtain ⟨hstopped, -, hassemble⟩ := Program.generate_eq_ok h
  obtain ⟨code, hemit, hcode, -⟩ := PlacedFunctions.assemble_eq_ok hassemble
  rw [names_of_bare_eq p.bare_placed] at hemit
  obtain ⟨blocks, hblocks, hall⟩ := exists_compiles ⟨rfl, rfl⟩ hstopped hemit
  exact ⟨blocks, by rw [hcode, hblocks], hall⟩

theorem exists_of_forall₂ {α β : Type} {rel : α → β → Prop} {xs : List α} {ys : List β}
    (h : List.Forall₂ rel xs ys) {i : Nat} {x : α} (hx : xs[i]? = some x) :
    ∃ y, ys[i]? = some y ∧ rel x y := by
  induction h generalizing i with
  | nil => cases hx
  | cons hxy _ ih =>
    cases i with
    | zero =>
      cases hx
      exact ⟨_, rfl, hxy⟩
    | succ i => exact ih hx

theorem Program.names_withBody (p : Program) (j : Nat) (body : Expr) :
    (p.withBody j body).functions.map (·.ident.name) = p.functions.map (·.ident.name) := by
  refine List.ext_getElem? fun k => ?_
  rw [List.getElem?_map, List.getElem?_map, withBody, List.getElem?_modify]
  cases p.functions[k]? with
  | none => rfl
  | some f =>
    rw [Option.map_some]
    split <;> rfl

/-- The code of a program: a block for each function behind a header. -/
def Assembly.InBlocks (options : GenOptions) (p : Program) (a : Assembly)
    (blocks : List (List Instr)) : Prop :=
  a.code = header options ++ blocks.flatten ∧
    List.Forall₂ (fun f block => Instr.Spans f.ident.name block) p.functions blocks

theorem Program.inBlocks_of_compiles {p : Program} {options : GenOptions} {assembly : Assembly}
    {comments : Bool} {names : List String} {blocks : List (List Instr)}
    (hcode : assembly.code = header options ++ blocks.flatten)
    (hall : List.Forall₂ (Function.Compiles comments names) p.analyze.program.functions blocks) :
    assembly.InBlocks options p blocks := by
  refine ⟨hcode, ?_⟩
  have hspans : List.Forall₂ Instr.Spans (p.analyze.program.functions.map (·.ident.name)) blocks :=
    List.forall₂_map_left_iff.2 (hall.imp fun _ _ h => h.spans)
  rw [names_of_bare_eq p.bare_analyze] at hspans
  exact List.forall₂_map_left_iff.1 hspans

/-- Functions are analysed and compiled independently: if one function of a program gets another
body, the passes report the same about every other function, and the code of every other function
is the same but for the numbers of labels, which keep their order. -/
theorem Program.functions_independent (p : Program) (j : Nat) (body : Expr) :
    let q := p.withBody j body
    (p.ReportsByFunction ∧ q.ReportsByFunction ∧
      ∀ i < p.functions.length, i ≠ j → p.SameReports q i) ∧
    ∀ (options : GenOptions) (assembly assembly' : Assembly) (labels labels' : Labels),
      (p.analyze.program.generate options).result = .ok (assembly, labels) →
      (q.analyze.program.generate options).result = .ok (assembly', labels') →
      ∃ blocks blocks', assembly.InBlocks options p blocks ∧ assembly'.InBlocks options q blocks' ∧
        ∀ (i : Nat) (f : Function), p.functions[i]? = some f → i ≠ j →
          ∃ r block block', blocks[i]? = some block ∧ blocks'[i]? = some block' ∧
            Instr.SameBlock r f.ident.name block block' := by
  intro q
  refine ⟨⟨p.reportsByFunction, q.reportsByFunction, fun i hi hij => sameReports_withBody hij hi body⟩,
    fun options assembly assembly' labels labels' h h' => ?_⟩
  obtain ⟨blocks, hcode, hall⟩ := exists_compiled h
  obtain ⟨blocks', hcode', hall'⟩ := exists_compiled h'
  rw [p.names_withBody] at hall'
  refine ⟨_, _, inBlocks_of_compiles hcode hall, inBlocks_of_compiles hcode' hall', ?_⟩
  intro i f hf hij
  have hf' : q.functions[i]? = some f := by
    rw [← hf]
    exact List.getElem?_modify_ne _ _ (Ne.symm hij)
  obtain ⟨g, hg, s, t, rfl⟩ := exists_of_forall₂ p.forall₂_analyzed hf
  obtain ⟨g', hg', s', t', rfl⟩ := exists_of_forall₂ q.forall₂_analyzed hf'
  obtain ⟨block, hblock, hcompiles⟩ := exists_of_forall₂ hall hg
  obtain ⟨block', hblock', hcompiles'⟩ := exists_of_forall₂ hall' hg'
  -- Seen from the code, the trees that both analyses make of it are the same.
  have hrecast := Function.recast_analyzed id s s' t t' p.declarations q.declarations f
  rw [f.rename_id] at hrecast
  obtain ⟨r, hr⟩ := hrecast.sameBlock hcompiles hcompiles'
  rw [(f.ident_analyzed s t _).1] at hr
  exact ⟨r, block, block', hblock, hblock', hr⟩

/-- Two functions, the second of which has a loop, a branch, a string and a wrong assignment. -/
def pairText (first : String) : String :=
  "extrn int puts(string s) int twice(int x) " ++ braced first ++ " int main(bool go) " ++
    braced ("let y: int = 1; while go " ++ braced ("puts(\"main\"); go = if go " ++ braced "y" ++
      " else " ++ braced "2" ++ ";") ++ "; twice(y)")

/-- Another body for the first function, with labels of its own. -/
def otherText : String := pairText ("if true " ++ braced "puts(\"twice\")" ++ " else " ++ braced "x")

theorem Program.functions_independent_pair :
    ∃ p g assembly assembly' labels labels', ofText? "main" (pairText "x + x") = some p ∧
      (ofText? "main" otherText).bind (·.functions[0]?) = some g ∧
      (p.analyze.program.generate {}).result = .ok (assembly, labels) ∧
      ((p.withBody 0 g.body).analyze.program.generate {}).result = .ok (assembly', labels') ∧
      labels ≠ labels' ∧ p.analyze.checks ≠ [] ∧ p.SameReports (p.withBody 0 g.body) 1 ∧
      ∃ blocks blocks' r block block', assembly.InBlocks {} p blocks ∧
        assembly'.InBlocks {} (p.withBody 0 g.body) blocks' ∧ blocks[1]? = some block ∧
        blocks'[1]? = some block' ∧ Instr.SameBlock r "main" block block' := by
  have hcheck : ((ofText? "main" (pairText "x + x")).any fun p =>
      ((ofText? "main" otherText).bind (·.functions[0]?)).any fun g =>
        !p.analyze.checks.isEmpty && p.functions[1]?.any (·.ident.name = "main") &&
          (p.analyze.program.generate {}).result.toOption.any fun r =>
            ((p.withBody 0 g.body).analyze.program.generate {}).result.toOption.any fun r' =>
              decide (r.2 ≠ r'.2)) = true := by
    decide +kernel
  simp only [Option.any_eq_true, Bool.and_eq_true, decide_eq_true_eq] at hcheck
  obtain ⟨p, hp, g, hg, ⟨hreport, f, hf, hmain⟩, ⟨assembly, labels⟩, hok, ⟨assembly', labels'⟩, hok',
    hne⟩ := hcheck
  have hlt : 1 < p.functions.length := (List.getElem?_eq_some_iff.1 hf).1
  obtain ⟨⟨-, -, hsame⟩, hcode⟩ := p.functions_independent 0 g.body
  obtain ⟨blocks, blocks', hblocks, hblocks', hall⟩ := hcode {} assembly assembly' labels labels'
    (eq_ok_of_toOption hok) (eq_ok_of_toOption hok')
  obtain ⟨r, block, block', hblock, hblock', hr⟩ := hall 1 f hf (by decide)
  rw [hmain] at hr
  exact ⟨p, g, assembly, assembly', labels, labels', hp, hg, eq_ok_of_toOption hok,
    eq_ok_of_toOption hok', hne, by simpa using hreport, hsame 1 hlt (by decide), blocks, blocks', r,
    block, block', hblocks, hblocks', hblock, hblock', hr⟩

end Ilang
