import Ilang.Proofs.Acceptance
import Ilang.Proofs.Protection
import Ilang.Proofs.Recasting
import Ilang.Proofs.Variables
import Mathlib.Data.Set.Function
/-!
# Names of variables do not matter

If the variables of a program get other names, different ones for different names and none that a
function has, then analysis reports nothing about the new program if it reports nothing about the
old one, and the code of the two is the same (`Program.generate_rename`). Typing carries over by
induction over the expression (`Expr.renamable`), and so does the code, since neither placement nor
emission looks at more than whether two names are the same (`Program.generate_recast`).
-/
namespace Ilang

/-! ## Renaming -/

/-- A name, changed by `f`. -/
def Ident.rename (f : String → String) (i : Ident) : Ident := { i with name := f i.name }

mutual

/-- An expression with the names of its variables changed by `f`. The names that it calls stay. -/
def Expr.rename (f : String → String) : Expr → Expr
  | .literal n text constant => .literal n text constant
  | .var n ident => .var n (ident.rename f)
  | .call n callee arguments => .call n callee (renameAll f arguments)
  | .block n body result => .block n (renameAll f body) (renameOpt f result)
  | .bind n ident type value => .bind n (ident.rename f) type (value.rename f)
  | .assign n target value => .assign n (target.rename f) (value.rename f)
  | .binary n op left right => .binary n op (left.rename f) (right.rename f)
  | .unary n op operand => .unary n op (operand.rename f)
  | .group n inner => .group n (inner.rename f)
  | .branch n condition onTrue onFalse =>
    .branch n (condition.rename f) (onTrue.rename f) (renameOpt f onFalse)
  | .ret n value => .ret n (value.rename f)
  | .loop n condition body => .loop n (condition.rename f) (body.rename f)
  | .brk n => .brk n

/-- The same for expressions that follow each other. -/
def renameAll (f : String → String) : List Expr → List Expr
  | [] => []
  | e :: es => e.rename f :: renameAll f es

/-- The same for an expression that may be missing. -/
def renameOpt (f : String → String) : Option Expr → Option Expr
  | none => none
  | some e => some (e.rename f)

end

/-- A parameter with its name changed by `f`. -/
def Param.rename (f : String → String) (p : Param) : Param := { p with ident := p.ident.rename f }

/-- A function with the names of its parameters and variables changed by `f`. -/
def Function.rename (f : String → String) (g : Function) : Function :=
  { g with params := g.params.map (Param.rename f), body := g.body.rename f }

/-- A program with the names of all parameters and variables of its functions changed by `f`. -/
def Program.rename (f : String → String) (p : Program) : Program :=
  { p with functions := p.functions.map (Function.rename f) }

/-- The names of the parameters and variables of a program, wherever they occur. -/
def Program.variableNames (p : Program) : List String :=
  p.functions.flatMap fun g => g.variables.map (·.name)

/-- The names of the functions of a program, external ones included. -/
def Program.globalNames (p : Program) : List String :=
  p.externals.map (·.ident.name) ++ p.functions.map (·.ident.name)

variable {f g : String → String}

theorem renameAll_eq_map (f : String → String) (es : List Expr) :
    renameAll f es = es.map (Expr.rename f) := by
  induction es with
  | nil => rfl
  | cons e es ih => rw [renameAll, ih, List.map_cons]

theorem renameOpt_eq_map (f : String → String) (e : Option Expr) :
    renameOpt f e = e.map (Expr.rename f) := by
  cases e <;> rfl

theorem Expr.children_rename (f : String → String) (e : Expr) :
    (e.rename f).children = e.children.map (Expr.rename f) := by
  cases e <;> simp [rename, children, renameAll_eq_map, renameOpt_eq_map, Option.toList_map]

/-- A property that does not depend on names holds everywhere with other names. -/
theorem Expr.everywhere_rename {q : Expr → Prop} (hq : ∀ x : Expr, q x → q (x.rename f))
    {e : Expr} (h : e.Everywhere q) : (e.rename f).Everywhere q := by
  induction e using Expr.induction_children with
  | h e ih =>
    obtain ⟨hown, hchildren⟩ := everywhere_iff.1 h
    refine everywhere_iff.2 ⟨hq e hown, fun c hc => ?_⟩
    rw [children_rename] at hc
    obtain ⟨d, hd, rfl⟩ := List.mem_map.1 hc
    exact ih d hd (hchildren d hd)

/-- Two maps rename a node alike. -/
def Expr.RenamedAlike (f g : String → String) (e : Expr) : Prop :=
  ∀ i, e.variable? = some i → f i.name = g i.name

/-- Only what is done to the names at hand matters. -/
theorem Expr.rename_congr {e : Expr} (h : e.Everywhere (Expr.RenamedAlike f g)) :
    e.rename f = e.rename g := by
  induction e using Expr.induction_children with
  | h e ih =>
    obtain ⟨hown, hchildren⟩ := everywhere_iff.1 h
    have hall : ∀ c ∈ e.children, c.rename f = c.rename g := fun c hc => ih c hc (hchildren c hc)
    have hident (i : Ident) (hi : e.variable? = some i) : i.rename f = i.rename g := by
      rw [Ident.rename, Ident.rename, hown i hi]
    clear h ih hown hchildren
    cases e with
    | literal | brk => rfl
    | var n i => rw [rename, rename, hident i rfl]
    | bind n i type value | assign n i value =>
      rw [rename, rename, hident i rfl, hall value (.head _)]
    | call n callee arguments =>
      rw [rename, rename, renameAll_eq_map, renameAll_eq_map,
        List.map_congr_left (l := arguments) hall]
    | block n body result =>
      obtain ⟨hbody, hresult⟩ := List.forall_mem_append.1 hall
      rw [rename, rename, renameAll_eq_map, renameAll_eq_map, List.map_congr_left hbody]
      cases result with
      | none => rfl
      | some e => rw [renameOpt, renameOpt, hresult e (.head _)]
    | branch n condition onTrue onFalse =>
      rw [rename, rename, hall condition (.head _), hall onTrue (.tail _ (.head _))]
      cases onFalse with
      | none => rfl
      | some e => rw [renameOpt, renameOpt, hall e (.tail _ (.tail _ (.head _)))]
    | binary n op left right | loop n left right =>
      rw [rename, rename, hall left (.head _), hall right (.tail _ (.head _))]
    | unary n op value | group n value | ret n value =>
      rw [rename, rename, hall value (.head _)]

theorem exists_length_le (names : List String) : ∃ bound, ∀ x ∈ names, x.length ≤ bound := by
  induction names with
  | nil => exact ⟨0, by simp⟩
  | cons x names ih =>
    obtain ⟨bound, hbound⟩ := ih
    refine ⟨max x.length bound, List.forall_mem_cons.2 ⟨Nat.le_max_left .., fun y hy => ?_⟩⟩
    exact (hbound y hy).trans (Nat.le_max_right ..)

/-- A map that is injective on some names can be made one that is injective on all, and that avoids
the same names. -/
theorem exists_injective_extension {names taken : List String}
    (hf : Set.InjOn f {x | x ∈ names}) (hnew : ∀ x ∈ names, f x ∉ taken) :
    ∃ g : String → String, Function.Injective g ∧ (∀ x, g x ∉ taken) ∧ ∀ x ∈ names, f x = g x := by
  -- A name that is not among the given ones gets a tail that makes it longer than all of those.
  obtain ⟨bound, hbound⟩ := exists_length_le (names.map f ++ taken)
  let long (x : String) : String := x ++ String.ofList (List.replicate (bound + 1) 'x')
  have hlong : ∀ x, bound < (long x).length := by
    intro x
    simp only [long, String.length_append, String.length_ofList, List.length_replicate]
    omega
  have hshort : ∀ x ∈ names, ∀ y, f x ≠ long y := by
    intro x hx y heq
    have := hbound (f x) (List.mem_append_left _ (List.mem_map_of_mem hx))
    have := hlong y
    rw [← heq] at this
    omega
  refine ⟨fun x => if x ∈ names then f x else long x, fun x y hxy => ?_, fun x => ?_, ?_⟩
  · dsimp only at hxy
    split at hxy <;> split at hxy
    · exact hf ‹_› ‹_› hxy
    · exact absurd hxy (hshort x ‹_› y)
    · exact absurd hxy.symm (hshort y ‹_› x)
    · exact String.append_left_inj _ |>.1 hxy
  · dsimp only
    split
    · exact hnew x ‹_›
    · intro hmem
      have := hbound _ (List.mem_append_right _ hmem)
      have := hlong x
      omega
  · intro x hx
    exact (if_pos hx).symm

/-! ## Typing with other names -/

/-- An environment knows the variables of another one under their new names, and the same functions,
all of which have names that are taken. -/
structure Env.Renames (f : String → String) (taken : List String) (Γ Δ : Env) : Prop where
  value {x : String} {t : Ty} (h : Γ x = some (.value t)) : Δ (f x) = some (.value t)
  callable {x : String} {signature : Signature} {t : Ty}
    (h : Γ x = some (.callable signature t)) : Δ x = some (.callable signature t) ∧ x ∈ taken

section
variable {taken : List String} {Γ Γ' Δ : Env} (hf : Function.Injective f)
  (htaken : ∀ x, f x ∉ taken)
include hf htaken

theorem Env.Renames.update (h : Env.Renames f taken Γ Δ) (x : String) (t : Ty) :
    Env.Renames f taken (Function.update Γ x (some (.value t)))
      (Function.update Δ (f x) (some (.value t))) where
  value {y u} hy := by
    by_cases hxy : y = x
    · subst hxy
      rw [Function.update_self] at hy ⊢
      exact hy
    · rw [Function.update_of_ne hxy] at hy
      rw [Function.update_of_ne fun heq => hxy (hf heq)]
      exact h.value hy
  callable {y signature u} hy := by
    by_cases hxy : y = x
    · subst hxy
      rw [Function.update_self] at hy
      cases hy
    · rw [Function.update_of_ne hxy] at hy
      obtain ⟨hcallable, hmem⟩ := h.callable hy
      refine ⟨?_, hmem⟩
      -- No variable is renamed to what can be called, so none hides it.
      have hne : y ≠ f x := by
        rintro rfl
        exact htaken x hmem
      rw [Function.update_of_ne hne]
      exact hcallable

theorem Env.Renames.extend (h : Env.Renames f taken Γ Δ) (ps : List Param) :
    Env.Renames f taken (Γ.extend (ps.map Param.entry))
      (Δ.extend ((ps.map (Param.rename f)).map Param.entry)) := by
  induction ps generalizing Γ Δ with
  | nil => exact h
  | cons p ps ih => exact ih (h.update hf htaken p.ident.name (Ty.ofName p.type.name))

end

theorem Expr.declared_rename (f : String → String) (e : Expr) :
    (e.rename f).declared = e.declared.map f := by
  cases e <;> rfl

theorem nodup_declared_rename (hf : Function.Injective f) {es : List Expr}
    (h : (es.flatMap Expr.declared).Nodup) : ((renameAll f es).flatMap Expr.declared).Nodup := by
  rw [renameAll_eq_map, List.flatMap_map]
  simp only [Expr.declared_rename]
  rw [← List.map_flatMap]
  exact h.map hf

/-- An expression keeps its type with other names for variables, also as a statement. -/
structure Expr.Renamable (f : String → String) (taken : List String) (returns : Ty) (e : Expr) :
    Prop where
  hasType {l : Bool} {Γ Δ : Env} {t : Ty} (h : HasType returns l Γ e t)
    (hΓ : Env.Renames f taken Γ Δ) : HasType returns l Δ (e.rename f) t
  proceeds {l : Bool} {Γ Γ' Δ : Env} {t : Ty} (h : Proceeds returns l Γ e t Γ')
    (hΓ : Env.Renames f taken Γ Δ) :
    ∃ Δ', Proceeds returns l Δ (e.rename f) t Δ' ∧ Env.Renames f taken Γ' Δ'

section
variable {taken : List String} {returns : Ty} {l : Bool} {Γ Γ' Δ : Env} {es : List Expr}

theorem HaveTypes.rename (hes : ∀ e ∈ es, e.Renamable f taken returns) {ts : List Ty}
    (h : HaveTypes returns l Γ es ts) (hΓ : Env.Renames f taken Γ Δ) :
    HaveTypes returns l Δ (renameAll f es) ts := by
  induction es generalizing ts with
  | nil => cases h; exact .nil
  | cons e es ih =>
    obtain ⟨he, hes⟩ := List.forall_mem_cons.1 hes
    cases h with
    | cons hfirst hothers => exact .cons (he.hasType hfirst hΓ) (ih hes hothers)

theorem ProceedsAll.rename (hes : ∀ e ∈ es, e.Renamable f taken returns)
    (h : ProceedsAll returns l Γ es Γ') (hΓ : Env.Renames f taken Γ Δ) :
    ∃ Δ', ProceedsAll returns l Δ (renameAll f es) Δ' ∧ Env.Renames f taken Γ' Δ' := by
  induction es generalizing Γ Δ with
  | nil => cases h; exact ⟨Δ, .nil, hΓ⟩
  | cons e es ih =>
    obtain ⟨he, hes⟩ := List.forall_mem_cons.1 hes
    cases h with
    | cons hfirst hothers =>
      obtain ⟨Δ₁, hfirst, hΓ₁⟩ := he.proceeds hfirst hΓ
      obtain ⟨Δ₂, hothers, hΓ₂⟩ := ih hes hothers hΓ₁
      exact ⟨Δ₂, .cons hfirst hothers, hΓ₂⟩

end

/-- The rules of typing do not look at more of the names of variables than whether they are the
same. -/
theorem Expr.renamable (hf : Function.Injective f) {taken : List String}
    (htaken : ∀ x, f x ∉ taken) (returns : Ty) (e : Expr) : e.Renamable f taken returns := by
  induction e using Expr.induction_children with
  | h e ih =>
    -- Values come first, since each statement but a declaration is one.
    have hasType {l : Bool} {Γ Δ : Env} {t : Ty} (h : HasType returns l Γ e t)
        (hΓ : Env.Renames f taken Γ Δ) : HasType returns l Δ (e.rename f) t := by
      cases h with
      | literal h => exact .literal h
      | var h => exact .var (hΓ.value h)
      | call h ha hts => exact .call (hΓ.callable h).1 (ha.rename ih hΓ) hts
      | block hd hb =>
        rw [children, Option.toList_none, List.append_nil] at ih
        obtain ⟨Δ', hb, -⟩ := hb.rename ih hΓ
        exact .block (nodup_declared_rename hf hd) hb
      | blockResult hd hb he =>
        obtain ⟨hbody, hresult⟩ := List.forall_mem_append.1 ih
        obtain ⟨Δ', hb, hΓ'⟩ := hb.rename hbody hΓ
        obtain ⟨Δ'', he, -⟩ := (hresult _ (.head _)).proceeds he hΓ'
        have hd := nodup_declared_rename hf hd
        rw [renameAll_eq_map, List.map_append, ← renameAll_eq_map] at hd
        exact .blockResult hd hb he
      | assign h hv => exact .assign (hΓ.value h) ((ih _ (.head _)).hasType hv hΓ)
      | binary hl hr ho =>
        exact .binary ((ih _ (.head _)).hasType hl hΓ)
          ((ih _ (.tail _ (.head _))).hasType hr hΓ) ho
      | unary he ho => exact .unary ((ih _ (.head _)).hasType he hΓ) ho
      | group he => exact .group ((ih _ (.head _)).hasType he hΓ)
      | branch hc ht =>
        exact .branch ((ih _ (.head _)).hasType hc hΓ) ((ih _ (.tail _ (.head _))).hasType ht hΓ)
      | branchElse hc ht he =>
        exact .branchElse ((ih _ (.head _)).hasType hc hΓ)
          ((ih _ (.tail _ (.head _))).hasType ht hΓ)
          ((ih _ (.tail _ (.tail _ (.head _)))).hasType he hΓ)
      | ret hv => exact .ret ((ih _ (.head _)).hasType hv hΓ)
      | loop hc hb =>
        exact .loop ((ih _ (.head _)).hasType hc hΓ) ((ih _ (.tail _ (.head _))).hasType hb hΓ)
      | brk => exact .brk
    refine ⟨hasType, fun h hΓ => ?_⟩
    cases h with
    | value h => exact ⟨_, .value (hasType h hΓ), hΓ⟩
    | bind ht hv =>
      exact ⟨_, .bind ht ((ih _ (.head _)).hasType hv hΓ), hΓ.update hf htaken _ _⟩

/-! ## Analysis with other names -/

theorem Program.entries_rename (f : String → String) (p : Program) :
    (p.rename f).entries = p.entries := by
  simp [entries, rename, Function.entry, Function.rename, headerMeaning, Param.rename,
    Function.comp_def]

theorem Program.map_fst_entries (p : Program) : p.entries.map Prod.fst = p.globalNames := by
  simp [entries, globalNames, External.entry, Function.entry, Function.comp_def]

theorem Env.mem_of_extend {Γ : Env} {names : List (String × Meaning)} {x : String} {m : Meaning}
    (h : Γ.extend names x = some m) : Γ x = some m ∨ (x, m) ∈ names := by
  induction names generalizing Γ with
  | nil => exact .inl h
  | cons y names ih =>
    rcases ih h with h | h
    · dsimp only at h
      by_cases hxy : x = y.1
      · subst hxy
        rw [Function.update_self] at h
        cases h
        exact .inr (.head _)
      · rw [Function.update_of_ne hxy] at h
        exact .inl h
    · exact .inr (.tail _ h)

/-- Where only functions are visible, other names for variables change nothing. -/
theorem Program.renames_entries (f : String → String) (p : Program) :
    Env.Renames f p.globalNames (Env.extend (fun _ => none) p.entries)
      (Env.extend (fun _ => none) p.entries) := by
  have hmem {x : String} {m : Meaning} (h : Env.extend (fun _ => none) p.entries x = some m) :
      (x, m) ∈ p.entries := by
    rcases Env.mem_of_extend h with h | h
    · cases h
    · exact h
  refine ⟨fun h => ?_, fun h => ⟨h, ?_⟩⟩
  · have hentry := hmem h
    simp [entries, External.entry, Function.entry, headerMeaning] at hentry
  · rw [← p.map_fst_entries]
    exact List.mem_map_of_mem (hmem h)

theorem Function.WellTyped.rename (hf : Function.Injective f) {taken : List String}
    (htaken : ∀ x, f x ∉ taken) {Γ : Env} (hΓ : Env.Renames f taken Γ Γ) {h : Function}
    (hh : h.WellTyped Γ) : (h.rename f).WellTyped Γ := by
  refine ⟨⟨fun type htype => hh.header.known type ?_, ?_⟩, ?_⟩
  · simpa [Function.rename, Param.rename] using htype
  · have hdistinct := hh.header.distinct.map hf
    simpa [Function.rename, Param.rename, Ident.rename, Function.comp_def] using hdistinct
  · exact (Expr.renamable hf htaken _ h.body).hasType hh.body (hΓ.extend hf htaken h.params)

theorem Expr.isBind_rename (f : String → String) (e : Expr) : (e.rename f).isBind = e.isBind := by
  cases e <;> rfl

theorem Expr.AsRead.rename {e : Expr} (h : e.AsRead) : (e.rename f).AsRead := by
  have hchildren (hall : ∀ c ∈ e.children, c.isBind = false) :
      ∀ c ∈ (e.rename f).children, c.isBind = false := by
    rw [children_rename]
    intro c hc
    obtain ⟨d, hd, rfl⟩ := List.mem_map.1 hc
    rw [isBind_rename, hall d hd]
  cases e with
  | block => trivial
  | bind n i type value => exact ⟨h.1, (value.isBind_rename f).trans h.2⟩
  | _ => exact hchildren h

theorem Program.AsRead.rename {p : Program} (h : p.AsRead) : (p.rename f).AsRead := by
  refine ⟨fun g hg => ?_, h.externals⟩
  obtain ⟨g₀, hg₀, rfl⟩ := List.mem_map.1 hg
  obtain ⟨hname, hreturns, hparams, hbody⟩ := h.functions g₀ hg₀
  refine ⟨hname, hreturns, fun q hq => ?_, (g₀.body.isBind_rename f).trans hbody.notBind,
    Expr.everywhere_rename (q := Expr.AsRead) (fun _ => Expr.AsRead.rename) hbody.everywhere⟩
  obtain ⟨q₀, hq₀, rfl⟩ := List.mem_map.1 hq
  exact hparams q₀ hq₀

/-- Analysis reports nothing about a program with other names for its variables if it reports
nothing about the program itself. -/
theorem Program.report_rename (hf : Function.Injective f) {p : Program} (hread : p.AsRead)
    (hnew : ∀ x, f x ∉ p.globalNames) (h : p.analyze.report = []) :
    (p.rename f).analyze.report = [] := by
  rw [report_iff] at h ⊢
  obtain ⟨hdeclared, hheaders, hinside⟩ := h
  rw [declared_iff hread] at hdeclared
  rw [declared_iff hread.rename, entries_rename]
  refine ⟨hdeclared, hheaders, ?_⟩
  have hnames : ((p.rename f).entries.map Prod.fst).Nodup := by
    rw [entries_rename]
    exact hdeclared.1
  rw [inside_iff hread hdeclared.1] at hinside
  rw [inside_iff hread.rename hnames, entries_rename]
  intro g hg
  obtain ⟨g₀, hg₀, rfl⟩ := List.mem_map.1 hg
  exact (hinside g₀ hg₀).rename hf hnew (p.renames_entries f)

/-! ## Code with other names -/

section
variable (f : String → String) (s s' : Names) (table table' : DeclTable)

theorem Names.recast_refer (i : Ident) :
    Ident.Recast f (s.refer i).value (s'.refer (i.rename f)).value :=
  ⟨rfl, rfl⟩

theorem Names.recast_declare (i : Ident) (kind : DeclKind) (ty : Ty)
    (signature : Option Signature) : Ident.Recast f (s.declare i kind ty signature).value
      (s'.declare (i.rename f) kind ty signature).value := by
  rw [Names.declare_value, Names.declare_value]
  exact ⟨rfl, rfl⟩

end

mutual

/-- What analysis leaves of a tree and of the tree with other names differs in names alone, but for
notes that are of no account for the code. -/
theorem Expr.recast_analyzed (f : String → String) (s s' : Names) (table table' : DeclTable)
    (e : Expr) : Recast f ((e.resolveNames s).value.resolveTypes table).value
      (((e.rename f).resolveNames s').value.resolveTypes table').value := by
  cases e with
  | literal n text constant =>
    simp only [Expr.rename, Expr.resolveNames, Expr.resolveTypes]
    cases Literal.type? text <;> exact .literal rfl rfl
  | var n i => exact .var (Names.recast_refer f s s' i)
  | call n callee arguments =>
    exact .call rfl rfl (recastAll_analyzed f _ _ table table' arguments)
  | block n body result =>
    exact .block (recastAll_analyzed f _ _ table table' body)
      (recastOpt_analyzed f _ _ table table' result)
  | bind n i type value =>
    exact .bind (Names.recast_declare f _ _ i _ _ _) (Expr.recast_analyzed f _ _ table table' value)
  | assign n i value =>
    exact .assign (Names.recast_refer f _ _ i) (Expr.recast_analyzed f _ _ table table' value)
  | binary n op left right =>
    exact .binary (Expr.recast_analyzed f _ _ table table' left)
      (Expr.recast_analyzed f _ _ table table' right)
  | unary n op value => exact .unary (Expr.recast_analyzed f _ _ table table' value)
  | group n value => exact .group (Expr.recast_analyzed f _ _ table table' value)
  | branch n condition onTrue onFalse =>
    exact .branch (Expr.recast_analyzed f _ _ table table' condition)
      (Expr.recast_analyzed f _ _ table table' onTrue)
      (recastOpt_analyzed f _ _ table table' onFalse)
  | ret n value => exact .ret (Expr.recast_analyzed f _ _ table table' value)
  | loop n condition body =>
    exact .loop (Expr.recast_analyzed f _ _ table table' condition)
      (Expr.recast_analyzed f _ _ table table' body)
  | brk n => exact .brk rfl

theorem recastAll_analyzed (f : String → String) (s s' : Names) (table table' : DeclTable)
    (es : List Expr) : RecastAll f (resolveTypesAll table (resolveNamesAll s es).value).value
      (resolveTypesAll table' (resolveNamesAll s' (renameAll f es)).value).value := by
  cases es with
  | nil => exact .nil
  | cons e es =>
    exact .cons (Expr.recast_analyzed f _ _ table table' e)
      (recastAll_analyzed f _ _ table table' es)

theorem recastOpt_analyzed (f : String → String) (s s' : Names) (table table' : DeclTable)
    (e : Option Expr) : RecastOpt f (resolveTypesOpt table (resolveNamesOpt s e).value).value
      (resolveTypesOpt table' (resolveNamesOpt s' (renameOpt f e)).value).value := by
  cases e with
  | none => exact .none
  | some e => exact .some (Expr.recast_analyzed f _ _ table table' e)

end

/-- A function as analysis leaves it. -/
def Function.analyzed (declaring inside : Names) (table : DeclTable) (g : Function) : Function :=
  (((g.declareName declaring).value.resolveInside inside).value.resolveTypes table).value

theorem Function.ident_analyzed (s t : Names) (table : DeclTable) (g : Function) :
    (g.analyzed s t table).ident.name = g.ident.name ∧
      (g.analyzed s t table).ident.location = g.ident.location := by
  simp [analyzed, resolveTypes, resolveInside, declareName, Names.declare_value]

theorem recast_resolveParams (f : String → String) (s s' : Names) (ps : List Param) :
    List.Forall₂ (Param.Recast f) (resolveEach Param.resolveNames s ps).value
      (resolveEach Param.resolveNames s' (ps.map (Param.rename f))).value := by
  induction ps generalizing s s' with
  | nil => exact .nil
  | cons p ps ih => exact .cons ⟨Names.recast_declare f _ _ p.ident _ _ _, rfl⟩ (ih _ _)

theorem Function.recast_analyzed (f : String → String) (s s' t t' : Names)
    (table table' : DeclTable) (g : Function) :
    (g.analyzed s t table).Recast f ((g.rename f).analyzed s' t' table') := by
  obtain ⟨hname, hlocation⟩ := g.ident_analyzed s t table
  obtain ⟨hname', hlocation'⟩ := (g.rename f).ident_analyzed s' t' table'
  exact ⟨hname'.trans hname.symm, hlocation'.trans hlocation.symm,
    recast_resolveParams f _ _ g.params, Expr.recast_analyzed f _ _ _ _ g.body⟩

/-- Analysis goes through functions one after another. -/
theorem Program.forall₂_analyzed (p : Program) :
    List.Forall₂ (fun g h => ∃ s t, h = g.analyzed s t p.declarations) p.functions
      p.analyze.program.functions := by
  have hdeclared : ∀ (s t : Names) (fs : List Function), List.Forall₂
      (fun g h => ∃ s t, h = g.analyzed s t p.declarations) fs
      (((resolveEach Function.resolveInside t
        (resolveEach Function.declareName s fs).value).value.map
          (Function.resolveTypes p.declarations)).map Typed.value) := by
    intro s t fs
    induction fs generalizing s t with
    | nil => exact .nil
    | cons g fs ih => exact .cons ⟨s, t, rfl⟩ (ih _ _)
  exact hdeclared p.externalNames.names p.functionNames.names p.functions

theorem Program.recast_analyze (f : String → String) (p : Program) :
    List.Forall₂ (Function.Recast f) p.analyze.program.functions
      (p.rename f).analyze.program.functions := by
  have hold := p.forall₂_analyzed
  have hnew := List.forall₂_map_left_iff.1 (p.rename f).forall₂_analyzed
  refine List.forall₂_iff_get.2 ⟨hold.length_eq.symm.trans hnew.length_eq, fun i hi hi' => ?_⟩
  have hlt : i < p.functions.length := hold.length_eq ▸ hi
  obtain ⟨s, t, heq⟩ := hold.get hlt hi
  obtain ⟨s', t', heq'⟩ := hnew.get hlt hi'
  rw [heq, heq']
  exact Function.recast_analyzed f s s' t t' _ _ _

/-! ## Programs with other names -/

theorem Relabelling.pools_same : Relabelling.same.Pools Eq where
  paired := by rintro c _ rfl; rfl
  allocate := by rintro c _ rfl _ _; rfl

theorem Labels.Follow.eq {l m : Labels} (h : Labels.Follow .same l m) : m = l := by
  obtain ⟨⟨_, i⟩, ⟨_, j⟩⟩ := l
  obtain ⟨⟨_, i'⟩, ⟨_, j'⟩⟩ := m
  obtain ⟨⟨rfl, rfl⟩, ⟨rfl, rfl⟩, hbranches, hloops⟩ := h
  obtain rfl : i = i' := hbranches 0
  obtain rfl : j = j' := hloops 0
  rfl

theorem Instr.SameBlock.eq {name : String} {block block' : List Instr}
    (h : Instr.SameBlock .same name block block') : block' = block := by
  obtain ⟨is, js, rfl, rfl, h⟩ := h
  have heq : is = js := List.forall₂_eq_eq_eq ▸ h.imp fun _ _ hij => hij.eq.symm
  rw [heq]

/-- Functions that are placed alike but for names, and have the same code if all of them are
placed. -/
structure PlacedFunctions.Recast (f : String → String) (p q : PlacedFunctions) : Prop where
  constants : q.constants = p.constants
  stopped : q.stopped.map Prod.snd = p.stopped.map fun x => x.2.rename f
  functions : p.stopped = none →
    List.Forall₂ (Function.RecastCode f .same) p.functions q.functions ∧
      List.Forall₂ (Frame.Recast f .same) p.frames q.frames

theorem placeFunctions_recast (hf : Function.Injective f) {gs hs : List Function}
    (h : List.Forall₂ (Function.Recast f) gs hs) (constants : Constants) :
    (placeFunctions constants gs).Recast f (placeFunctions constants hs) := by
  induction h generalizing constants with
  | nil => exact ⟨rfl, rfl, fun _ => ⟨.nil, .nil⟩⟩
  | @cons g h gs hs hgh _ ih =>
    have hfirst := Function.Recast.place hf Relabelling.pools_same hgh (rfl : constants = constants)
    cases he : (g.place constants).error with
    | some e =>
      simp only [placeFunctions, hfirst.error, he, Option.map_some]
      exact ⟨hfirst.layout.constants.symm, rfl, fun hn => by cases hn⟩
    | none =>
      have hothers := ih (g.place constants).layout.constants
      simp only [placeFunctions, hfirst.error, he, Option.map_none, ← hfirst.layout.constants]
      refine ⟨hothers.constants, hothers.stopped, fun hn => ?_⟩
      obtain ⟨hfunctions, hframes⟩ := hothers.functions hn
      exact ⟨.cons (hfirst.value he) hfunctions, .cons hfirst.layout.frame hframes⟩

theorem emitFunctions_recast (comments : Bool) (names : List String) {gs hs : List Function}
    (h : List.Forall₂ (Function.RecastCode f .same) gs hs) {frames frames' : List Frame}
    (hframes : List.Forall₂ (Frame.Recast f .same) frames frames') :
    Emit.Alike f .same (fun c d => d.toList = c.toList) (emitFunctions comments names (gs.zip frames))
      (emitFunctions comments names (hs.zip frames')) := by
  induction h generalizing frames frames' with
  | nil => exact .pure rfl
  | cons hfirst _ ih =>
    cases hframes with
    | nil => exact .pure rfl
    | cons hframe hframes =>
      simp only [List.zip_cons_cons, emitFunctions]
      refine (hfirst.code comments names _ _ hframe).bind fun c d hcd =>
        (ih hframes).bind fun c' d' hcd' => .pure ?_
      rw [Code.toList_append, Code.toList_append, hcd.eq, hcd']

theorem Constants.dataLines_alike (f : String → String) (c : Constants) :
    SameOutcome f Eq c.dataLines c.dataLines := by
  have hentries (cs : List Constant) : SameOutcome f Eq (entriesLines cs) (entriesLines cs) := by
    induction cs with
    | nil => exact .ok rfl
    | cons c cs ih =>
      have hentry : SameOutcome f Eq (entryLines c) (entryLines c) := by
        unfold entryLines
        split
        · exact .ok rfl
        · exact .unnamed rfl
      exact hentry.bind fun _ _ h => ih.bind fun _ _ h' => .ok (by rw [h, h'])
  exact (hentries _).bind fun _ _ h => .ok (by rw [h])

theorem names_eq_of_forall₂ {same : Function → Function → Prop}
    (hsame : ∀ g h, same g h → h.ident.name = g.ident.name) {gs hs : List Function}
    (h : List.Forall₂ same gs hs) : hs.map (·.ident.name) = gs.map (·.ident.name) := by
  induction h with
  | nil => rfl
  | cons hgh _ ih => rw [List.map_cons, List.map_cons, hsame _ _ hgh, ih]

theorem PlacedFunctions.Recast.assemble {p q : PlacedFunctions} (h : p.Recast f q)
    (hp : p.stopped = none) (options : GenOptions) :
    SameOutcome f Eq (p.assemble options) (q.assemble options) := by
  obtain ⟨hfunctions, hframes⟩ := h.functions hp
  have hnames := names_eq_of_forall₂ (fun _ _ h => h.name) hfunctions
  simp only [PlacedFunctions.assemble, hnames, h.constants]
  refine SameOutcome.bind (emitFunctions_recast _ _ hfunctions hframes {} {} ?_) ?_
  · exact ⟨⟨rfl, rfl⟩, ⟨rfl, rfl⟩, Renumbering.follows_same _, Renumbering.follows_same _⟩
  · rintro ⟨c, l⟩ ⟨d, m⟩ ⟨hcode, hlabels⟩
    refine (p.constants.dataLines_alike f).bind fun data _ hdata => .ok ?_
    rw [← hdata, hlabels.eq, hcode]

theorem firstRedeclared_recast {gs hs : List Function} (h : List.Forall₂ (Function.Recast f) gs hs)
    (earlier : List String) :
    (firstRedeclared earlier hs).map (fun g => (g.ident.name, g.ident.location)) =
      (firstRedeclared earlier gs).map fun g => (g.ident.name, g.ident.location) := by
  induction h generalizing earlier with
  | nil => rfl
  | cons hgh _ ih =>
    simp only [firstRedeclared, hgh.name]
    split
    · rw [Option.map_some, Option.map_some, hgh.name, hgh.location]
    · exact ih _

theorem Program.checkFunctions_recast {p q : Program}
    (h : List.Forall₂ (Function.Recast f) p.functions q.functions) (options : GenOptions) :
    q.checkFunctions options = p.checkFunctions options := by
  have hany : q.functions.any (·.ident.name = options.entryPoint) =
      p.functions.any (·.ident.name = options.entryPoint) := by
    have hnames := congrArg (List.any · (· = options.entryPoint))
      (names_eq_of_forall₂ (fun _ _ h => h.name) h)
    simpa only [List.any_map, Function.comp_def] using hnames
  have hfirst := firstRedeclared_recast h []
  simp only [checkFunctions, hany]
  generalize firstRedeclared [] p.functions = u, firstRedeclared [] q.functions = v at hfirst
  cases u with
  | none =>
    cases v with
    | none => rfl
    | some => cases hfirst
  | some g =>
    cases v with
    | none => cases hfirst
    | some h =>
      obtain ⟨hname, hlocation⟩ := Prod.mk.inj (Option.some.inj hfirst)
      dsimp only
      rw [hname, hlocation]

/-- Programs that differ in the names of variables get the same code, or the same error about the
new name. -/
theorem Program.generate_recast (hf : Function.Injective f) {p q : Program}
    (h : List.Forall₂ (Function.Recast f) p.functions q.functions) (options : GenOptions) :
    SameOutcome f Eq (p.generate options).result (q.generate options).result := by
  have hplaced := placeFunctions_recast hf h {}
  have hstopped := hplaced.stopped
  simp only [Program.generate, Program.checkFunctions_recast h]
  cases hcheck : p.checkFunctions options with
  | error e =>
    -- What is checked in front of placement is about functions, whose names stay.
    refine .unnamed ?_
    unfold checkFunctions at hcheck
    split at hcheck
    · cases hcheck
      rfl
    · split at hcheck
      · cases hcheck
        rfl
      · cases hcheck
  | ok =>
    dsimp only
    cases hs : (placeFunctions {} p.functions).stopped with
    | none =>
      rw [hs, Option.map_none, Option.map_eq_none_iff] at hstopped
      rw [hstopped]
      exact hplaced.assemble hs options
    | some x =>
      rw [hs, Option.map_some, Option.map_eq_some_iff] at hstopped
      obtain ⟨y, hy, heq⟩ := hstopped
      rw [hy]
      dsimp only
      rw [heq]
      exact .error _

theorem GenError.IsLimit.rename {e : GenError} (h : e.IsLimit) (f : String → String) :
    e.rename f = e := by
  cases e <;> first | rfl | cases h

theorem Program.rename_congr {p : Program} (h : ∀ x ∈ p.variableNames, f x = g x) :
    p.rename f = p.rename g := by
  unfold rename
  congr 1
  refine List.map_congr_left fun k hk => ?_
  have hvariables : ∀ i ∈ k.variables, f i.name = g i.name := fun i hi =>
    h i.name (List.mem_flatMap.2 ⟨k, hk, List.mem_map_of_mem hi⟩)
  obtain ⟨hparams, hbody⟩ := List.forall_mem_append.1 hvariables
  unfold Function.rename
  congr 1
  · refine List.map_congr_left fun p hp => ?_
    rw [Param.rename, Param.rename, Ident.rename, Ident.rename,
      hparams p.ident (List.mem_map_of_mem hp)]
  · refine Expr.rename_congr fun x hx i hi => hbody i (List.mem_filterMap.2 ⟨x, ?_, hi⟩)
    exact Expr.mem_nodes.2 hx

/-- The names of variables do not matter: if the variables of a program that analysis accepts get
other names, different ones for different names and none that a function has, then analysis accepts
the new program too, and the assembly of the two is the same, or the error is. -/
theorem Program.generate_rename {p : Program} (hread : p.Written) (hclean : p.analyze.report = [])
    (hf : Set.InjOn f {x | x ∈ p.variableNames})
    (hnew : ∀ x ∈ p.variableNames, f x ∉ p.globalNames) :
    (p.rename f).analyze.report = [] ∧ ∀ options,
      ((p.rename f).analyze.program.generate options).result =
        (p.analyze.program.generate options).result := by
  -- Only the names that occur count, so the map may be injective on all names.
  obtain ⟨g, hg, htaken, heq⟩ := exists_injective_extension hf hnew
  rw [rename_congr heq]
  refine ⟨p.report_rename hg hread.asRead htaken hclean, fun options => ?_⟩
  have hsame := generate_recast hg (p.recast_analyze g) options
  -- If analysis is silent, code can fail on limits only, and such an error names no variable.
  have hlimited := p.generate_limited options hclean
  generalize (p.analyze.program.generate options).result = x,
    ((p.rename g).analyze.program.generate options).result = y at hsame hlimited
  cases hsame with
  | ok h => rw [h]
  | error e => rw [hlimited.1.rename g]

/-- Two functions with variables of the same names, one of which is hidden in a loop. -/
def swappedText : String :=
  "extrn int puts(string s) int twice(int x) " ++ braced "x + x" ++ " int main(int x, bool go) " ++
    braced ("let y: int = twice(x); while go " ++
      braced "let x: string = \"y\"; puts(x); go = !go;" ++ "; y")

/-- Exchanges two names. -/
def swapped (x : String) : String := if x = "x" then "y" else if x = "y" then "x" else x

theorem Program.generate_rename_swapped :
    ∃ p, Program.ofText? "main" swappedText = some p ∧ p.analyze.report = [] ∧
      Set.InjOn swapped {x | x ∈ p.variableNames} ∧
      (∀ x ∈ p.variableNames, swapped x ∉ p.globalNames) ∧
      (p.rename swapped).variableNames ≠ p.variableNames ∧
      (p.rename swapped).analyze.report = [] ∧
      ((p.rename swapped).analyze.program.generate {}).result =
        (p.analyze.program.generate {}).result ∧
      (p.analyze.program.generate {}).result.isOk = true := by
  have hcheck : ((Program.ofText? "main" swappedText).any fun p =>
      p.analyze.report.isEmpty && (p.variableNames.all fun x =>
        p.variableNames.all (fun y => decide (swapped x = swapped y → x = y)) &&
          decide (swapped x ∉ p.globalNames)) &&
        decide ((p.rename swapped).variableNames ≠ p.variableNames) &&
        (p.analyze.program.generate {}).result.isOk) = true := by
    decide +kernel
  obtain ⟨p, hp, hq⟩ := (Option.any_eq_true ..).1 hcheck
  simp only [Bool.and_eq_true, List.all_eq_true, decide_eq_true_eq, List.isEmpty_iff] at hq
  obtain ⟨⟨⟨hclean, hnames⟩, hother⟩, hok⟩ := hq
  have hinj : Set.InjOn swapped {x | x ∈ p.variableNames} :=
    fun x hx y hy hxy => (hnames x hx).1 y hy hxy
  have hnew : ∀ x ∈ p.variableNames, swapped x ∉ p.globalNames := fun x hx => (hnames x hx).2
  obtain ⟨hreport, hresult⟩ :=
    Program.generate_rename (Program.written_of_ofText? hp) hclean hinj hnew
  exact ⟨p, hp, hclean, hinj, hnew, hother, hreport, hresult {}, hok⟩

end Ilang
