import Ilang.Proofs.Names
import Ilang.Proofs.Placement
import Mathlib.Data.List.Induction
import Mathlib.Data.List.Infix
/-!
# Scopes around a piece of work

Whatever calls are made on scopes, as long as they close only what they opened themselves, they can
only add names to the scope that was innermost before (`Scopes.Nested.over`). So calls that have a
scope of their own leave no trace, and going through an expression, which makes such calls, leaves
all scopes around the innermost one as they were (`scopes_restored`).
-/
namespace Ilang

namespace Scopes

variable {α : Type}

/-! ## Calls -/

/-- A call on scopes. -/
inductive Operation (α : Type) where
  | push
  | pop
  | declare (name : String) (a : α)
  | lookup (name : String)
deriving DecidableEq, Repr

/-- What a call gives back. -/
inductive Answer (α : Type) where
  | pushed
  | popped (wasOpen : Bool)
  | declared
  | existing (a : α)
  | meaning (a : Option α)
deriving DecidableEq, Repr

def Operation.isPush : Operation α → Bool
  | push => true
  | _ => false

def Operation.isPop : Operation α → Bool
  | pop => true
  | _ => false

/-- What a call gives back, and the scopes behind it. -/
def call (s : Scopes α) : Operation α → Answer α × Scopes α
  | .push => (.pushed, s.push)
  | .pop => (.popped (!s.isEmpty), s.pop)
  | .declare name a =>
    match s.declare name a with
    | (.ok (), t) => (.declared, t)
    | (.error existing, t) => (.existing existing, t)
  | .lookup name => (.meaning (s.lookup name), s)

/-- The scopes behind some calls. -/
def run (s : Scopes α) (calls : List (Operation α)) : Scopes α :=
  calls.foldl (fun s op => (s.call op).2) s

/-- What some calls give back, one after the other. -/
def answers (s : Scopes α) : List (Operation α) → List (Answer α)
  | [] => []
  | op :: calls => (s.call op).1 :: (s.call op).2.answers calls

theorem run_append (s : Scopes α) (calls later : List (Operation α)) :
    s.run (calls ++ later) = (s.run calls).run later :=
  List.foldl_append

theorem answers_append (s : Scopes α) (calls later : List (Operation α)) :
    s.answers (calls ++ later) = s.answers calls ++ (s.run calls).answers later := by
  induction calls generalizing s with
  | nil => rfl
  | cons op calls ih => exact congrArg ((s.call op).1 :: ·) (ih _)

/-- A name is declared if the innermost scope does not have it, and nothing happens if it does. -/
theorem call_declare (s : Scopes α) (name : String) (a : α) :
    (s.call (.declare name a)).2 = if (s.innermost? name).isSome then s else s.insert name a := by
  simp only [call, declare_eq]
  cases s.innermost? name <;> rfl

/-! ## Calls that close what they opened -/

/-- Each call that closes a scope closes one that was opened by these calls. -/
def Nested (calls : List (Operation α)) : Prop :=
  ∀ earlier, earlier <+: calls →
    earlier.countP Operation.isPop ≤ earlier.countP Operation.isPush

/-- How many of the scopes that calls open they leave open. -/
def leftOpen (calls : List (Operation α)) : Nat :=
  calls.countP Operation.isPush - calls.countP Operation.isPop

/-- Calls in a scope of their own, behind which all scopes that they left open are closed. -/
def enclosed (calls : List (Operation α)) : List (Operation α) :=
  .push :: calls ++ List.replicate (leftOpen calls + 1) .pop

instance (calls : List (Operation α)) : Decidable (Nested calls) :=
  decidable_of_iff
    (∀ earlier ∈ calls.inits, earlier.countP Operation.isPop ≤ earlier.countP Operation.isPush)
    (by simp only [Nested, List.mem_inits])

section
variable {calls later : List (Operation α)}

theorem Nested.of_append (h : Nested (calls ++ later)) : Nested calls :=
  fun _ hearlier => h _ (hearlier.trans (List.prefix_append _ _))

theorem Nested.append (h : Nested calls) (hlater : Nested later) : Nested (calls ++ later) := by
  intro earlier hearlier
  rcases List.prefix_or_prefix_of_prefix hearlier (List.prefix_append calls later) with
    hcalls | ⟨more, rfl⟩
  · exact h earlier hcalls
  · have hmore := (List.prefix_append_right_inj calls).1 hearlier
    rw [List.countP_append, List.countP_append]
    exact Nat.add_le_add (h calls List.prefix_rfl) (hlater more hmore)

theorem Nested.leftOpen_append (h : Nested calls) (hlater : Nested later) :
    leftOpen (calls ++ later) = leftOpen calls + leftOpen later := by
  have hle := h calls List.prefix_rfl
  have hle' := hlater later List.prefix_rfl
  simp only [leftOpen, List.countP_append]
  omega

theorem Nested.leftOpen_pop (h : Nested (calls ++ [.pop])) :
    leftOpen calls = leftOpen (calls ++ [.pop]) + 1 := by
  have hle := h _ List.prefix_rfl
  have hpush : (calls ++ [Operation.pop]).countP Operation.isPush =
      calls.countP Operation.isPush := by simp [Operation.isPush]
  have hpop : (calls ++ [Operation.pop]).countP Operation.isPop =
      calls.countP Operation.isPop + 1 := by simp [Operation.isPop]
  unfold leftOpen
  omega

theorem nested_single {op : Operation α} (h : op.isPop = false) : Nested [op] := by
  intro earlier hearlier
  have hpop : earlier.countP Operation.isPop = 0 := by
    refine List.countP_eq_zero.2 fun x hx => ?_
    rw [List.mem_singleton.1 (hearlier.subset hx), h]
    exact Bool.false_ne_true
  rw [hpop]
  exact Nat.zero_le _

end

/-- Names were added to a scope one after the other, each of which it did not have. -/
inductive Extends (scope : List (String × α)) : List (String × α) → Prop
  | refl : Extends scope scope
  | add {grown : List (String × α)} {name : String} {a : α} (h : Extends scope grown)
      (hnew : grown.lookup name = none) : Extends scope ((name, a) :: grown)

/-- So many scopes are open over one to which names were added, and those around it are the same. -/
def Over (scope : List (String × α)) (outer : List (List (String × α))) (depth : Nat)
    (t : Scopes α) : Prop :=
  ∃ opened grown, t.chain = opened ++ grown :: outer ∧ opened.length = depth ∧ Extends scope grown

section
variable {scope : List (String × α)} {outer : List (List (String × α))} {depth : Nat}
  {s t : Scopes α}

theorem Over.push (h : Over scope outer depth t) : Over scope outer (depth + 1) t.push := by
  obtain ⟨opened, grown, hchain, rfl, hgrown⟩ := h
  exact ⟨[] :: opened, grown, congrArg ([] :: ·) hchain, rfl, hgrown⟩

theorem Over.pop (h : Over scope outer (depth + 1) t) : Over scope outer depth t.pop := by
  obtain ⟨opened, grown, hchain, hlength, hgrown⟩ := h
  obtain ⟨first, opened, rfl⟩ := List.exists_cons_of_length_eq_add_one hlength
  exact ⟨opened, grown, congrArg List.tail hchain, Nat.succ.inj hlength, hgrown⟩

theorem Over.declare (h : Over scope outer depth t) (name : String) (a : α) :
    Over scope outer depth (t.call (.declare name a)).2 := by
  rw [call_declare]
  cases hinner : t.innermost? name with
  | some existing => exact h
  | none =>
    obtain ⟨opened, grown, hchain, rfl, hgrown⟩ := h
    cases opened with
    | nil =>
      have hnew : grown.lookup name = none := by
        rwa [innermost?, hchain] at hinner
      exact ⟨[], (name, a) :: grown, by simp [insert, hchain], rfl, hgrown.add hnew⟩
    | cons first opened =>
      exact ⟨((name, a) :: first) :: opened, grown, by simp [insert, hchain], rfl, hgrown⟩

/-- Calls that close only what they opened do nothing to the scopes around the innermost one. -/
theorem Nested.over {calls : List (Operation α)} (h : Nested calls)
    (hs : s.chain = scope :: outer) : Over scope outer (leftOpen calls) (s.run calls) := by
  induction calls using List.reverseRecOn with
  | nil => exact ⟨[], scope, hs, rfl, .refl⟩
  | append_singleton calls op ih =>
    have hcalls := h.of_append
    have hover := ih hcalls
    rw [run_append]
    cases op with
    | push =>
      rw [hcalls.leftOpen_append (nested_single rfl)]
      exact hover.push
    | pop =>
      -- One of the scopes that these calls opened is still there to be closed.
      rw [h.leftOpen_pop] at hover
      exact hover.pop
    | declare name a =>
      rw [hcalls.leftOpen_append (nested_single rfl)]
      exact hover.declare name a
    | lookup name =>
      rw [hcalls.leftOpen_append (nested_single rfl)]
      exact hover

theorem Over.run_pops (h : Over scope outer depth t) :
    (t.run (List.replicate (depth + 1) .pop)).chain = outer := by
  induction depth generalizing t with
  | zero =>
    obtain ⟨opened, grown, hchain, hlength, -⟩ := h
    obtain rfl := List.length_eq_zero_iff.1 hlength
    exact congrArg List.tail hchain
  | succ depth ih => exact ih h.pop

/-- Calls in a scope of their own leave no trace. -/
theorem Nested.run_enclosed {calls : List (Operation α)} (h : Nested calls) (s : Scopes α) :
    s.run (enclosed calls) = s := by
  have hover : Over [] s.chain (leftOpen calls) (s.push.run calls) := h.over rfl
  rw [enclosed, run_append]
  exact congrArg Scopes.mk hover.run_pops

end

/-! ## Visits -/

/-- Names were added to the innermost scope that it did not have, and nothing else was changed. -/
def Adds (s t : Scopes α) : Prop :=
  ∃ scope grown outer, s.chain = scope :: outer ∧ t.chain = grown :: outer ∧ Extends scope grown

/-- Scopes come from others by calls that close just the scopes that they open. -/
def Visits (s t : Scopes α) : Prop :=
  ∃ calls, Nested calls ∧ leftOpen calls = 0 ∧ s.run calls = t

section
variable {s t u : Scopes α}

theorem Visits.refl (s : Scopes α) : s.Visits s :=
  ⟨[], fun _ h => by simp [List.prefix_nil.1 h], rfl, rfl⟩

theorem Visits.trans (h : s.Visits t) (h' : t.Visits u) : s.Visits u := by
  obtain ⟨calls, hcalls, hopen, rfl⟩ := h
  obtain ⟨later, hlater, hopen', rfl⟩ := h'
  refine ⟨calls ++ later, hcalls.append hlater, ?_, run_append _ _ _⟩
  rw [hcalls.leftOpen_append hlater, hopen, hopen']

theorem visits_declare (s : Scopes α) (name : String) (a : α) :
    s.Visits (s.call (.declare name a)).2 :=
  ⟨[.declare name a], nested_single rfl, rfl, rfl⟩

/-- A visit to a scope that is opened for it and closed again leaves no trace. -/
theorem Visits.pop_eq (h : s.push.Visits t) : t.pop = s := by
  obtain ⟨calls, hcalls, hopen, rfl⟩ := h
  have hrun := hcalls.run_enclosed s
  rwa [enclosed, hopen, run_append] at hrun

theorem Visits.adds (h : s.Visits t) (hs : s.chain ≠ []) : s.Adds t := by
  obtain ⟨calls, hcalls, hopen, rfl⟩ := h
  obtain ⟨scope, outer, hchain⟩ := List.exists_cons_of_ne_nil hs
  obtain ⟨opened, grown, hrun, hlength, hgrown⟩ := hcalls.over hchain
  rw [hopen] at hlength
  obtain rfl := List.length_eq_zero_iff.1 hlength
  exact ⟨scope, grown, outer, hchain, hrun, hgrown⟩

end

end Scopes

/-! ## Going through expressions -/

theorem Names.declare_scopes (s : Names) (i : Ident) (kind : DeclKind) (ty : Ty)
    (signature : Option Signature) : (s.declare i kind ty signature).names.scopes =
      (s.scopes.call (.declare i.name s.table.size)).2 := by
  unfold declare Scopes.call
  dsimp only
  rw [Scopes.declare_eq]
  cases s.scopes.innermost? i.name <;> rfl

theorem Names.visits_kept : Names.Kept fun s t => s.scopes.Visits t.scopes where
  refl s := .refl s.scopes
  trans := .trans
  declare s i kind ty signature := by
    rw [declare_scopes]
    exact s.scopes.visits_declare _ _
  block h := by
    rw [Names.leave, h.pop_eq]
    exact .refl _

theorem Frame.visits_kept : Frame.Kept fun f g => f.scopes.Visits g.scopes where
  refl f := .refl f.scopes
  trans := .trans
  register := by
    intro f g name ty location k h
    obtain ⟨hinner, -, hscopes, -⟩ := Frame.register_eq_ok h
    have hvisits := f.scopes.visits_declare name k
    rw [Scopes.call_declare, hinner] at hvisits
    rw [hscopes]
    exact hvisits
  block h := by
    rw [Frame.leave, h.pop_eq]
    exact .refl _

section
variable (n : Node) (body : List Expr) (result : Option Expr)

theorem Expr.resolveNames_block_scopes (s : Names) :
    ((Expr.block n body result).resolveNames s).names.scopes = s.scopes :=
  ((resolveNamesAll_kept Names.visits_kept s.enter body).trans
    (resolveNamesOpt_kept Names.visits_kept _ result)).pop_eq

theorem Expr.place_block_scopes {s : Layout}
    (h : ((Expr.block n body result).place s).error = none) :
    ((Expr.block n body result).place s).layout.frame.scopes = s.frame.scopes := by
  simp only [Expr.place, Placed.map, Placed.leave] at *
  obtain ⟨hbody, hresult, heq⟩ := Placed.andThen_of_error_none h
  have hall := (laidAll_place hbody).kept Frame.visits_kept
  have hopt := (laidOpt_place hresult).kept Frame.visits_kept
  rw [heq]
  exact (hall.trans hopt).pop_eq

end

/-! ## The result -/

/-- Calls in a scope of their own leave the scopes exactly as they were, so what is called later
gives back what it would have without them. Binding the names of an expression and giving its
variables their places add names to the innermost scope that it did not have and change nothing
else, and a block changes nothing at all. -/
theorem scopes_restored :
    (∀ (α : Type) (s : Scopes α) (calls later : List (Scopes.Operation α)), Scopes.Nested calls →
      s.run (Scopes.enclosed calls) = s ∧
      s.answers (Scopes.enclosed calls ++ later) =
        s.answers (Scopes.enclosed calls) ++ s.answers later) ∧
    (∀ (s : Names) (e : Expr), s.scopes.chain ≠ [] →
      s.scopes.Adds (e.resolveNames s).names.scopes) ∧
    (∀ (s : Names) (n : Node) (body : List Expr) (result : Option Expr),
      ((Expr.block n body result).resolveNames s).names.scopes = s.scopes) ∧
    (∀ (s : Layout) (e : Expr), s.frame.scopes.chain ≠ [] → (e.place s).error = none →
      s.frame.scopes.Adds (e.place s).layout.frame.scopes) ∧
    (∀ (s : Layout) (n : Node) (body : List Expr) (result : Option Expr),
      ((Expr.block n body result).place s).error = none →
      ((Expr.block n body result).place s).layout.frame.scopes = s.frame.scopes) := by
  refine ⟨fun α s calls later h => ?_, fun s e hs => ?_, ?_, fun s e hs h => ?_, ?_⟩
  · have hrun := h.run_enclosed s
    refine ⟨hrun, ?_⟩
    rw [Scopes.answers_append, hrun]
  · exact (Expr.resolveNames_kept Names.visits_kept s e).adds hs
  · exact fun s n body result => Expr.resolveNames_block_scopes n body result s
  · exact ((Expr.laid_place h).kept Frame.visits_kept).adds hs
  · exact fun s n body result => Expr.place_block_scopes n body result

/-- Calls that shadow a name, fail to declare another one twice and leave two scopes open. -/
def Scopes.shadowing : List (Scopes.Operation Nat) :=
  [.declare "a" 1, .push, .declare "b" 2, .declare "b" 3, .pop, .push, .lookup "a",
    .declare "a" 4, .push]

/-- A block in which a variable `a` shadows the one that it gets its value from. -/
def Expr.shadowing : Expr :=
  .block ⟨.unknown, .int⟩
    [.bind ⟨.unknown, .unit⟩ ⟨"a", .unknown, none, none⟩ (.ofName "int" .unknown)
      (.var ⟨.unknown, .int⟩ ⟨"a", .unknown, none, none⟩)]
    (some (.var ⟨.unknown, .int⟩ ⟨"a", .unknown, none, none⟩))

/-- The initial value of a variable `b` is such a block. -/
def Expr.shadowingBind : Expr :=
  .bind ⟨.unknown, .unit⟩ ⟨"b", .unknown, none, none⟩ (.ofName "int" .unknown) Expr.shadowing

/-- In a scope that has a name `a` already, the calls and the expressions above find it there, and
behind them it has the same meaning, with `b` beside it at most. -/
theorem scopes_restored_shadowing :
    let s : Scopes Nat := ⟨[[("a", 7)]]⟩
    let names : Names := { scopes := s }
    let layout : Layout := ⟨{ function := "f", scopes := s }, {}⟩
    (Scopes.Nested Scopes.shadowing ∧ s.run (Scopes.enclosed Scopes.shadowing) = s ∧
      s.answers (Scopes.enclosed Scopes.shadowing ++ [.lookup "a", .declare "a" 9]) =
        s.answers (Scopes.enclosed Scopes.shadowing) ++ [.meaning (some 7), .existing 7]) ∧
    (s.chain ≠ [] ∧ s.Adds (Expr.shadowingBind.resolveNames names).names.scopes ∧
      (Expr.shadowingBind.resolveNames names).names.scopes = ⟨[[("b", 1), ("a", 7)]]⟩) ∧
    (Expr.shadowing.resolveNames names).names.scopes = s ∧
    ((Expr.shadowingBind.place layout).error = none ∧
      s.Adds (Expr.shadowingBind.place layout).layout.frame.scopes ∧
      (Expr.shadowingBind.place layout).layout.frame.scopes = ⟨[[("b", 1), ("a", 7)]]⟩) ∧
    ((Expr.shadowing.place layout).error = none ∧
      (Expr.shadowing.place layout).layout.frame.scopes = s) := by
  intro s names layout
  have hcalls : Scopes.Nested Scopes.shadowing := by decide
  have hopen : s.chain ≠ [] := List.cons_ne_nil _ _
  have hbind : (Expr.shadowingBind.place layout).error = none := rfl
  have hblock : (Expr.shadowing.place layout).error = none := rfl
  obtain ⟨hruns, hnames, hnamesBlock, hplaces, hplacesBlock⟩ := scopes_restored
  obtain ⟨hrun, hanswers⟩ := hruns Nat s _ [.lookup "a", .declare "a" 9] hcalls
  exact ⟨⟨hcalls, hrun, hanswers⟩, ⟨hopen, hnames names _ hopen, rfl⟩, hnamesBlock names _ _ _,
    ⟨hbind, hplaces layout _ hopen hbind, rfl⟩, hblock, hplacesBlock layout _ _ _ hblock⟩

end Ilang
