import Ilang.Proofs.Lexical
import Ilang.Proofs.Names
import Ilang.Proofs.Reading
import Mathlib.Data.List.Forall2
/-!
# Name resolution is lexical scoping

The open scopes of the walk have, name by name, the first of the declarations that the mention has
around it (`Scopes.Lists`). So each step does for its mention what lexical scoping asks for
(`Names.refer_recorded`, `Names.declare_recorded`), and a walk does it for all mentions in turn
(`Expr.resolveNames_lexical`, `Program.resolveNames_recorded`).
-/
namespace Ilang

/-! ## Scopes and the names around a mention -/

namespace Scopes

/-- A scope has the names of some identifiers, each with the note on the first of these. -/
structure ListsScope (note : Ident → Option Nat) (scope : List (String × Nat))
    (idents : List Ident) : Prop where
  lookup : ∀ x, scope.lookup x = (firstNamed x idents).bind note
  noted : ∀ i ∈ idents, (note i).isSome

/-- Open scopes have the names around a mention. -/
def Lists (note : Ident → Option Nat) (s : Scopes Nat) (around : List (List Ident)) : Prop :=
  List.Forall₂ (ListsScope note) s.chain around

variable {note : Ident → Option Nat} {s : Scopes Nat} {idents : List Ident}
  {around : List (List Ident)}

theorem ListsScope.isSome {scope : List (String × Nat)} (h : ListsScope note scope idents)
    {x : String} {i : Ident} (hi : firstNamed x idents = some i) :
    ∃ k, note i = some k ∧ scope.lookup x = some k := by
  obtain ⟨k, hk⟩ := Option.isSome_iff_exists.1 (h.noted i (List.mem_of_find?_eq_some hi))
  exact ⟨k, hk, by rw [h.lookup, hi, Option.bind_some, hk]⟩

/-- A name is looked up as its meaning. -/
theorem Lists.lookup (h : s.Lists note around) (x : String) :
    s.lookup x = (meaningOf x around).bind note := by
  unfold Scopes.lookup meaningOf
  unfold Lists at h
  generalize s.chain = chain at h
  induction h with
  | nil => rfl
  | @cons scope idents chain around hscope _ ih =>
    rw [List.findSome?_cons, List.findSome?_cons]
    cases hi : firstNamed x idents with
    | none => rw [hscope.lookup, hi, Option.bind_none, ih]
    | some i =>
      obtain ⟨k, hk, hlookup⟩ := hscope.isSome hi
      rw [hlookup, Option.bind_some, hk]

theorem Lists.noted (h : s.Lists note around) : ∀ scope ∈ around, ∀ i ∈ scope, (note i).isSome := by
  unfold Lists at h
  generalize s.chain = chain at h
  induction h with
  | nil => simp
  | cons hscope _ ih => exact List.forall_mem_cons.2 ⟨hscope.noted, ih⟩

theorem Lists.isNone_lookup (h : s.Lists note around) (x : String) :
    (s.lookup x).isNone = (meaningOf x around).isNone := by
  rw [h.lookup]
  cases hi : meaningOf x around with
  | none => rfl
  | some i =>
    obtain ⟨scope, hscope, hfirst⟩ := List.exists_of_findSome?_eq_some hi
    have hnoted := h.noted scope hscope i (List.mem_of_find?_eq_some hfirst)
    obtain ⟨k, hk⟩ := Option.isSome_iff_exists.1 hnoted
    rw [Option.bind_some, hk]
    rfl

theorem Lists.innermost? (h : s.Lists note (idents :: around)) (x : String) :
    s.innermost? x = (firstNamed x idents).bind note := by
  unfold Lists at h
  unfold Scopes.innermost?
  cases hchain : s.chain with
  | nil => rw [hchain] at h; cases h
  | cons scope chain =>
    rw [hchain] at h
    cases h with
    | cons hscope _ => exact hscope.lookup x

theorem Lists.firstNamed_eq_none (h : s.Lists note (idents :: around)) {x : String}
    (hx : s.innermost? x = none) : firstNamed x idents = none := by
  rw [h.innermost?] at hx
  cases hi : firstNamed x idents with
  | none => rfl
  | some i =>
    have hnoted := h.noted idents List.mem_cons_self i (List.mem_of_find?_eq_some hi)
    rw [hi, Option.bind_some] at hx
    rw [hx] at hnoted
    cases hnoted

theorem Lists.push (h : s.Lists note around) : s.push.Lists note ([] :: around) :=
  .cons ⟨fun _ => rfl, by simp⟩ h

theorem Lists.pop (h : s.Lists note (idents :: around)) : s.pop.Lists note around := by
  unfold Lists Scopes.pop at *
  cases hchain : s.chain with
  | nil => rw [hchain] at h; cases h
  | cons scope chain =>
    rw [hchain] at h
    cases h with
    | cons _ h => exact h

theorem Lists.ne_nil (h : s.Lists note (idents :: around)) : s.chain ≠ [] := by
  intro hchain
  rw [Lists, hchain] at h
  cases h

/-- A declaration of a name that the scope has already changes nothing. -/
theorem Lists.shadow (h : s.Lists note (idents :: around)) {i : Ident} (hi : (note i).isSome)
    (hold : (firstNamed i.name idents).isSome) :
    s.Lists note ((idents ++ [i]) :: around) := by
  unfold Lists at *
  generalize s.chain = chain at *
  cases h with
  | cons hscope houter =>
    refine .cons ⟨fun x => ?_, ?_⟩ houter
    · rw [hscope.lookup, firstNamed_append_singleton]
      by_cases hx : i.name = x
      · obtain ⟨j, hj⟩ := Option.isSome_iff_exists.1 (hx ▸ hold)
        rw [hj, Option.some_or]
      · simp [hx]
    · simpa [or_imp, forall_and, hi] using hscope.noted

/-- A declaration of a new name adds it. -/
theorem Lists.insert (h : s.Lists note (idents :: around)) {i : Ident} {k : Nat}
    (hi : note i = some k) (hnew : firstNamed i.name idents = none) :
    (s.insert i.name k).Lists note ((idents ++ [i]) :: around) := by
  unfold Lists Scopes.insert at *
  generalize s.chain = chain at h
  cases h with
  | cons hscope houter =>
    refine .cons ⟨fun x => ?_, ?_⟩ houter
    · rw [List.lookup_cons, firstNamed_append_singleton]
      by_cases hx : x = i.name
      · simp [hx, hnew, hi]
      · simp [beq_false_of_ne hx, Ne.symm hx, hscope.lookup]
    · simpa [or_imp, forall_and, hi] using hscope.noted

end Scopes

/-! ## Steps -/

/-- What lexical scoping asks a walk over some occurrences for: each declaration gets an entry of
its own, each other name the entry of its meaning, and the report has what there is to report. -/
structure Recorded (earlier table : DeclTable) (report : Report) (mentions : List Mention) :
    Prop where
  table : table.toList = earlier.toList ++ mentions.filterMap Mention.declaration?
  own : (mentions.filterMap Mention.declared?).map (·.binding) =
    (List.range' earlier.size (mentions.filterMap Mention.declaration?).length).map some
  bound : ∀ x ∈ mentions, x.declaration? = none → x.ident.binding = x.meaning.bind (·.binding)
  report : report = mentions.flatMap Mention.report

namespace Recorded

variable {t₁ t₂ t₃ : DeclTable} {r₁ r₂ : Report} {xs ys : List Mention}

theorem nil : Recorded t₁ t₁ [] [] := ⟨by simp, rfl, by simp, rfl⟩

theorem size (h : Recorded t₁ t₂ r₁ xs) :
    t₂.size = t₁.size + (xs.filterMap Mention.declaration?).length := by
  rw [← Array.length_toList, h.table, List.length_append, Array.length_toList]

/-- One walk after another. -/
theorem append (h₁ : Recorded t₁ t₂ r₁ xs) (h₂ : Recorded t₂ t₃ r₂ ys) :
    Recorded t₁ t₃ (r₁ ++ r₂) (xs ++ ys) := by
  constructor
  · rw [h₂.table, h₁.table, List.filterMap_append, List.append_assoc]
  · rw [List.filterMap_append, List.map_append, h₁.own, h₂.own, h₁.size, ← List.map_append,
      List.range'_append_1, List.filterMap_append, List.length_append]
  · intro x hx
    rcases List.mem_append.1 hx with hx | hx
    · exact h₁.bound x hx
    · exact h₂.bound x hx
  · rw [h₁.report, h₂.report, List.flatMap_append]

/-- The notes that name resolution does not make play no part. -/
theorem strip_iff {k : Keep} (hk : k.bindings = true) :
    Recorded t₁ t₂ r₁ (xs.map (Mention.strip k)) ↔ Recorded t₁ t₂ r₁ xs := by
  have hbinding : ∀ i : Ident, (k.ident i).binding = i.binding := by simp [Keep.ident, hk]
  have hdeclarations : (xs.map (Mention.strip k)).filterMap Mention.declaration? =
      xs.filterMap Mention.declaration? := by
    simp [List.filterMap_map, Function.comp_def, Mention.declaration?_strip]
  have hown : ((xs.map (Mention.strip k)).filterMap Mention.declared?).map (·.binding) =
      (xs.filterMap Mention.declared?).map (·.binding) := by
    simp only [List.filterMap_map, List.map_filterMap, Function.comp_def, Mention.declared?,
      Mention.declaration?_strip, Option.map_map]
    exact List.filterMap_congr fun x _ => congrArg (Option.map · _) (funext fun _ => hbinding _)
  have hbound : ∀ x : Mention, (x.strip k).ident.binding = (x.strip k).meaning.bind (·.binding) ↔
      x.ident.binding = x.meaning.bind (·.binding) := by
    intro x
    have hnote : (x.strip k).ident.binding = x.ident.binding := hbinding x.ident
    have hnotes : (fun i : Ident => i.binding) ∘ k.ident = fun i => i.binding := funext hbinding
    rw [Mention.meaning_strip, Option.bind_map, hnotes, hnote]
  have hreport : (xs.map (Mention.strip k)).flatMap Mention.report = xs.flatMap Mention.report := by
    simp [List.flatMap_map, Mention.report_strip]
  constructor
  · rintro ⟨h₁, h₂, h₃, h₄⟩
    rw [hdeclarations] at h₁ h₂
    refine ⟨h₁, hown ▸ h₂, fun x hx hnone => ?_, hreport ▸ h₄⟩
    exact (hbound x).1 (h₃ _ (List.mem_map_of_mem hx) hnone)
  · rintro ⟨h₁, h₂, h₃, h₄⟩
    refine ⟨by rw [hdeclarations, h₁], by rw [hdeclarations, hown, h₂], ?_, by rw [hreport, h₄]⟩
    intro y hy hnone
    obtain ⟨x, hx, rfl⟩ := List.mem_map.1 hy
    exact (hbound x).2 (h₃ x hx hnone)

end Recorded

theorem length_declared (xs : List Mention) : (xs.filterMap Mention.declared?).length =
    (xs.filterMap Mention.declaration?).length := by
  simp [List.length_filterMap_eq_countP, Mention.declared?]

/-- If declared names have numbers as notes, one after another, a name has as many before it as
there are declarations before it. -/
theorem noted_at {note : Ident → Option Nat} {l r : List Mention} {x : Mention} {d : Declaration}
    {n : Nat} (h : ((l ++ x :: r).filterMap Mention.declared?).map note =
      (List.range' n ((l ++ x :: r).filterMap Mention.declaration?).length).map some)
    (hd : x.declaration? = some d) :
    note x.ident = some (n + (l.filterMap Mention.declaration?).length) := by
  have hx : x.declared? = some x.ident := by simp [Mention.declared?, hd]
  rw [List.filterMap_append, List.filterMap_append, List.filterMap_cons_some hx,
    List.filterMap_cons_some hd, List.map_append, List.length_append, List.length_cons] at h
  have hat := congrArg (fun ns => ns[(l.filterMap Mention.declaration?).length]?) h
  rw [List.getElem?_append_right (by simp [length_declared])] at hat
  simpa [length_declared] using hat

namespace Names

/-- The open scopes have the names around a mention, and these are in the table. -/
structure Shows (s : Names) (around : List (List Ident)) : Prop where
  lists : s.scopes.Lists (·.binding) around
  located : ∀ scope ∈ around, ∀ i ∈ scope,
    ∃ d, s.table.find i.binding = some d ∧ d.location = i.location

variable {s : Names} {idents : List Ident} {around : List (List Ident)}

theorem Shows.enter (h : s.Shows around) : s.enter.Shows ([] :: around) :=
  ⟨h.lists.push, List.forall_mem_cons.2 ⟨by simp, h.located⟩⟩

theorem Shows.leave (h : s.Shows (idents :: around)) : s.leave.Shows around :=
  ⟨h.lists.pop, fun scope hscope => h.located scope (List.mem_cons_of_mem _ hscope)⟩

/-- A name that is used gets its meaning. -/
theorem refer_recorded (h : s.Shows around) (i : Ident) {use : Use}
    (huse : use = .var ∨ use = .call) :
    Recorded s.table s.table (s.refer i).report [⟨(s.refer i).value, use, around⟩] := by
  have hnone : Mention.declaration? ⟨(s.refer i).value, use, around⟩ = none := by
    rcases huse with rfl | rfl <;> rfl
  constructor
  · simp [hnone]
  · simp [hnone, Mention.declared?]
  · intro x hx _
    obtain rfl := List.mem_singleton.1 hx
    exact h.lists.lookup i.name
  · have hmeaning : (s.scopes.lookup i.name).isNone =
        (Mention.mk (s.refer i).value use around).meaning.isNone := h.lists.isNone_lookup i.name
    rw [List.flatMap_singleton]
    rcases huse with rfl | rfl <;> simp only [Mention.report, ← hmeaning] <;> rfl

/-- A name that is declared is in the scope from there on, and in the table. -/
theorem declare_shows (h : s.Shows (idents :: around)) (i : Ident) (kind : DeclKind) (ty : Ty)
    (signature : Option Signature) : (s.declare i kind ty signature).names.Shows
      ((idents ++ [(s.declare i kind ty signature).value]) :: around) := by
  have htable := s.declare_table i kind ty signature
  have hvalue := s.declare_value i kind ty signature
  have hinner := h.lists.innermost? i.name
  constructor
  · rw [hvalue]
    unfold declare
    dsimp only
    rw [Scopes.declare_eq]
    cases hfirst : firstNamed i.name idents with
    | none =>
      rw [hinner, hfirst]
      exact h.lists.insert (i := { i with binding := some s.table.size }) rfl hfirst
    | some first =>
      obtain ⟨k, hk⟩ := Option.isSome_iff_exists.1 (h.lists.noted idents List.mem_cons_self first
        (List.mem_of_find?_eq_some hfirst))
      rw [hinner, hfirst, Option.bind_some, hk]
      exact h.lists.shadow rfl (by simp [hfirst])
  · have hgrown : (s.declare i kind ty signature).names.table.Extends s.table :=
      htable ▸ DeclTable.push_extends _ _
    intro scope hscope j hj
    -- Only the new identifier is not in a scope that was there before.
    by_cases hnew : j = (s.declare i kind ty signature).value
    · refine ⟨⟨i.name, kind, ty, i.location, signature⟩, ?_, by rw [hnew, hvalue]⟩
      rw [hnew, hvalue, htable, DeclTable.find, Option.bind_some, Array.getElem?_push_size]
    · have hold : ∃ scope ∈ idents :: around, j ∈ scope := by
        rcases List.mem_cons.1 hscope with rfl | hscope
        · exact ⟨idents, List.mem_cons_self, by simpa [hnew] using hj⟩
        · exact ⟨scope, List.mem_cons_of_mem _ hscope, hj⟩
      obtain ⟨scope, hscope, hj⟩ := hold
      obtain ⟨d, hd, hlocation⟩ := h.located scope hscope j hj
      exact ⟨d, hgrown.find hd, hlocation⟩

/-- A name that is declared is reported if its scope has it already. -/
theorem declare_report (h : s.Shows (idents :: around)) (i : Ident) (kind : DeclKind) (ty : Ty)
    (signature : Option Signature) : (s.declare i kind ty signature).report = Mention.report
      ⟨(s.declare i kind ty signature).value, .declares kind ty signature, idents :: around⟩ := by
  have hinner := h.lists.innermost? i.name
  rw [s.declare_value i kind ty signature]
  simp only [Mention.report, Mention.rival, List.head?_cons, Option.bind_some]
  unfold declare
  dsimp only
  rw [Scopes.declare_eq]
  cases hfirst : firstNamed i.name idents with
  | none =>
    rw [hinner, hfirst]
    rfl
  | some first =>
    obtain ⟨d, hd, hlocation⟩ := h.located idents List.mem_cons_self first
      (List.mem_of_find?_eq_some hfirst)
    obtain ⟨k, hk, hd⟩ := Option.bind_eq_some_iff.1 hd
    rw [hinner, hfirst, Option.bind_some, hk]
    simp only [DeclTable.push_extends _ _ k d hd, Option.map_some, hlocation]
    rfl

/-- A name that is declared gets an entry of its own. -/
theorem declare_recorded (h : s.Shows (idents :: around)) (i : Ident) (kind : DeclKind) (ty : Ty)
    (signature : Option Signature) :
    Recorded s.table (s.declare i kind ty signature).names.table
      (s.declare i kind ty signature).report
      [⟨(s.declare i kind ty signature).value, .declares kind ty signature, idents :: around⟩] := by
  have hvalue := s.declare_value i kind ty signature
  constructor
  · rw [s.declare_table, hvalue, Array.toList_push]
    rfl
  · rw [hvalue]
    rfl
  · intro x hx hnone
    obtain rfl := List.mem_singleton.1 hx
    cases hnone
  · rw [List.flatMap_singleton, declare_report h]

end Names

/-! ## Walks -/

/-- A walk does what lexical scoping asks for, and its scope has what it declares from there on. -/
structure Resolved.Lexical {α : Type} (r : Resolved α) (s : Names) (before : List Ident)
    (around : List (List Ident)) (mentions : List Mention) (declared : List Ident) : Prop where
  recorded : Recorded s.table r.names.table r.report mentions
  shows : r.names.Shows ((before ++ declared) :: around)

/-- What the steps do, the walk does. -/
theorem resolveEach_lexical {α : Type} {resolve : Names → α → Resolved α}
    {declared : α → List Ident} {mentions : List Ident → α → List Mention}
    {around : List (List Ident)} {as : List α}
    (h : ∀ a ∈ as, ∀ {s : Names} {before : List Ident}, s.Shows (before :: around) →
      (resolve s a).Lexical s before around (mentions before (resolve s a).value)
        (declared (resolve s a).value))
    {s : Names} {before : List Ident} (hs : s.Shows (before :: around)) :
    (resolveEach resolve s as).Lexical s before around
      (mentionsInTurn declared mentions before (resolveEach resolve s as).value)
      ((resolveEach resolve s as).value.flatMap declared) := by
  induction as generalizing s before with
  | nil => exact ⟨.nil, by simpa [resolveEach] using hs⟩
  | cons a as ih =>
    have ha := h a List.mem_cons_self hs
    have has := ih (fun b hb => h b (List.mem_cons_of_mem _ hb)) ha.shows
    refine ⟨ha.recorded.append has.recorded, ?_⟩
    have hshows := has.shows
    rw [List.append_assoc] at hshows
    exact hshows

theorem resolveNamesAll_eq (s : Names) (es : List Expr) :
    resolveNamesAll s es = resolveEach Expr.resolveNames s es := by
  induction es generalizing s with
  | nil => rfl
  | cons e es ih => simp [resolveNamesAll, resolveEach, ih]

theorem resolveEach_append {α : Type} (resolve : Names → α → Resolved α) (s : Names)
    (as bs : List α) :
    let first := resolveEach resolve s as
    let second := resolveEach resolve first.names bs
    resolveEach resolve s (as ++ bs) =
      ⟨first.value ++ second.value, second.names, first.report ++ second.report⟩ := by
  induction as generalizing s with
  | nil => rfl
  | cons a as ih => simp [resolveEach, ih]

namespace Expr

/-- A block goes through its parts in a scope of its own. -/
theorem resolveNames_block (s : Names) (n : Node) (body : List Expr) (result : Option Expr) :
    let parts := resolveEach Expr.resolveNames s.enter (block n body result).children
    ∃ body' result', (block n body result).resolveNames s =
        ⟨block n body' result', parts.names.leave, parts.report⟩ ∧
      (block n body' result').children = parts.value := by
  cases result with
  | none =>
    refine ⟨(resolveNamesAll s.enter body).value, none, ?_⟩
    simp [resolveNames, resolveNamesOpt, resolveNamesAll_eq, children]
  | some e =>
    refine ⟨(resolveNamesAll s.enter body).value,
      some (e.resolveNames (resolveNamesAll s.enter body).names).value, ?_⟩
    simp [resolveNames, resolveNamesOpt, resolveNamesAll_eq, children, resolveEach_append,
      resolveEach]

/-- What is neither a block nor a `let` binds its own name and goes through its parts. -/
theorem resolveNames_parts {e : Expr} (hblock : e.isBlock = false) (hlets : e.lets = [])
    (s : Names) :
    let parts := resolveEach Expr.resolveNames s e.children
    let r := e.resolveNames s
    r.value.isBlock = false ∧ r.value.lets = [] ∧ r.value.children = parts.value ∧
      r.names = parts.names ∧ r.value.named? = e.named?.map (fun u => ((s.refer u.1).value, u.2)) ∧
      r.report = e.named?.toList.flatMap (fun u => (s.refer u.1).report) ++ parts.report := by
  cases e with
  | block => cases hblock
  | bind => cases hlets
  | branch n condition onTrue onFalse =>
    cases onFalse <;>
      simp [resolveNames, resolveNamesOpt, resolveEach, isBlock, lets, named?, children]
  | _ =>
    simp [resolveNames, resolveNamesAll_eq, resolveEach, isBlock, lets, named?, children,
      Names.refer]

theorem isBind_iff_lets (e : Expr) : e.isBind = false ↔ e.lets = [] := by
  cases e <;> simp [isBind, lets]

theorem ValueRead.lets_eq_nil {e : Expr} (h : e.ValueRead) : e.lets = [] :=
  e.isBind_iff_lets.1 h.notBind

theorem isBind_resolveNames (s : Names) (e : Expr) :
    (e.resolveNames s).value.isBind = e.isBind := by
  cases e <;> rfl

/-- Name resolution is lexical scoping in an expression. -/
theorem resolveNames_lexical {e : Expr} (hread : e.StatementRead) {s : Names}
    {before : List Ident} {around : List (List Ident)} (hs : s.Shows (before :: around)) :
    (e.resolveNames s).Lexical s before around
      ((e.resolveNames s).value.mentions (before :: around)) (e.resolveNames s).value.lets := by
  -- By induction on the tree. Only the statements of a block see what those before them declare.
  induction e using Expr.induction_children generalizing s before around with
  | _ e ih =>
    cases hblock : e.isBlock with
    | true =>
      obtain ⟨n, body, result, rfl⟩ := isBlock_iff.1 hblock
      obtain ⟨body', result', hr, hchildren⟩ := resolveNames_block s n body result
      have hparts : (resolveEach resolveNames s.enter (block n body result).children).Lexical
          s.enter [] (before :: around)
          (mentionsInTurn lets (fun b e => e.mentions (b :: before :: around)) [] _) _ :=
        resolveEach_lexical (fun c hc => ih c hc ((everywhere_iff.1 hread).2 c hc)) hs.enter
      rw [← hchildren, ← mentions_block] at hparts
      rw [hr]
      refine ⟨hparts.recorded, ?_⟩
      rw [show (block n body' result').lets = [] from rfl, List.append_nil]
      exact hparts.shows.leave
    | false =>
      have hvalues : ∀ c ∈ e.children, ∀ {s : Names} {before : List Ident},
          s.Shows (before :: around) → (c.resolveNames s).Lexical s before around
            ((c.resolveNames s).value.mentions (before :: around)) [] := by
        intro c hc s before hs
        have hread := hread.child (by rintro n body result rfl; cases hblock) c hc
        have hlets := (isBind_iff_lets _).1 ((c.isBind_resolveNames s).trans hread.notBind)
        simpa only [hlets] using ih c hc hread.everywhere hs
      by_cases hlets : e.lets = []
      · obtain ⟨hblock', hlets', hchildren, hnames, hnamed, hreport⟩ :=
          resolveNames_parts hblock hlets s
        have hparts : (resolveEach resolveNames s e.children).Lexical s before around
            (mentionsInTurn (fun _ => []) (fun b c => Expr.mentions (b :: around) c) before _) _ :=
          resolveEach_lexical hvalues hs
        rw [mentionsInTurn_of_declared_nil (fun _ _ => rfl), ← hchildren] at hparts
        refine ⟨?_, ?_⟩
        · rw [mentions_parts hblock' hlets', hnames, hreport, hnamed]
          refine Recorded.append ?_ hparts.recorded
          cases hu : e.named? with
          | none => exact .nil
          | some u => simpa using Names.refer_recorded hs u.1 (named?_use hlets hu)
        · have hshows := hparts.shows
          rw [List.flatMap_eq_nil_iff.2 fun _ _ => rfl] at hshows
          rwa [hlets', hnames]
      · obtain ⟨n, ident, type, value, rfl⟩ := lets_ne_nil_iff.1 hlets
        have hv := hvalues value (by simp [children]) hs
        have hshows := hv.shows
        rw [List.append_nil] at hshows
        exact ⟨hv.recorded.append (Names.declare_recorded hshows ident .letBound type.ty none),
          Names.declare_shows hshows ident .letBound type.ty none⟩

end Expr

/-! ## Programs -/

theorem Param.resolveNames_lexical {s : Names} {before : List Ident} {around : List (List Ident)}
    (hs : s.Shows (before :: around)) (p : Param) :
    (p.resolveNames s).Lexical s before around
      [⟨(p.resolveNames s).value.ident, .declares .parameter (p.resolveNames s).value.type.ty none,
        before :: around⟩] [(p.resolveNames s).value.ident] :=
  ⟨Names.declare_recorded hs p.ident .parameter p.type.ty none,
    Names.declare_shows hs p.ident .parameter p.type.ty none⟩

/-- The parameters of a function, in a scope of their own. -/
theorem resolveParams_lexical {s : Names} {around : List (List Ident)} (hs : s.Shows around)
    (ps : List Param) : (resolveEach Param.resolveNames s.enter ps).Lexical s.enter [] around
      (paramMentions around (resolveEach Param.resolveNames s.enter ps).value)
      ((resolveEach Param.resolveNames s.enter ps).value.map (·.ident)) := by
  rw [← List.flatMap_pure_eq_map]
  exact resolveEach_lexical (fun p _ _ _ hs => p.resolveNames_lexical hs) hs.enter

/-- Name resolution keeps the types of parameters. -/
theorem signatureOf_resolveParams (s : Names) (ps : List Param) (variadic : Bool) :
    signatureOf (resolveEach Param.resolveNames s ps).value variadic = signatureOf ps variadic := by
  unfold signatureOf
  rw [map_resolveEach fun _ _ => rfl]

theorem External.resolveNames_lexical {s : Names} {before : List Ident}
    (hs : s.Shows [before]) (e : External) :
    (e.resolveNames s).Lexical s before [] ((e.resolveNames s).value.mentions before)
      [(e.resolveNames s).value.ident] := by
  have hi := Names.declare_recorded hs e.ident .external e.returns.ty
    (some (signatureOf e.params e.variadic))
  have hshows := Names.declare_shows hs e.ident .external e.returns.ty
    (some (signatureOf e.params e.variadic))
  have hps := resolveParams_lexical hshows e.params
  refine ⟨?_, hps.shows.leave⟩
  have hsignature : signatureOf (e.resolveNames s).value.params (e.resolveNames s).value.variadic =
    signatureOf e.params e.variadic := signatureOf_resolveParams _ _ _
  unfold External.mentions
  rw [hsignature]
  exact hi.append hps.recorded

theorem Function.declareName_lexical {s : Names} {before : List Ident}
    (hs : s.Shows [before]) (f : Function) :
    (f.declareName s).Lexical s before [] [(f.declareName s).value.nameMention before]
      [(f.declareName s).value.ident] :=
  ⟨Names.declare_recorded hs f.ident .function f.returns.ty (some (signatureOf f.params false)),
    Names.declare_shows hs f.ident .function f.returns.ty (some (signatureOf f.params false))⟩

theorem Function.resolveInside_lexical {s : Names} {globals : List Ident}
    (hs : s.Shows [globals]) {f : Function} (hread : f.body.ValueRead) :
    (f.resolveInside s).Lexical s globals [] ((f.resolveInside s).value.mentions globals) [] := by
  have hps := resolveParams_lexical hs f.params
  have hbody := Expr.resolveNames_lexical hread.everywhere hps.shows
  refine ⟨hps.recorded.append hbody.recorded, ?_⟩
  rw [List.append_nil]
  exact hbody.shows.leave

/-- The names of functions do not depend on what is inside. -/
theorem Function.nameMention_resolveInside (s : Names) (f : Function) :
    (f.resolveInside s).value.nameMention [] = f.nameMention [] := by
  have hsignature : signatureOf (f.resolveInside s).value.params false =
    signatureOf f.params false := signatureOf_resolveParams _ _ _
  unfold Function.nameMention
  rw [hsignature]
  rfl

namespace Program

theorem functionMentions_eq (p : Program) : p.functionMentions =
    mentionsInTurn (fun x => [x.ident]) (fun before x => [{ x with around := [before] }])
      (p.externals.map (·.ident)) (p.functions.map (Function.nameMention [])) :=
  mentionsInTurn_map (Function.nameMention []) (fun x => [x.ident])
    (fun before x => [{ x with around := [before] }]) _ _

theorem externalNames_lexical (p : Program) :
    p.externalNames.Lexical ({} : Names).enter [] []
      (mentionsInTurn (fun e => [e.ident]) External.mentions [] p.resolveNames.1.externals)
      (p.resolveNames.1.externals.map (·.ident)) := by
  have hstart : ({} : Names).enter.Shows [[]] := Names.Shows.enter ⟨.nil, by simp⟩
  rw [← List.flatMap_pure_eq_map]
  exact resolveEach_lexical (fun e _ _ _ hs => e.resolveNames_lexical hs) hstart

theorem functionNames_lexical (p : Program) :
    p.functionNames.Lexical p.externalNames.names (p.resolveNames.1.externals.map (·.ident)) []
      p.resolveNames.1.functionMentions (p.resolveNames.1.functions.map (·.ident)) := by
  -- What is inside the functions does not change their names.
  have hnames : p.resolveNames.1.functions.map (Function.nameMention []) =
    p.functionNames.value.map (Function.nameMention []) :=
    map_resolveEach Function.nameMention_resolveInside _ _
  have hidents : p.resolveNames.1.functions.map (·.ident) =
    p.functionNames.value.map (·.ident) := map_resolveEach (fun _ _ => rfl) _ _
  have hlexical : p.functionNames.Lexical p.externalNames.names _ []
      (mentionsInTurn (fun f => [f.ident]) (fun b f => [f.nameMention b]) _ p.functionNames.value)
      (p.functionNames.value.flatMap fun f => [f.ident]) :=
    resolveEach_lexical (fun f _ _ _ hs => f.declareName_lexical hs) p.externalNames_lexical.shows
  rw [← List.map_eq_flatMap] at hlexical
  rw [functionMentions_eq, hnames, hidents, ← mentionsInTurn_map (Function.nameMention [])]
  exact hlexical

theorem functionNames_shows (p : Program) :
    p.functionNames.names.Shows [p.resolveNames.1.globals] :=
  p.functionNames_lexical.shows

theorem functionNames_valueRead {p : Program} (hread : p.AsRead) :
    ∀ f ∈ p.functionNames.value, f.body.ValueRead := by
  have hbodies : p.functionNames.value.map (·.body) = p.functions.map (·.body) :=
    map_resolveEach (fun _ _ => rfl) _ _
  intro f hf
  obtain ⟨g, hg, hbody⟩ := List.mem_map.1 (hbodies ▸ List.mem_map_of_mem hf)
  exact hbody ▸ (hread.functions g hg).body

theorem insideNames_lexical {p : Program} (hread : p.AsRead) :
    p.insideNames.Lexical p.functionNames.names p.resolveNames.1.globals []
      (p.resolveNames.1.functions.flatMap (Function.mentions p.resolveNames.1.globals)) [] := by
  have hlexical : p.insideNames.Lexical p.functionNames.names p.resolveNames.1.globals []
      (mentionsInTurn (fun _ => []) (fun b f => f.mentions b) _ p.insideNames.value) _ :=
    resolveEach_lexical (fun f hf _ _ hs =>
      Function.resolveInside_lexical hs (functionNames_valueRead hread f hf)) p.functionNames_shows
  rw [mentionsInTurn_of_declared_nil (fun _ _ => rfl),
    List.flatMap_eq_nil_iff.2 fun _ _ => rfl] at hlexical
  exact hlexical

/-- Name resolution records the mentions of each function. -/
theorem recorded_of_mem {p : Program} (hread : p.AsRead) :
    ∀ f ∈ p.resolveNames.1.functions, ∃ earlier table report,
      Recorded earlier table report (f.mentions p.resolveNames.1.globals) ∧
        p.resolveNames.1.table.Extends table ∧ report ⊆ p.resolveNames.2 := by
  have hinside : ∀ (fs : List Function) (s : Names), (∀ f ∈ fs, f.body.ValueRead) →
      s.Shows [p.resolveNames.1.globals] →
      ∀ g ∈ (resolveEach Function.resolveInside s fs).value, ∃ earlier table report,
        Recorded earlier table report (g.mentions p.resolveNames.1.globals) ∧
          (resolveEach Function.resolveInside s fs).names.table.Extends table ∧
          report ⊆ (resolveEach Function.resolveInside s fs).report := by
    intro fs
    induction fs with
    | nil => simp [resolveEach]
    | cons f fs ih =>
      intro s hread hs g hg
      obtain ⟨hf, hfs⟩ := List.forall_mem_cons.1 hread
      have hlexical := Function.resolveInside_lexical hs hf
      have hshows := hlexical.shows
      rw [List.append_nil] at hshows
      rcases List.mem_cons.1 hg with rfl | hg
      · have hgrows := resolveEach_grows Function.resolveInside_grows hshows.lists.ne_nil fs
        exact ⟨_, _, _, hlexical.recorded, hgrows.table, List.subset_append_left _ _⟩
      · obtain ⟨earlier, table, report, hrecorded, htable, hreport⟩ := ih _ hfs hshows g hg
        exact ⟨earlier, table, report, hrecorded, htable,
          List.subset_append_of_subset_right _ hreport⟩
  intro f hf
  obtain ⟨earlier, table, report, hrecorded, htable, hreport⟩ :=
    hinside _ _ (functionNames_valueRead hread) p.functionNames_shows f hf
  exact ⟨earlier, table, report, hrecorded, htable, List.subset_append_of_subset_right _ hreport⟩

/-- Name resolution records the mentions of the program that it makes. -/
theorem resolveNames_recorded {p : Program} (hread : p.AsRead) :
    Recorded #[] p.resolveNames.1.table p.resolveNames.2 p.resolveNames.1.mentions := by
  have hrecorded := p.externalNames_lexical.recorded.append
    (p.functionNames_lexical.recorded.append (insideNames_lexical hread).recorded)
  rw [← List.append_assoc p.externalNames.report] at hrecorded
  exact hrecorded

end Program

/-- Name resolution is lexical scoping. Each declaration has the next entry of the table, each other
name the entry of the declaration that it means, and what is reported are the names without a
meaning and those that their scope has already. Nothing but bindings changes. -/
theorem Program.names_lexical {p : Program} (h : p.Written) :
    let (q, report) := p.resolveNames
    q.table.toList = q.mentions.filterMap Mention.declaration? ∧
      (q.mentions.filterMap Mention.declared?).map (·.binding) =
        (List.range q.table.size).map some ∧
      (∀ x ∈ q.mentions, x.declaration? = none → x.ident.binding = x.meaning.bind (·.binding)) ∧
      report = q.mentions.flatMap Mention.report ∧
      q.functions.map (Function.strip .allButBindings) =
        p.functions.map (Function.strip .allButBindings) ∧
      q.externals.map (External.strip .allButBindings) =
        p.externals.map (External.strip .allButBindings) := by
  have hrecorded := Program.resolveNames_recorded h.asRead
  have htable : p.resolveNames.1.table.toList =
    p.resolveNames.1.mentions.filterMap Mention.declaration? := hrecorded.table
  have hown := hrecorded.own
  rw [← htable, Array.length_toList, Array.size_empty, ← List.range_eq_range'] at hown
  exact ⟨htable, hown, hrecorded.bound, hrecorded.report, p.strip_resolveNames,
    map_resolveEach External.strip_resolveNames _ _⟩

/-- Names that hide others, a variable that is not visible in its own initial value, a function that
is used before its text, and two scopes that have a name twice. -/
def Program.scopesText : String :=
  "extrn int f(int a, int a) int main(int n) " ++
    braced ("let n: int = n; let m: int = " ++ braced "let n: int = m; n" ++
      "; let n: int = m; f(n)") ++ " int f() " ++ braced "main(x)"

theorem Program.names_lexical_text :
    ∃ p, Program.ofText? "main" Program.scopesText = some p ∧ p.Written ∧
      (p.resolveNames.1.mentions.filter (·.declaration? = none)).map (·.ident.binding) =
        [some 5, none, some 7, some 8, some 0, some 6, some 3, none] ∧
      (∀ x ∈ p.resolveNames.1.mentions, x.declaration? = none →
        x.ident.binding = x.meaning.bind (·.binding)) ∧
      p.resolveNames.2.length = 5 ∧
      p.resolveNames.2 = p.resolveNames.1.mentions.flatMap Mention.report := by
  have hcheck : (Program.ofText? "main" Program.scopesText).any fun p =>
      decide ((p.resolveNames.1.mentions.filter (·.declaration? = none)).map (·.ident.binding) =
        [some 5, none, some 7, some 8, some 0, some 6, some 3, none] ∧
        p.resolveNames.2.length = 5) := by
    decide +kernel
  obtain ⟨p, hp, hfound⟩ := (Option.any_eq_true ..).1 hcheck
  obtain ⟨hbindings, hlength⟩ := of_decide_eq_true hfound
  have hwritten := Program.written_of_ofText? hp
  obtain ⟨-, -, hbound, hreport, -⟩ := Program.names_lexical hwritten
  exact ⟨p, hp, hwritten, hbindings, hbound, hlength, hreport⟩

end Ilang
