import Ilang.Analysis.Names
import Ilang.Proofs.Trees
/-!
# Lexical scoping

A `Mention` is an occurrence of a name together with what is declared before it in each of the
scopes around it. `Program.mentions` lists the occurrences of a program. What a name means at a
mention is read off from there (`Mention.meaning`): the first declaration of the name in the
innermost scope that has one.

The scope of a block has the variables of the statements before the mention, the scope of a function
its parameters. Around all of them are the external functions and then the other ones, wherever they
stand.
-/
namespace Ilang

/-! ## Occurrences of names -/

/-- The first of some declarations that has a name. -/
def firstNamed (name : String) (scope : List Ident) : Option Ident := scope.find? (·.name = name)

theorem firstNamed_append_singleton (name : String) (scope : List Ident) (i : Ident) :
    firstNamed name (scope ++ [i]) =
      (firstNamed name scope).or (if i.name = name then some i else none) := by
  simp only [firstNamed, List.find?_append, List.find?_singleton, decide_eq_true_eq]

/-- The declaration that a name means among nested scopes, the innermost of which is the first: the
first one in the innermost scope that has any. -/
def meaningOf (name : String) (around : List (List Ident)) : Option Ident :=
  around.findSome? (firstNamed name)

/-- What an occurrence of a name is there for. -/
inductive Use where
  /-- An identifier or the target of an assignment. -/
  | var
  /-- The function that is called. -/
  | call
  /-- A declaration. -/
  | declares (kind : DeclKind) (ty : Ty) (signature : Option Signature)
deriving DecidableEq, Repr

/-- An occurrence of a name. The scopes around it have what was declared before it, the innermost
scope first and the first declaration first. -/
structure Mention where
  ident : Ident
  use : Use
  around : List (List Ident)
deriving DecidableEq, Repr

namespace Mention

/-- The entry of the declaration table that an occurrence asks for. -/
def declaration? (x : Mention) : Option Declaration :=
  match x.use with
  | .var | .call => none
  | .declares kind ty signature => some ⟨x.ident.name, kind, ty, x.ident.location, signature⟩

/-- The name if it is declared there. -/
def declared? (x : Mention) : Option Ident := x.declaration?.map fun _ => x.ident

/-- The declaration that a name means where it stands. -/
def meaning (x : Mention) : Option Ident := meaningOf x.ident.name x.around

/-- The first declaration of a name in the scope where it stands. -/
def rival (x : Mention) : Option Ident := x.around.head?.bind (firstNamed x.ident.name)

/-- What is to be reported about an occurrence. -/
def report (x : Mention) : Report :=
  match x.use with
  | .var | .call =>
    if x.meaning.isNone then [(Problem.undeclared x.ident.name).located x.ident.location] else []
  | .declares .. =>
    x.rival.toList.map fun first =>
      (Problem.duplicate x.ident.name (some first.location)).located x.ident.location

end Mention

/-! ## The occurrences in a program -/

/-- The occurrences in things that stand in one scope, each of which has what those before it
declare. -/
def mentionsInTurn {α : Type} (declared : α → List Ident)
    (mentions : List Ident → α → List Mention) :
    (before : List Ident) → List α → List Mention
  | _, [] => []
  | before, a :: as =>
    mentions before a ++ mentionsInTurn declared mentions (before ++ declared a) as

/-- The variable that an expression declares as a statement of a block. -/
def Expr.lets : Expr → List Ident
  | .bind _ ident _ _ => [ident]
  | _ => []

mutual

/-- The occurrences in an expression, in the order in which they are met. A variable is declared
behind its initial value. -/
def Expr.mentions (around : List (List Ident)) : Expr → List Mention
  | .literal .. | .brk .. => []
  | .var _ ident => [⟨ident, .var, around⟩]
  | .call _ callee arguments => ⟨callee, .call, around⟩ :: mentionsAll around arguments
  | .block _ body result =>
    statementMentions around [] body ++ mentionsOpt (body.flatMap Expr.lets :: around) result
  | .bind _ ident type value =>
    value.mentions around ++ [⟨ident, .declares .letBound type.ty none, around⟩]
  | .assign _ target value => ⟨target, .var, around⟩ :: value.mentions around
  | .binary _ _ left right => left.mentions around ++ right.mentions around
  | .unary _ _ inner | .group _ inner | .ret _ inner => inner.mentions around
  | .branch _ condition onTrue onFalse =>
    condition.mentions around ++ (onTrue.mentions around ++ mentionsOpt around onFalse)
  | .loop _ condition body => condition.mentions around ++ body.mentions around

/-- The occurrences in expressions that see the same. -/
def mentionsAll (around : List (List Ident)) : List Expr → List Mention
  | [] => []
  | e :: es => e.mentions around ++ mentionsAll around es

/-- The occurrences in an expression that may be missing. -/
def mentionsOpt (around : List (List Ident)) : Option Expr → List Mention
  | none => []
  | some e => e.mentions around

/-- The occurrences in statements of a block, each of which sees the variables of earlier ones. -/
def statementMentions (around : List (List Ident)) (before : List Ident) : List Expr → List Mention
  | [] => []
  | e :: es => e.mentions (before :: around) ++ statementMentions around (before ++ e.lets) es

end

/-- The occurrences in the parameters of a function. -/
def paramMentions (around : List (List Ident)) (params : List Param) : List Mention :=
  mentionsInTurn (fun p => [p.ident])
    (fun before p => [⟨p.ident, .declares .parameter p.type.ty none, before :: around⟩]) [] params

/-- The occurrences in an external function, with the global names before it. -/
def External.mentions (before : List Ident) (e : External) : List Mention :=
  ⟨e.ident, .declares .external e.returns.ty (some (signatureOf e.params e.variadic)), [before]⟩ ::
    paramMentions [before ++ [e.ident]] e.params

/-- The name of a function, with the global names before it. -/
def Function.nameMention (before : List Ident) (f : Function) : Mention :=
  ⟨f.ident, .declares .function f.returns.ty (some (signatureOf f.params false)), [before]⟩

/-- The occurrences inside a function. -/
def Function.mentions (globals : List Ident) (f : Function) : List Mention :=
  paramMentions [globals] f.params ++ f.body.mentions [f.params.map (·.ident), globals]

namespace Program

/-- What is visible everywhere: external functions, then the other ones. -/
def globals (p : Program) : List Ident := p.externals.map (·.ident) ++ p.functions.map (·.ident)

/-- The names of the functions. -/
def functionMentions (p : Program) : List Mention :=
  mentionsInTurn (fun f => [f.ident]) (fun before f => [f.nameMention before])
    (p.externals.map (·.ident)) p.functions

/-- The occurrences of names in a program: the external functions with their parameters, the names
of the other functions, and then what is inside these. -/
def mentions (p : Program) : List Mention :=
  mentionsInTurn (fun e => [e.ident]) External.mentions [] p.externals ++
    (p.functionMentions ++ p.functions.flatMap (Function.mentions p.globals))

end Program

/-! ## Occurrences by the parts of an expression -/

namespace Expr

/-- The name that an expression has itself. -/
def named? : Expr → Option (Ident × Use)
  | var _ ident => some (ident, .var)
  | call _ callee _ => some (callee, .call)
  | bind _ ident type _ => some (ident, .declares .letBound type.ty none)
  | assign _ target _ => some (target, .var)
  | _ => none

/-- Only a `let` declares its name. -/
theorem named?_use {e : Expr} (hlets : e.lets = []) {u : Ident × Use} (h : e.named? = some u) :
    u.2 = .var ∨ u.2 = .call := by
  cases e with
  | bind => cases hlets
  | var | call | assign => cases h; simp
  | _ => cases h

theorem mentionsAll_eq (around : List (List Ident)) (es : List Expr) :
    mentionsAll around es = es.flatMap (Expr.mentions around) := by
  induction es with
  | nil => rfl
  | cons e es ih => simp [mentionsAll, ih]

theorem mentionsOpt_eq (around : List (List Ident)) (e : Option Expr) :
    mentionsOpt around e = e.toList.flatMap (Expr.mentions around) := by
  cases e <;> simp [mentionsOpt]

/-- What is neither a block nor a `let` has its own name and what is in its parts. -/
theorem mentions_parts {e : Expr} (hblock : e.isBlock = false) (hlets : e.lets = [])
    (around : List (List Ident)) :
    e.mentions around = (e.named?.map fun u => ⟨u.1, u.2, around⟩).toList ++
      e.children.flatMap (Expr.mentions around) := by
  cases e with
  | block => cases hblock
  | bind => cases hlets
  | _ => simp [mentions, named?, children, mentionsAll_eq, mentionsOpt_eq]

theorem statementMentions_eq (around : List (List Ident)) (before : List Ident) (es : List Expr) :
    statementMentions around before es =
      mentionsInTurn lets (fun before e => e.mentions (before :: around)) before es := by
  induction es generalizing before with
  | nil => rfl
  | cons e es ih => simp [statementMentions, mentionsInTurn, ih]

end Expr

theorem mentionsInTurn_append {α : Type} (declared : α → List Ident)
    (mentions : List Ident → α → List Mention) (before : List Ident) (as bs : List α) :
    mentionsInTurn declared mentions before (as ++ bs) =
      mentionsInTurn declared mentions before as ++
      mentionsInTurn declared mentions (before ++ as.flatMap declared) bs := by
  induction as generalizing before with
  | nil => simp [mentionsInTurn]
  | cons a as ih => simp [mentionsInTurn, ih]

/-- The parts of a block are its statements, the value of the block included. -/
theorem Expr.mentions_block (n : Node) (body : List Expr) (result : Option Expr)
    (around : List (List Ident)) : (Expr.block n body result).mentions around =
      mentionsInTurn lets (fun before e => e.mentions (before :: around)) []
        (Expr.block n body result).children := by
  cases result <;>
    simp [mentions, children, statementMentions_eq, mentionsOpt, mentionsInTurn_append,
      mentionsInTurn]

/-- If the parts of a list declare nothing, they all see the same. -/
theorem mentionsInTurn_of_declared_nil {α : Type} {declared : α → List Ident}
    {mentions : List Ident → α → List Mention} {before : List Ident} {as : List α}
    (h : ∀ a ∈ as, declared a = []) :
    mentionsInTurn declared mentions before as = as.flatMap (mentions before) := by
  induction as with
  | nil => rfl
  | cons a as ih =>
    rw [mentionsInTurn, h a List.mem_cons_self, List.append_nil,
      ih fun b hb => h b (List.mem_cons_of_mem _ hb), List.flatMap_cons]

theorem mentionsInTurn_map {α β : Type} (g : α → β) (declared : β → List Ident)
    (mentions : List Ident → β → List Mention) (before : List Ident) (as : List α) :
    mentionsInTurn (fun a => declared (g a)) (fun b a => mentions b (g a)) before as =
      mentionsInTurn declared mentions before (as.map g) := by
  induction as generalizing before with
  | nil => rfl
  | cons a as ih => rw [mentionsInTurn, List.map_cons, mentionsInTurn, ih]

/-- What is mentioned in the parts of a list is mentioned in one of them, with what those before it
declare. -/
theorem mem_mentionsInTurn {α : Type} {declared : α → List Ident}
    {mentions : List Ident → α → List Mention} {before : List Ident} {as : List α} {x : Mention} :
    x ∈ mentionsInTurn declared mentions before as ↔
      ∃ l a r, as = l ++ a :: r ∧ x ∈ mentions (before ++ l.flatMap declared) a := by
  induction as generalizing before with
  | nil => simp [mentionsInTurn]
  | cons b as ih =>
    rw [mentionsInTurn, List.mem_append, ih]
    constructor
    · rintro (h | ⟨l, a, r, rfl, h⟩)
      · exact ⟨[], b, as, rfl, by simpa using h⟩
      · exact ⟨b :: l, a, r, rfl, by simpa using h⟩
    · rintro ⟨l, a, r, has, h⟩
      cases l with
      | nil =>
        cases has
        exact .inl (by simpa using h)
      | cons c l =>
        cases has
        exact .inr ⟨l, a, r, rfl, by simpa using h⟩

namespace Expr

theorem mentions_lets {e : Expr} {i : Ident} (hi : i ∈ e.lets) (around : List (List Ident)) :
    ∃ x ∈ e.mentions around, x.declared? = some i := by
  cases e with
  | bind n ident type value =>
    obtain rfl := List.mem_singleton.1 hi
    exact ⟨_, List.mem_append_right _ List.mem_cons_self, rfl⟩
  | _ => cases hi

theorem mem_mentions_block {n : Node} {body : List Expr} {result : Option Expr}
    {around : List (List Ident)} {x : Mention} : x ∈ (block n body result).mentions around ↔
      ∃ l c r, (block n body result).children = l ++ c :: r ∧
        x ∈ c.mentions (l.flatMap lets :: around) := by
  rw [mentions_block, mem_mentionsInTurn]
  simp only [List.nil_append]

theorem isBlock_iff {e : Expr} : e.isBlock = true ↔ ∃ n body result, e = block n body result := by
  cases e <;> simp [isBlock]

theorem lets_ne_nil_iff {e : Expr} :
    e.lets ≠ [] ↔ ∃ n ident type value, e = bind n ident type value := by
  cases e <;> simp [lets]

/-- What a part of an expression mentions, the expression mentions. -/
theorem mentions_child {c e : Expr} (hc : c ∈ e.children) (around : List (List Ident)) :
    ∃ inner, ∀ x ∈ c.mentions inner, x ∈ e.mentions around := by
  by_cases hblock : e.isBlock = true
  · obtain ⟨n, body, result, rfl⟩ := isBlock_iff.1 hblock
    obtain ⟨l, r, hchildren⟩ := List.append_of_mem hc
    exact ⟨_, fun x hx => mem_mentions_block.2 ⟨l, c, r, hchildren, hx⟩⟩
  · by_cases hlets : e.lets = []
    · refine ⟨around, fun x hx => ?_⟩
      rw [mentions_parts (Bool.eq_false_iff.2 hblock) hlets]
      exact List.mem_append_right _ (List.mem_flatMap.2 ⟨c, hc, hx⟩)
    · obtain ⟨n, ident, type, value, rfl⟩ := lets_ne_nil_iff.1 hlets
      obtain rfl := List.mem_singleton.1 hc
      exact ⟨around, fun x hx => List.mem_append_left _ hx⟩

/-- What stands in an expression has its mentions there. -/
theorem mentions_inside {d e : Expr} (h : d.Inside e) (around : List (List Ident)) :
    ∃ inner, ∀ x ∈ d.mentions inner, x ∈ e.mentions around := by
  induction h generalizing around with
  | here => exact ⟨around, fun x hx => hx⟩
  | child hc _ ih =>
    obtain ⟨middle, hmiddle⟩ := mentions_child hc around
    obtain ⟨inner, hinner⟩ := ih middle
    exact ⟨inner, fun x hx => hmiddle x (hinner x hx)⟩

/-- The scopes that an expression opens have what it declares. -/
theorem exists_inner {e : Expr} {around : List (List Ident)} {x : Mention}
    (hx : x ∈ e.mentions around) : ∃ inner, x.around = inner ++ around ∧
      ∀ scope ∈ inner, ∀ i ∈ scope, ∃ y ∈ e.mentions around, y.declared? = some i := by
  induction e using Expr.induction_children generalizing around with
  | _ e ih =>
    by_cases hblock : e.isBlock = true
    · obtain ⟨n, body, result, rfl⟩ := isBlock_iff.1 hblock
      obtain ⟨l, c, r, hchildren, hx⟩ := mem_mentions_block.1 hx
      obtain ⟨inner, haround, hinner⟩ := ih c (by simp [hchildren]) hx
      refine ⟨inner ++ [l.flatMap lets], by simpa using haround, ?_⟩
      intro scope hscope i hi
      rcases List.mem_append.1 hscope with hscope | hscope
      · obtain ⟨y, hy, hyi⟩ := hinner scope hscope i hi
        exact ⟨y, mem_mentions_block.2 ⟨l, c, r, hchildren, hy⟩, hyi⟩
      · -- A statement before the mention declares what is in the scope of the block.
        obtain rfl := List.mem_singleton.1 hscope
        obtain ⟨d, hd, hlet⟩ := List.mem_flatMap.1 hi
        obtain ⟨l₁, l₂, rfl⟩ := List.append_of_mem hd
        obtain ⟨y, hy, hyi⟩ := mentions_lets hlet (l₁.flatMap lets :: around)
        refine ⟨y, mem_mentions_block.2 ⟨l₁, d, l₂ ++ c :: r, ?_, hy⟩, hyi⟩
        rw [hchildren, List.append_assoc, List.cons_append]
    · by_cases hlets : e.lets = []
      · rw [mentions_parts (Bool.eq_false_iff.2 hblock) hlets] at hx ⊢
        rcases List.mem_append.1 hx with hx | hx
        · obtain ⟨u, -, rfl⟩ := Option.map_eq_some_iff.1 (Option.mem_toList.1 hx)
          exact ⟨[], rfl, by simp⟩
        · obtain ⟨c, hc, hx⟩ := List.mem_flatMap.1 hx
          obtain ⟨inner, haround, hinner⟩ := ih c hc hx
          refine ⟨inner, haround, fun scope hscope i hi => ?_⟩
          obtain ⟨y, hy, hyi⟩ := hinner scope hscope i hi
          exact ⟨y, List.mem_append_right _ (List.mem_flatMap.2 ⟨c, hc, hy⟩), hyi⟩
      · obtain ⟨n, ident, type, value, rfl⟩ := lets_ne_nil_iff.1 hlets
        rcases List.mem_append.1 hx with hx | hx
        · obtain ⟨inner, haround, hinner⟩ := ih value (by simp [children]) hx
          refine ⟨inner, haround, fun scope hscope i hi => ?_⟩
          obtain ⟨y, hy, hyi⟩ := hinner scope hscope i hi
          exact ⟨y, List.mem_append_left _ hy, hyi⟩
        · rw [List.mem_singleton.1 hx]
          exact ⟨[], rfl, by simp⟩

/-- Each node that has a name is mentioned. -/
theorem exists_mention {d e : Expr} (h : d.Inside e) {u : Ident × Use} (hu : d.named? = some u)
    (around : List (List Ident)) : ∃ x ∈ e.mentions around, x.ident = u.1 ∧ x.use = u.2 := by
  obtain ⟨inner, hinner⟩ := mentions_inside h around
  suffices hown : ⟨u.1, u.2, inner⟩ ∈ d.mentions inner from ⟨_, hinner _ hown, rfl, rfl⟩
  cases d with
  | var | call | assign => cases hu; exact List.mem_cons_self
  | bind => cases hu; exact List.mem_append_right _ List.mem_cons_self
  | _ => cases hu

/-- Each mention is that of a node. -/
theorem exists_named {e : Expr} {around : List (List Ident)} {x : Mention}
    (hx : x ∈ e.mentions around) : ∃ d : Expr, d.Inside e ∧ d.named? = some (x.ident, x.use) := by
  induction e using Expr.induction_children generalizing around with
  | _ e ih =>
    have hchild : ∀ c ∈ e.children, ∀ {around}, x ∈ c.mentions around →
        ∃ d : Expr, d.Inside e ∧ d.named? = some (x.ident, x.use) := by
      intro c hc around hx
      obtain ⟨d, hd, hname⟩ := ih c hc hx
      exact ⟨d, .child hc hd, hname⟩
    by_cases hblock : e.isBlock = true
    · obtain ⟨n, body, result, rfl⟩ := isBlock_iff.1 hblock
      obtain ⟨l, c, r, hchildren, hx⟩ := mem_mentions_block.1 hx
      exact hchild c (by simp [hchildren]) hx
    · by_cases hlets : e.lets = []
      · rw [mentions_parts (Bool.eq_false_iff.2 hblock) hlets] at hx
        rcases List.mem_append.1 hx with hx | hx
        · obtain ⟨u, hu, rfl⟩ := Option.map_eq_some_iff.1 (Option.mem_toList.1 hx)
          exact ⟨e, .here, hu⟩
        · obtain ⟨c, hc, hx⟩ := List.mem_flatMap.1 hx
          exact hchild c hc hx
      · obtain ⟨n, ident, type, value, rfl⟩ := lets_ne_nil_iff.1 hlets
        rcases List.mem_append.1 hx with hx | hx
        · exact hchild value (by simp [children]) hx
        · rw [List.mem_singleton.1 hx]
          exact ⟨_, .here, rfl⟩

end Expr

/-- The scopes around a mention in a function, but for the global one, have what the function
declares. -/
theorem Function.exists_locals {f : Function} {globals : List Ident} {x : Mention}
    (hx : x ∈ f.mentions globals) : ∃ locals, x.around = locals ++ [globals] ∧
      ∀ scope ∈ locals, ∀ i ∈ scope, ∃ y ∈ f.mentions globals, y.declared? = some i := by
  have hparams : ∀ l r, f.params = l ++ r → ∀ i ∈ l.map (·.ident),
      ∃ y ∈ f.mentions globals, y.declared? = some i := by
    intro l r hlr i hi
    obtain ⟨p, hp, rfl⟩ := List.mem_map.1 hi
    obtain ⟨l₁, l₂, rfl⟩ := List.append_of_mem hp
    refine ⟨_, List.mem_append_left _ (mem_mentionsInTurn.2 ⟨l₁, p, l₂ ++ r, ?_,
      List.mem_singleton_self _⟩), rfl⟩
    rw [hlr, List.append_assoc, List.cons_append]
  rcases List.mem_append.1 hx with hx | hx
  · obtain ⟨l, p, r, hlr, hx⟩ := mem_mentionsInTurn.1 hx
    rw [List.mem_singleton.1 hx, List.nil_append, ← List.map_eq_flatMap]
    refine ⟨[l.map (·.ident)], rfl, fun scope hscope => ?_⟩
    rw [List.mem_singleton.1 hscope]
    exact hparams l (p :: r) hlr
  · obtain ⟨inner, haround, hinner⟩ := Expr.exists_inner hx
    refine ⟨inner ++ [f.params.map (·.ident)], by simpa using haround, ?_⟩
    intro scope hscope i hi
    rcases List.mem_append.1 hscope with hscope | hscope
    · obtain ⟨y, hy, hyi⟩ := hinner scope hscope i hi
      exact ⟨y, List.mem_append_right _ hy, hyi⟩
    · rw [List.mem_singleton.1 hscope] at hi
      exact hparams f.params [] (by simp) i hi

/-! ## Mentions without notes -/

/-- A mention with only some of the notes on names. -/
def Mention.strip (k : Keep) (x : Mention) : Mention :=
  ⟨k.ident x.ident, x.use, x.around.map (·.map k.ident)⟩

theorem Expr.lets_strip (k : Keep) (e : Expr) : (e.strip k).lets = e.lets.map k.ident := by
  cases e <;> rfl

theorem flatMap_lets_stripAll (k : Keep) (es : List Expr) :
    (stripAll k es).flatMap Expr.lets = (es.flatMap Expr.lets).map k.ident := by
  simp [stripAll_eq_map, List.flatMap_map, List.map_flatMap, Expr.lets_strip]

mutual

theorem Expr.mentions_strip (k : Keep) (e : Expr) (around : List (List Ident)) :
    (e.strip k).mentions (around.map (·.map k.ident)) =
      (e.mentions around).map (Mention.strip k) := by
  cases e with
  | block n body result =>
    rw [Expr.strip, Expr.mentions, Expr.mentions, List.map_append, flatMap_lets_stripAll,
      ← statementMentions_strip k body, ← mentionsOpt_strip k result]
    rfl
  | _ =>
    simp [Expr.strip, Expr.mentions, Mention.strip, Expr.mentions_strip, mentionsAll_strip,
      mentionsOpt_strip]

theorem mentionsAll_strip (k : Keep) (es : List Expr) (around : List (List Ident)) :
    mentionsAll (around.map (·.map k.ident)) (stripAll k es) =
      (mentionsAll around es).map (Mention.strip k) := by
  cases es <;> simp [stripAll, mentionsAll, Expr.mentions_strip, mentionsAll_strip]

theorem mentionsOpt_strip (k : Keep) (e : Option Expr) (around : List (List Ident)) :
    mentionsOpt (around.map (·.map k.ident)) (stripOpt k e) =
      (mentionsOpt around e).map (Mention.strip k) := by
  cases e <;> simp [stripOpt, mentionsOpt, Expr.mentions_strip]

theorem statementMentions_strip (k : Keep) (es : List Expr) (around : List (List Ident))
    (before : List Ident) :
    statementMentions (around.map (·.map k.ident)) (before.map k.ident) (stripAll k es) =
      (statementMentions around before es).map (Mention.strip k) := by
  cases es with
  | nil => rfl
  | cons e es =>
    rw [stripAll, statementMentions, statementMentions, List.map_append, Expr.lets_strip,
      ← List.map_append, statementMentions_strip, ← e.mentions_strip k]
    rfl

end

theorem paramMentions_strip (k : Keep) (params : List Param) (around : List (List Ident)) :
    paramMentions (around.map (·.map k.ident)) (params.map (Param.strip k)) =
      (paramMentions around params).map (Mention.strip k) := by
  unfold paramMentions
  suffices h : ∀ before, mentionsInTurn (fun p => [p.ident])
      (fun b p => [⟨p.ident, .declares .parameter p.type.ty none,
        b :: around.map (·.map k.ident)⟩]) (before.map k.ident) (params.map (Param.strip k)) =
      (mentionsInTurn (fun p => [p.ident])
        (fun b p => [⟨p.ident, .declares .parameter p.type.ty none, b :: around⟩])
        before params).map (Mention.strip k) from h []
  induction params with
  | nil => simp [mentionsInTurn]
  | cons p params ih =>
    intro before
    have hps := ih (before ++ [p.ident])
    rw [List.map_append] at hps
    simp only [List.map_cons, mentionsInTurn, List.map_append, ← hps]
    rfl

theorem Function.mentions_strip (k : Keep) (f : Function) (globals : List Ident) :
    (f.strip k).mentions (globals.map k.ident) = (f.mentions globals).map (Mention.strip k) := by
  have hbody := f.body.mentions_strip k [f.params.map (·.ident), globals]
  have hparams := paramMentions_strip k f.params [globals]
  have hidents : (f.strip k).params.map (·.ident) = (f.params.map (·.ident)).map k.ident := by
    simp [Function.strip, Param.strip]
  rw [Function.mentions, Function.mentions, List.map_append, ← hbody, ← hparams, hidents]
  rfl

namespace Mention

theorem declaration?_strip (k : Keep) (x : Mention) : (x.strip k).declaration? = x.declaration? :=
  rfl

theorem firstNamed_map (k : Keep) (name : String) (scope : List Ident) :
    firstNamed name (scope.map k.ident) = (firstNamed name scope).map k.ident :=
  List.find?_map ..

theorem meaning_strip (k : Keep) (x : Mention) : (x.strip k).meaning = x.meaning.map k.ident := by
  show meaningOf x.ident.name (x.around.map (·.map k.ident)) = _
  unfold meaning meaningOf
  induction x.around with
  | nil => rfl
  | cons scope around ih =>
    rw [List.map_cons, List.findSome?_cons, List.findSome?_cons, firstNamed_map, ih]
    cases firstNamed x.ident.name scope <;> rfl

theorem rival_strip (k : Keep) (x : Mention) : (x.strip k).rival = x.rival.map k.ident := by
  show (x.around.map (·.map k.ident)).head?.bind (firstNamed x.ident.name) = _
  unfold rival
  cases x.around with
  | nil => rfl
  | cons scope around => exact firstNamed_map k x.ident.name scope

theorem report_strip (k : Keep) (x : Mention) : (x.strip k).report = x.report := by
  have huse : (x.strip k).use = x.use := rfl
  unfold report
  rw [huse, meaning_strip, rival_strip, Option.isNone_map]
  cases x.rival <;> rfl

end Mention

end Ilang
