import Ilang.Grammar.Program
import Ilang.Proofs.Queues
import Ilang.Proofs.Trees
/-!
# How programs are spelled

`Expr.print` writes an expression by the productions of its grammar, without any parentheses of its
own, and marks where each part with a location starts. `Spells` compares such a print with tokens:
the tokens are the printed ones, and each part has the location of its first token. `Expr.yield`
are the tokens of the print alone.
-/
namespace Ilang

/-! ## Prints -/

/-- A piece of a print: a token, or the start of a part that has a location. -/
inductive Mark where
  | token (kind : TokenKind)
  | start (location : Location)
deriving DecidableEq, Repr

/-- The token of a piece. -/
def Mark.kind? : Mark → Option TokenKind
  | token kind => some kind
  | start _ => none

/-- Prints with commas between them. -/
def separated : List (List Mark) → List Mark
  | [] => []
  | [first] => first
  | first :: second :: others => first ++ .token .comma :: separated (second :: others)

/-- Prints with a semicolon behind each. -/
def terminated (prints : List (List Mark)) : List Mark :=
  prints.flatMap fun marks => marks ++ [.token .semicolon]

/-- A print in parentheses. -/
def parenthesized (marks : List Mark) : List Mark :=
  .token .lparen :: (marks ++ [.token .rparen])

/-- A name. -/
def Ident.print (i : Ident) : List Mark := [.start i.location, .token (.identifier i.name)]

/-- The token for the name of a type. The word `unit` is a literal. -/
def TypeRef.token (t : TypeRef) : TokenKind :=
  if t.name = "unit" then .literal "unit" else .identifier t.name

/-- The name of a type. -/
def TypeRef.print (t : TypeRef) : List Mark := [.start t.location, .token t.token]

mutual

/-- An expression, by its production. -/
def Expr.print : Expr → List Mark
  | .literal n text _ => [.start n.location, .token (.literal text)]
  | .var n ident => .start n.location :: ident.print
  | .call n callee arguments =>
    .start n.location :: (callee.print ++ parenthesized (separated (printAll arguments)))
  | .block n body result =>
    .start n.location :: .token .lbrace ::
      (terminated (printAll body) ++ (printOpt [] result ++ [.token .rbrace]))
  | .bind n ident type value =>
    .start n.location :: .token .kwLet :: (ident.print ++ .token .colon ::
      (type.print ++ .token .assign :: value.print))
  | .assign n target value =>
    .start n.location :: (target.print ++ .token .assign :: value.print)
  | .binary n op left right =>
    .start n.location :: (left.print ++ .token op.token :: right.print)
  | .unary n op operand => .start n.location :: .token op.token :: operand.print
  | .group n inner => .start n.location :: parenthesized inner.print
  | .branch n condition onTrue onFalse =>
    .start n.location :: .token .kwIf ::
      (condition.print ++ (onTrue.print ++ printOpt [.token .kwElse] onFalse))
  | .ret n value => .start n.location :: .token .kwReturn :: value.print
  | .loop n condition body =>
    .start n.location :: .token .kwWhile :: (condition.print ++ body.print)
  | .brk n => [.start n.location, .token .kwBreak]

/-- Each of some expressions. -/
def printAll : List Expr → List (List Mark)
  | [] => []
  | e :: es => e.print :: printAll es

/-- An expression that may be missing, with a heading if it is not. -/
def printOpt (heading : List Mark) : Option Expr → List Mark
  | none => []
  | some e => heading ++ e.print

end

/-- A parameter. -/
def Param.print (p : Param) : List Mark := p.type.print ++ p.ident.print

/-- The parameters of a function, with `...` behind them if it takes more. -/
def printParams (variadic : Bool) (ps : List Param) : List Mark :=
  separated (ps.map Param.print ++ if variadic then [[.token .ellipsis]] else [])

/-- A function. -/
def Function.print (f : Function) : List Mark :=
  .start f.location :: (f.returns.print ++ (f.ident.print ++
    (parenthesized (printParams false f.params) ++ f.body.print)))

/-- An external function, up to its closing parenthesis. -/
def External.print (e : External) : List Mark :=
  .start e.location :: .token .kwExtrn :: (e.returns.print ++ (e.ident.print ++
    parenthesized (printParams e.variadic e.params)))

/-- A declaration as a program writes it: a semicolon may close an external function. -/
inductive Decl where
  | function (f : Function)
  | external (e : External) (closed : Bool)

namespace Decl

/-- The function that is declared, if it is not external. -/
def function? : Decl → Option Function
  | function f => some f
  | external .. => none

/-- The external function that is declared. -/
def external? : Decl → Option External
  | function _ => none
  | external e _ => some e

/-- A declaration. -/
def print : Decl → List Mark
  | function f => f.print
  | external e closed => e.print ++ if closed then [.token .semicolon] else []

end Decl

/-- The tokens of a print. -/
def yieldOf (marks : List Mark) : List TokenKind := marks.filterMap Mark.kind?

/-- The tokens of an expression. -/
def Expr.yield (e : Expr) : List TokenKind := yieldOf e.print

/-- The tokens of a declaration. -/
def Decl.yield (d : Decl) : List TokenKind := yieldOf d.print

/-! ## Tokens that spell a print -/

/-- Tokens spell a print: they are its tokens, and a part starts where its first token stands. -/
inductive Spells : List Mark → List Token → Prop
  | nil : Spells [] []
  | start {kind : TokenKind} {l : Location} {ts : List Token} {marks : List Mark}
    (h : Spells marks (⟨kind, l⟩ :: ts)) : Spells (.start l :: marks) (⟨kind, l⟩ :: ts)
  | token {kind : TokenKind} {l : Location} {ts : List Token} {marks : List Mark}
    (h : Spells marks ts) : Spells (.token kind :: marks) (⟨kind, l⟩ :: ts)

namespace Spells

variable {marks others : List Mark} {ts us : List Token}

theorem append (h : Spells marks ts) (h' : Spells others us) :
    Spells (marks ++ others) (ts ++ us) := by
  induction h with
  | nil => exact h'
  | start _ ih => exact .start ih
  | token _ ih => exact .token ih

theorem parenthesized {l l' : Location} (h : Spells marks ts) :
    Spells (parenthesized marks) (⟨.lparen, l⟩ :: (ts ++ [⟨.rparen, l'⟩])) :=
  .token (h.append (.token .nil))

/-- Two parts can start at the same token. -/
theorem again {l : Location} (h : Spells (.start l :: marks) ts) :
    Spells (.start l :: .start l :: marks) ts := by
  cases h with
  | start h => exact .start (.start h)

/-- The tokens are those of the print. -/
theorem kinds (h : Spells marks ts) : ts.map Token.kind = yieldOf marks := by
  induction h with
  | nil => rfl
  | start _ ih => exact ih
  | token _ ih => simp [yieldOf, Mark.kind?, ih]

/-- What starts somewhere has a token. -/
theorem ne_nil {l : Location} (h : Spells (.start l :: marks) ts) : ts ≠ [] := by
  cases h
  exact List.cons_ne_nil _ _

end Spells

theorem Expr.print_eq_start (e : Expr) : ∃ marks, e.print = .start e.location :: marks := by
  cases e <;> exact ⟨_, rfl⟩

/-- What begins with an expression starts where that does. -/
theorem Expr.spells_again {e : Expr} {marks : List Mark} {ts : List Token}
    (h : Spells (e.print ++ marks) ts) : Spells (.start e.location :: (e.print ++ marks)) ts := by
  obtain ⟨others, hothers⟩ := e.print_eq_start
  rw [hothers] at h ⊢
  exact h.again

/-- An expression has a token. -/
theorem Expr.ne_nil_of_spells {e : Expr} {ts : List Token} (h : Spells e.print ts) : ts ≠ [] := by
  obtain ⟨marks, hmarks⟩ := e.print_eq_start
  exact (hmarks ▸ h).ne_nil

/-! ## Parts of a print -/

theorem Spells.behind {marks others : List Mark} {ts : List Token}
    (h : Spells (marks ++ others) ts) : ∃ before behind, ts = before ++ behind ∧
      Spells others behind := by
  induction marks generalizing ts with
  | nil => exact ⟨[], ts, rfl, h⟩
  | cons mark marks ih =>
    cases h with
    | start h => exact ih h
    | token h =>
      obtain ⟨before, behind, rfl, hbehind⟩ := ih h
      exact ⟨_ :: before, behind, rfl, hbehind⟩

theorem infix_separated {prints : List (List Mark)} {marks : List Mark} (h : marks ∈ prints) :
    marks <:+: separated prints := by
  induction prints using separated.induct with
  | case1 => cases h
  | case2 first => exact List.mem_singleton.1 h ▸ List.infix_rfl
  | case3 first second others ih =>
    rw [separated]
    rcases List.mem_cons.1 h with rfl | h
    · exact (List.prefix_append _ _).isInfix
    · exact (ih h).trans ((List.suffix_cons _ _).trans (List.suffix_append _ _)).isInfix

theorem infix_terminated {prints : List (List Mark)} {marks : List Mark} (h : marks ∈ prints) :
    marks <:+: terminated prints := by
  obtain ⟨before, behind, rfl⟩ := List.append_of_mem h
  refine ⟨terminated before, .token .semicolon :: terminated behind, ?_⟩
  simp [terminated]

theorem mem_printAll {e : Expr} {es : List Expr} (h : e ∈ es) : e.print ∈ printAll es := by
  induction es with
  | nil => cases h
  | cons d es ih =>
    rcases List.mem_cons.1 h with rfl | h
    · exact List.mem_cons_self
    · exact List.mem_cons_of_mem _ (ih h)

/-- The print of a child is a part of the print of its parent. -/
theorem Expr.print_child {c e : Expr} (h : c ∈ e.children) : c.print <:+: e.print := by
  cases e with
  | literal | var | brk => cases h
  | call n callee arguments =>
    have hpart : separated (printAll arguments) <:+: (Expr.call n callee arguments).print :=
      ⟨.start n.location :: (callee.print ++ [.token .lparen]), [.token .rparen],
        by simp [Expr.print, parenthesized]⟩
    exact (infix_separated (mem_printAll h)).trans hpart
  | block n body result =>
    rcases List.mem_append.1 h with h | h
    · have hpart : terminated (printAll body) <:+: (Expr.block n body result).print :=
        ⟨[.start n.location, .token .lbrace], printOpt [] result ++ [.token .rbrace],
          by simp [Expr.print]⟩
      exact (infix_terminated (mem_printAll h)).trans hpart
    · obtain rfl := Option.mem_toList.1 h
      exact ⟨.start n.location :: .token .lbrace :: terminated (printAll body),
        [.token .rbrace], by simp [Expr.print, printOpt]⟩
  | branch n condition onTrue onFalse =>
    rcases List.mem_cons.1 h with rfl | h
    · exact ⟨[.start n.location, .token .kwIf], onTrue.print ++ printOpt [.token .kwElse] onFalse,
        by simp [Expr.print]⟩
    rcases List.mem_cons.1 h with rfl | h
    · exact ⟨.start n.location :: .token .kwIf :: condition.print,
        printOpt [.token .kwElse] onFalse, by simp [Expr.print]⟩
    · obtain rfl := Option.mem_toList.1 h
      exact ⟨.start n.location :: .token .kwIf :: (condition.print ++ (onTrue.print ++
        [.token .kwElse])), [], by simp [Expr.print, printOpt]⟩
  | binary n op left right =>
    rcases List.mem_cons.1 h with rfl | h
    · exact ⟨[.start n.location], .token op.token :: right.print, by simp [Expr.print]⟩
    · obtain rfl := List.mem_singleton.1 h
      exact ⟨.start n.location :: (left.print ++ [.token op.token]), [], by simp [Expr.print]⟩
  | loop n condition body =>
    rcases List.mem_cons.1 h with rfl | h
    · exact ⟨[.start n.location, .token .kwWhile], body.print, by simp [Expr.print]⟩
    · obtain rfl := List.mem_singleton.1 h
      exact ⟨.start n.location :: .token .kwWhile :: condition.print, [], by simp [Expr.print]⟩
  | bind n ident type value =>
    obtain rfl := List.mem_singleton.1 h
    exact ⟨.start n.location :: .token .kwLet :: (ident.print ++ .token .colon :: (type.print ++
      [.token .assign])), [], by simp [Expr.print]⟩
  | assign n target value =>
    obtain rfl := List.mem_singleton.1 h
    exact ⟨.start n.location :: (target.print ++ [.token .assign]), [], by simp [Expr.print]⟩
  | unary n op operand =>
    obtain rfl := List.mem_singleton.1 h
    exact ⟨[.start n.location, .token op.token], [], by simp [Expr.print]⟩
  | group n inner =>
    obtain rfl := List.mem_singleton.1 h
    exact ⟨[.start n.location, .token .lparen], [.token .rparen],
      by simp [Expr.print, parenthesized]⟩
  | ret n value =>
    obtain rfl := List.mem_singleton.1 h
    exact ⟨[.start n.location, .token .kwReturn], [], by simp [Expr.print]⟩

/-- Every node of an expression stands somewhere in tokens, and its location is that of its first
token. -/
def Expr.LocatedIn (e : Expr) (ts : List Token) : Prop :=
  ∀ x : Expr, x.Inside e → ∃ before behind, ts = before ++ behind ∧
    x.yield <+: behind.map Token.kind ∧ behind.head?.map Token.location = some x.location

theorem Expr.print_inside {x e : Expr} (h : x.Inside e) : x.print <:+: e.print := by
  induction h with
  | here => exact List.infix_rfl
  | child hc _ ih => exact ih.trans (print_child hc)

theorem Expr.locatedIn_of_spells {e : Expr} {marks : List Mark} {ts : List Token}
    (h : Spells marks ts) (he : e.print <:+: marks) : e.LocatedIn ts := by
  intro x hx
  obtain ⟨first, last, rfl⟩ := (print_inside hx).trans he
  rw [List.append_assoc] at h
  obtain ⟨before, behind, rfl, hbehind⟩ := h.behind
  refine ⟨before, behind, rfl, ?_, ?_⟩
  · rw [hbehind.kinds, yieldOf, List.filterMap_append]
    exact List.prefix_append _ _
  · obtain ⟨others, hothers⟩ := x.print_eq_start
    rw [hothers] at hbehind
    generalize x.location = l at hbehind
    cases hbehind
    rfl

/-! ## No print holds the end of a text -/

@[simp] theorem BinaryOp.token_ne_endOfFile (op : BinaryOp) : op.token ≠ .endOfFile := by
  cases op <;> nofun

@[simp] theorem UnaryOp.token_ne_endOfFile (op : UnaryOp) : op.token ≠ .endOfFile := by
  cases op <;> nofun

/-- A print does not hold the end of a text. -/
def Endless (marks : List Mark) : Prop := .token .endOfFile ∉ marks

@[simp] theorem endless_nil : Endless [] := List.not_mem_nil

@[simp] theorem endless_start {l : Location} {marks : List Mark} :
    Endless (.start l :: marks) ↔ Endless marks := by
  simp [Endless]

@[simp] theorem endless_token {kind : TokenKind} {marks : List Mark} :
    Endless (.token kind :: marks) ↔ kind ≠ .endOfFile ∧ Endless marks := by
  simp [Endless, eq_comm]

@[simp] theorem endless_append {marks others : List Mark} :
    Endless (marks ++ others) ↔ Endless marks ∧ Endless others := by
  simp [Endless]

@[simp] theorem endless_parenthesized {marks : List Mark} :
    Endless (parenthesized marks) ↔ Endless marks := by
  simp [parenthesized]

theorem endless_separated {prints : List (List Mark)} (h : ∀ marks ∈ prints, Endless marks) :
    Endless (separated prints) := by
  induction prints using separated.induct with
  | case1 => exact endless_nil
  | case2 first => exact h first List.mem_cons_self
  | case3 first second others ih =>
    obtain ⟨hfirst, hothers⟩ := List.forall_mem_cons.1 h
    simpa [separated] using ⟨hfirst, ih hothers⟩

theorem endless_terminated {prints : List (List Mark)} (h : ∀ marks ∈ prints, Endless marks) :
    Endless (terminated prints) := by
  intro hmem
  obtain ⟨marks, hmarks, hend⟩ := List.mem_flatMap.1 hmem
  have hboth : Endless (marks ++ [.token .semicolon]) := by simpa using h marks hmarks
  exact hboth hend

@[simp] theorem Ident.endless_print (i : Ident) : Endless i.print := by
  simp [print]

@[simp] theorem TypeRef.endless_print (t : TypeRef) : Endless t.print := by
  simp only [print, token]
  split <;> simp

mutual

theorem Expr.endless_print (e : Expr) : Endless e.print := by
  cases e with
  | call n callee arguments => simp [Expr.print, endless_separated (printAll_endless arguments)]
  | block n body result =>
    simp [Expr.print, endless_terminated (printAll_endless body), printOpt_endless]
  | _ => simp [Expr.print, Expr.endless_print, printOpt_endless]

theorem printAll_endless (es : List Expr) : ∀ marks ∈ printAll es, Endless marks := by
  cases es with
  | nil => exact List.forall_mem_nil _
  | cons e es => exact List.forall_mem_cons.2 ⟨e.endless_print, printAll_endless es⟩

theorem printOpt_endless (heading : List Mark) (h : Endless heading) (e : Option Expr) :
    Endless (printOpt heading e) := by
  cases e <;> simp [printOpt, h, Expr.endless_print]

end

theorem endless_printParams (variadic : Bool) (ps : List Param) :
    Endless (printParams variadic ps) := by
  refine endless_separated fun marks hmarks => ?_
  rcases List.mem_append.1 hmarks with hmarks | hmarks
  · obtain ⟨p, -, rfl⟩ := List.mem_map.1 hmarks
    simp [Param.print]
  · split at hmarks
    · simp_all
    · cases hmarks

theorem Decl.endless_print (d : Decl) : Endless d.print := by
  cases d with
  | function f => simp [Decl.print, Function.print, endless_printParams, Expr.endless_print]
  | external e closed => cases closed <;> simp [Decl.print, External.print, endless_printParams]

/-- No token of a declaration is the end of a text. -/
theorem Spells.ne_endOfFile {ds : List Decl} {ts : List Token}
    (h : Spells (ds.flatMap Decl.print) ts) : ∀ t ∈ ts, t.kind ≠ .endOfFile := by
  intro t ht hend
  have hmem : TokenKind.endOfFile ∈ yieldOf (ds.flatMap Decl.print) :=
    h.kinds ▸ List.mem_map.2 ⟨t, ht, hend⟩
  obtain ⟨mark, hmark, hkind⟩ := List.mem_filterMap.1 hmem
  obtain ⟨d, -, hd⟩ := List.mem_flatMap.1 hmark
  cases mark with
  | token kind =>
    cases hkind
    exact d.endless_print hd
  | start l => cases hkind

end Ilang
