import Ilang.Grammar.Program
import Ilang.Proofs.Trees
import Ilang.Token.Cursor
/-!
# Programs that were read from a text

What holds of every program that a source text stands for (`Program.AsRead`): functions have names
that start with a letter or an underscore, a written type stands for the type of its name, and a
variable is declared in a block and nowhere else. The grammar is gone through once, with a budget as
small as it may be, by a rule of inference for each way to take tokens (`Rule.Ensures`).
-/
namespace Ilang

/-- A program is what a source text stands for. -/
def Program.Written (p : Program) : Prop :=
  ∃ file source tokens, tokenize file source = .ok tokens ∧ parse tokens = .ok p

/-- The program that a source text stands for, if there is one. -/
def Program.ofText? (file source : String) : Option Program :=
  match tokenize file source with
  | .ok tokens => (parse tokens).toOption
  | .error _ => none

/-- Text between braces. -/
def braced (text : String) : String := "\x7b " ++ text ++ " \x7d"

theorem eq_ok_of_toOption {ε α : Type} {r : Except ε α} {a : α} (h : r.toOption = some a) :
    r = .ok a := by
  cases r with
  | error => cases h
  | ok => exact congrArg Except.ok (Option.some.inj h)

theorem Program.written_of_ofText? {file source : String} {p : Program}
    (h : Program.ofText? file source = some p) : p.Written := by
  unfold Program.ofText? at h
  cases ht : tokenize file source with
  | error e => rw [ht] at h; cases h
  | ok tokens =>
    rw [ht] at h
    exact ⟨file, source, tokens, ht, eq_ok_of_toOption h⟩

/-! ## Names in a text -/

/-- A name starts as words do. -/
def IsName (name : String) : Prop := ∃ c rest, name.toList = c :: rest ∧ Lexeme.startsWord c

theorem IsName.head?_ne_dot {name : String} (h : IsName name) : name.toList.head? ≠ some '.' := by
  obtain ⟨c, rest, hname, hc⟩ := h
  rw [hname, List.head?_cons]
  rintro ⟨⟩
  exact absurd hc (by decide)

/-- A token that is an identifier holds a name. -/
def TokenKind.Named (k : TokenKind) : Prop := ∀ name, k = .identifier name → IsName name

theorem TokenKind.eq_of_ofWord_identifier {word name : String}
    (h : TokenKind.ofWord word = .identifier name) : name = word := by
  have htext := Lexeme.ofWord_text word
  rw [h] at htext
  exact htext

theorem Lexeme.named_of_front {cs : List Char} {kind : TokenKind} {rest : List Char}
    (h : Lexeme.front cs = .token kind rest) : kind.Named := by
  rintro name rfl
  unfold Lexeme.front at h
  split at h
  · cases h
  · rename_i c tail
    split at h
    · rename_i hw
      injection h with hkind
      obtain rfl := TokenKind.eq_of_ofWord_identifier hkind
      refine ⟨c, tail.takeWhile Lexeme.continuesWord, ?_, hw⟩
      rw [String.toList_ofList,
        List.takeWhile_cons_of_pos (Lexeme.continuesWord_of_startsWord hw)]
    · split at h
      · cases h
      · split at h
        · simp only at h
          split at h <;> cases h
        · split at h
          · rename_i hs
            cases h
            have hmem := Lexeme.mem_symbols_of_symbol? hs
            simp [TokenKind.symbols] at hmem
          · cases h

theorem Cursor.named_of_tokens {c : Cursor} {ts : List Token} (h : c.tokens = .ok ts) :
    ∀ t ∈ ts, t.kind.Named := by
  fun_induction Cursor.tokens c generalizing ts with
  | case1 => cases h
  | case2 c t c' hnext hend =>
    cases h
    intro u hu
    rw [List.mem_singleton.1 hu, hend]
    rintro _ ⟨⟩
  | case3 => cases h
  | case4 c t c' hnext hend us hus ih =>
    cases h
    refine List.forall_mem_cons.2 ⟨?_, ih hus⟩
    unfold Cursor.next Cursor.readHere at hnext
    split at hnext
    · rename_i hf
      cases hnext
      exact Lexeme.named_of_front hf
    · cases hnext
    · cases hnext
    · cases hnext
      exact absurd rfl hend

/-! ## What rules ensure -/

/-- All identifiers in a queue hold names. -/
def Queue.Named (q : Queue) : Prop := ∀ t ∈ q.tokens, t.kind.Named

theorem Queue.Named.tail {q : Queue} (h : q.Named) : q.tail.Named :=
  fun t ht => h t (List.mem_of_mem_tail ht)

theorem Queue.Named.head {q : Queue} (h : q.Named) {name : String}
    (hq : q.head? = some (.identifier name)) : IsName name := by
  unfold Queue.head? at hq
  obtain ⟨t, ht, hk⟩ := Option.map_eq_some_iff.1 hq
  exact h t (List.mem_of_mem_head? ht) name hk

namespace Rule

variable {α β : Type}

/-- What a rule gives has a property, and the identifiers that it leaves hold names. -/
def Ensures (r : Rule α) (P : α → Prop) : Prop :=
  ∀ q a rest, q.Named → r q = .ok a rest → P a ∧ rest.Named

variable {P : α → Prop} {Q : β → Prop}

theorem Ensures.bind {r : Rule α} {f : α → Rule β} (hr : r.Ensures P)
    (hf : ∀ a, P a → (f a).Ensures Q) : (r >>= f).Ensures Q := by
  intro q b rest hq h
  change Rule.bind r f q = _ at h
  unfold Rule.bind at h
  split at h
  · rename_i a rest' hra
    obtain ⟨ha, hrest'⟩ := hr q a rest' hq hra
    exact hf a ha rest' b rest hrest' h
  · cases h

theorem Ensures.pure {a : α} (h : P a) : (Pure.pure a : Rule α).Ensures P := by
  rintro q b rest hq ⟨⟩
  exact ⟨h, hq⟩

theorem Ensures.mono {r : Rule α} {P' : α → Prop} (hr : r.Ensures P) (h : ∀ a, P a → P' a) :
    r.Ensures P' := by
  intro q a rest hq hra
  obtain ⟨ha, hrest⟩ := hr q a rest hq hra
  exact ⟨h a ha, hrest⟩

theorem ensures_fail (expected : Expected) : (fail expected : Rule α).Ensures P := by
  rintro q a rest hq ⟨⟩

theorem ensures_exhausted : (exhausted : Rule α).Ensures P := by
  rintro q a rest hq ⟨⟩

theorem ensures_location : location.Ensures fun _ => True := by
  rintro q a rest hq ⟨⟩
  exact ⟨trivial, hq⟩

theorem ensures_peek : peek.Ensures fun k => ∀ name, k = some (.identifier name) → IsName name := by
  rintro q a rest hq ⟨⟩
  exact ⟨fun name hk => hq.head hk, hq⟩

theorem ensures_peekSecond : peekSecond.Ensures fun _ => True := by
  rintro q a rest hq ⟨⟩
  exact ⟨trivial, hq⟩

theorem ensures_skip : skip.Ensures fun _ => True := by
  rintro q a rest hq ⟨⟩
  exact ⟨trivial, hq.tail⟩

theorem ensures_accept (kind : TokenKind) : (accept kind).Ensures fun _ => True := by
  intro q a rest hq h
  unfold accept at h
  split at h <;> cases h
  · exact ⟨trivial, hq.tail⟩
  · exact ⟨trivial, hq⟩

theorem ensures_expect (kind : TokenKind) (construct : Construct) :
    (expect kind construct).Ensures fun _ => True := by
  intro q a rest hq h
  unfold expect at h
  split at h <;> cases h
  exact ⟨trivial, hq.tail⟩

end Rule

/-! ## Expressions -/

/-- Whether an expression declares a variable. -/
def Expr.isBind : Expr → Bool
  | .bind .. => true
  | _ => false

/-- A written type stands for the type of its name. -/
def TypeRef.AsRead (t : TypeRef) : Prop := t.ty = Ty.ofName t.name

/-- A node is as a text can write it: only a block declares variables, and with types that their
names stand for. -/
def Expr.AsRead : Expr → Prop
  | .block .. => True
  | .bind _ _ type value => type.AsRead ∧ value.isBind = false
  | e => ∀ c ∈ e.children, c.isBind = false

/-- What can stand in a block. -/
def Expr.StatementRead (e : Expr) : Prop := e.Everywhere Expr.AsRead

/-- What can stand anywhere. -/
structure Expr.ValueRead (e : Expr) : Prop where
  notBind : e.isBind = false
  everywhere : e.Everywhere Expr.AsRead

/-- What stands in an expression other than a block declares nothing. -/
theorem Expr.StatementRead.child {e : Expr} (h : e.StatementRead)
    (hblock : ∀ n body result, e ≠ .block n body result) : ∀ d ∈ e.children, d.ValueRead := by
  intro d hd
  obtain ⟨he, hcs⟩ := Expr.everywhere_iff.1 h
  refine ⟨?_, hcs d hd⟩
  cases e with
  | block n body result => exact absurd rfl (hblock n body result)
  | bind n i type value =>
    rw [List.mem_singleton.1 hd]
    exact he.2
  | _ => exact he d hd

namespace Grammar

open Rule

theorem ensures_ident (construct : Construct) : (ident construct).Ensures fun i => IsName i.name := by
  unfold ident
  refine ensures_location.bind fun here _ => ensures_peek.bind fun k hk => ?_
  split
  · exact ensures_skip.bind fun _ _ => .pure (hk _ rfl)
  · exact ensures_fail _

theorem ensures_typeRef (construct : Construct) : (typeRef construct).Ensures TypeRef.AsRead := by
  unfold typeRef
  refine ensures_location.bind fun here _ => ensures_peek.bind fun k _ => ?_
  split
  · exact ensures_skip.bind fun _ _ => .pure rfl
  · exact ensures_skip.bind fun _ _ => .pure rfl
  · exact ensures_fail _

/-- What the rules for expressions ensure with some budget. -/
structure Ensured (n : Nat) : Prop where
  block : (block n).Ensures Expr.ValueRead
  statements : (statements n).Ensures fun r => ∀ e ∈ r.1 ++ r.2.toList, e.StatementRead
  expression : (expression n).Ensures Expr.StatementRead
  value : (value n).Ensures Expr.ValueRead
  unary : (unary n).Ensures Expr.ValueRead
  primary : (primary n).Ensures Expr.ValueRead
  arguments : (arguments n).Ensures fun es => ∀ e ∈ es, e.ValueRead
  argumentList : (argumentList n).Ensures fun es => ∀ e ∈ es, e.ValueRead

/-- A node whose children can stand anywhere can itself. -/
theorem valueRead_of_children {e : Expr} (hbind : e.isBind = false)
    (h : ∀ c ∈ e.children, c.ValueRead) : e.ValueRead := by
  refine ⟨hbind, Expr.everywhere_iff.2 ⟨?_, fun c hc => (h c hc).everywhere⟩⟩
  cases e with
  | block => exact trivial
  | bind => cases hbind
  | _ => exact fun c hc => (h c hc).notBind

section
variable {n : Nat} (ih : Ensured n)
include ih

theorem ensures_block : (block (n + 1)).Ensures Expr.ValueRead := by
  rw [block]
  refine ensures_location.bind fun here _ => (ensures_expect _ _).bind fun _ _ =>
    ih.statements.bind fun r hr => .pure ?_
  exact ⟨rfl, Expr.everywhere_iff.2 ⟨trivial, hr⟩⟩

theorem ensures_statements :
    (statements (n + 1)).Ensures fun r => ∀ e ∈ r.1 ++ r.2.toList, e.StatementRead := by
  rw [statements]
  refine (ensures_accept _).bind fun closed _ => ?_
  split
  · exact .pure (by simp)
  · refine ih.expression.bind fun first hfirst => (ensures_accept _).bind fun more _ => ?_
    split
    · refine ih.statements.bind fun r hr => .pure ?_
      exact List.forall_mem_cons.2 ⟨hfirst, hr⟩
    · exact (ensures_expect _ _).bind fun _ _ => .pure (by simpa using hfirst)

theorem ensures_expression : (expression (n + 1)).Ensures Expr.StatementRead := by
  have hvalue := ih.value.mono fun _ he => Expr.ValueRead.everywhere he
  rw [expression]
  refine ensures_location.bind fun here _ => ensures_peek.bind fun k _ => ?_
  split
  · refine ensures_skip.bind fun _ _ => ih.value.bind fun v hv => .pure ?_
    exact (valueRead_of_children rfl (by simpa [Expr.children] using hv)).everywhere
  · refine ensures_skip.bind fun _ _ => (ensures_ident _).bind fun name _ =>
      (ensures_expect _ _).bind fun _ _ => (ensures_typeRef _).bind fun type ht =>
      (ensures_expect _ _).bind fun _ _ => ih.value.bind fun v hv => .pure ?_
    exact Expr.everywhere_iff.2 ⟨⟨ht, hv.notBind⟩, by simpa [Expr.children] using hv.everywhere⟩
  · refine ensures_skip.bind fun _ _ => ih.value.bind fun c hc => ih.block.bind fun b hb => .pure ?_
    exact (valueRead_of_children rfl (by simpa [Expr.children] using ⟨hc, hb⟩)).everywhere
  · refine ensures_skip.bind fun _ _ => .pure ?_
    exact (valueRead_of_children rfl (by simp [Expr.children])).everywhere
  · refine ensures_peekSecond.bind fun k' _ => ?_
    split
    · refine ensures_skip.bind fun _ _ => ensures_skip.bind fun _ _ =>
        ih.value.bind fun v hv => .pure ?_
      exact (valueRead_of_children rfl (by simpa [Expr.children] using hv)).everywhere
    · exact hvalue
  · exact hvalue

theorem ensures_value : (value (n + 1)).Ensures Expr.ValueRead := by
  rw [value]
  refine ih.unary.bind fun left hleft => ensures_peek.bind fun k _ => ?_
  split
  · refine ensures_skip.bind fun _ _ => ih.value.bind fun right hright => .pure ?_
    exact valueRead_of_children rfl (by simpa [Expr.children] using ⟨hleft, hright⟩)
  · exact .pure hleft

theorem ensures_unary : (unary (n + 1)).Ensures Expr.ValueRead := by
  rw [unary]
  refine ensures_location.bind fun here _ => ensures_peek.bind fun k _ => ?_
  split
  · refine ensures_skip.bind fun _ _ => ih.unary.bind fun operand hoperand => .pure ?_
    exact valueRead_of_children rfl (by simpa [Expr.children] using hoperand)
  · exact ih.primary

theorem ensures_primary : (primary (n + 1)).Ensures Expr.ValueRead := by
  rw [primary]
  refine ensures_location.bind fun here _ => ensures_peek.bind fun k _ => ?_
  split
  · exact ensures_skip.bind fun _ _ => .pure (valueRead_of_children rfl (by simp [Expr.children]))
  · refine ensures_skip.bind fun _ _ => ensures_peek.bind fun k' _ => ?_
    split
    · refine ih.arguments.bind fun args hargs => .pure ?_
      exact valueRead_of_children rfl hargs
    · exact .pure (valueRead_of_children rfl (by simp [Expr.children]))
  · refine ensures_skip.bind fun _ _ => ih.value.bind fun inner hinner =>
      (ensures_expect _ _).bind fun _ _ => .pure ?_
    exact valueRead_of_children rfl (by simpa [Expr.children] using hinner)
  · exact ih.block
  · refine ensures_skip.bind fun _ _ => ih.value.bind fun c hc => ih.value.bind fun t ht =>
      (ensures_accept _).bind fun more _ => ?_
    split
    · refine ih.value.bind fun e he => .pure ?_
      exact valueRead_of_children rfl (by simpa [Expr.children] using ⟨hc, ht, he⟩)
    · exact .pure (valueRead_of_children rfl (by simpa [Expr.children] using ⟨hc, ht⟩))
  · exact ensures_fail _

theorem ensures_arguments : (arguments (n + 1)).Ensures fun es => ∀ e ∈ es, e.ValueRead := by
  rw [arguments]
  refine (ensures_expect _ _).bind fun _ _ => ensures_peek.bind fun k _ => ?_
  split
  · exact ensures_skip.bind fun _ _ => .pure (by simp)
  · exact ih.argumentList.bind fun es hes => (ensures_expect _ _).bind fun _ _ => .pure hes

theorem ensures_argumentList : (argumentList (n + 1)).Ensures fun es => ∀ e ∈ es, e.ValueRead := by
  rw [argumentList]
  refine ih.value.bind fun first hfirst => (ensures_accept _).bind fun more _ => ?_
  split
  · refine ih.argumentList.bind fun es hes => .pure ?_
    exact List.forall_mem_cons.2 ⟨hfirst, hes⟩
  · exact .pure (by simpa using hfirst)

end

theorem ensured (n : Nat) : Ensured n := by
  induction n with
  | zero => constructor <;> exact ensures_exhausted
  | succ n ih =>
    exact ⟨ensures_block ih, ensures_statements ih, ensures_expression ih, ensures_value ih,
      ensures_unary ih, ensures_primary ih, ensures_arguments ih, ensures_argumentList ih⟩

end Grammar

/-! ## Programs -/

/-- A function is as a text can write it. -/
structure Function.AsRead (f : Function) : Prop where
  name : IsName f.ident.name
  returns : f.returns.AsRead
  params : ∀ p ∈ f.params, p.type.AsRead
  body : f.body.ValueRead

/-- An external function is as a text can write it. -/
structure External.AsRead (e : External) : Prop where
  returns : e.returns.AsRead
  params : ∀ p ∈ e.params, p.type.AsRead

/-- A program is as a text can write it. -/
structure Program.AsRead (p : Program) : Prop where
  functions : ∀ f ∈ p.functions, f.AsRead
  externals : ∀ e ∈ p.externals, e.AsRead

namespace Grammar

open Rule

theorem ensures_paramList (allowVariadic : Bool) (n : Nat) :
    (paramList allowVariadic n).Ensures fun r => ∀ p ∈ r.1, p.type.AsRead := by
  induction n with
  | zero => exact ensures_exhausted
  | succ n ih =>
    rw [paramList]
    refine ensures_peek.bind fun k _ => ?_
    split
    · exact ensures_skip.bind fun _ _ => .pure (by simp)
    · refine (ensures_typeRef _).bind fun type ht => (ensures_ident _).bind fun name _ =>
        (ensures_accept _).bind fun more _ => ?_
      split
      · refine ih.bind fun r hr => .pure ?_
        exact List.forall_mem_cons.2 ⟨ht, hr⟩
      · exact .pure (by simpa using ht)

theorem ensures_params (allowVariadic : Bool) (n : Nat) :
    (params allowVariadic n).Ensures fun r => ∀ p ∈ r.1, p.type.AsRead := by
  unfold params
  refine (ensures_expect _ _).bind fun _ _ => ensures_peek.bind fun k _ => ?_
  split
  · exact ensures_skip.bind fun _ _ => .pure (by simp)
  · exact (ensures_paramList allowVariadic n).bind fun r hr =>
      (ensures_expect _ _).bind fun _ _ => .pure hr

theorem ensures_function (n : Nat) : (function n).Ensures Function.AsRead := by
  unfold function
  exact ensures_location.bind fun here _ => (ensures_typeRef _).bind fun returns hreturns =>
    (ensures_ident _).bind fun name hname => (ensures_params _ n).bind fun r hr =>
    (ensured n).block.bind fun body hbody => .pure ⟨hname, hreturns, hr, hbody⟩

theorem ensures_external (n : Nat) : (external n).Ensures External.AsRead := by
  unfold external
  exact ensures_location.bind fun here _ => (ensures_expect _ _).bind fun _ _ =>
    (ensures_typeRef _).bind fun returns hreturns => (ensures_ident _).bind fun name _ =>
    (ensures_params _ n).bind fun r hr => (ensures_accept _).bind fun _ _ => .pure ⟨hreturns, hr⟩

/-- Declarations are as a text can write them. -/
def DeclarationsRead (r : List Function × List External) : Prop :=
  (∀ f ∈ r.1, f.AsRead) ∧ ∀ e ∈ r.2, e.AsRead

theorem ensures_declarations (n : Nat) : (declarations n).Ensures DeclarationsRead := by
  induction n with
  | zero => exact ensures_exhausted
  | succ n ih =>
    intro q r rest hq h
    rw [declarations] at h
    dsimp only at h
    split at h
    · cases h
      exact ⟨by simp [DeclarationsRead], hq⟩
    · split at h
      · refine Ensures.bind (ensures_external n) (fun e he => ih.bind fun r hr => .pure ?_)
          q r rest hq h
        exact ⟨hr.1, List.forall_mem_cons.2 ⟨he, hr.2⟩⟩
      · refine Ensures.bind (ensures_function n) (fun f hf => ih.bind fun r hr => .pure ?_)
          q r rest hq h
        exact ⟨List.forall_mem_cons.2 ⟨hf, hr.1⟩, hr.2⟩

theorem ensures_program : program.Ensures Program.AsRead := by
  unfold program
  refine Ensures.bind (P := DeclarationsRead) ?_ fun r hr => .pure ⟨hr.1, hr.2⟩
  intro q
  exact ensures_declarations (budget q) q

end Grammar

/-- Every program that a text stands for is as a text can write it. -/
theorem Program.Written.asRead {p : Program} (h : p.Written) : p.AsRead := by
  obtain ⟨file, source, tokens, htokens, hp⟩ := h
  unfold parse at hp
  cases hr : Grammar.program (.ofTokens tokens) with
  | error e rest => rw [hr] at hp; cases hp
  | ok p' rest =>
    rw [hr] at hp
    cases hp
    have hnamed : (Queue.ofTokens tokens).Named := Cursor.named_of_tokens htokens
    exact (Grammar.ensures_program _ _ _ hnamed hr).1

end Ilang
