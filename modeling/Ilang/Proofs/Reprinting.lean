import Ilang.Proofs.Prediction
/-!
# Reading what was printed

Where the tokens stand is written into the outcome of a rule and is not asked for otherwise: the same
kinds of tokens give the same outcome but for its locations (`Rule.Relocates`). Since rules decide by
the tokens that they take and the next one, they read the print of a result in any place where
nothing makes them go on. So a program that is printed and read again is the same program, and so is
a value (`parse_reprinted`).
-/
namespace Ilang

/-! ## Programs without locations -/

/-- A name without its location. -/
def Ident.unlocated (i : Ident) : Ident := { i with location := .unknown }

/-- A written type without its location. -/
def TypeRef.unlocated (t : TypeRef) : TypeRef := { t with location := .unknown }

/-- A node without its location. -/
def Node.unlocated (n : Node) : Node := { n with location := .unknown }

mutual

/-- An expression without locations. -/
def Expr.unlocated : Expr → Expr
  | .literal n text constant => .literal n.unlocated text constant
  | .var n ident => .var n.unlocated ident.unlocated
  | .call n callee arguments => .call n.unlocated callee.unlocated (unlocatedAll arguments)
  | .block n body result => .block n.unlocated (unlocatedAll body) (unlocatedOpt result)
  | .bind n ident type value => .bind n.unlocated ident.unlocated type.unlocated value.unlocated
  | .assign n target value => .assign n.unlocated target.unlocated value.unlocated
  | .binary n op left right => .binary n.unlocated op left.unlocated right.unlocated
  | .unary n op operand => .unary n.unlocated op operand.unlocated
  | .group n inner => .group n.unlocated inner.unlocated
  | .branch n condition onTrue onFalse =>
    .branch n.unlocated condition.unlocated onTrue.unlocated (unlocatedOpt onFalse)
  | .ret n value => .ret n.unlocated value.unlocated
  | .loop n condition body => .loop n.unlocated condition.unlocated body.unlocated
  | .brk n => .brk n.unlocated

/-- Each of some expressions without locations. -/
def unlocatedAll : List Expr → List Expr
  | [] => []
  | e :: es => e.unlocated :: unlocatedAll es

/-- An expression that may be missing, without locations. -/
def unlocatedOpt : Option Expr → Option Expr
  | none => none
  | some e => some e.unlocated

end

/-- A parameter without locations. -/
def Param.unlocated (p : Param) : Param := ⟨p.ident.unlocated, p.type.unlocated⟩

/-- A function without locations. -/
def Function.unlocated (f : Function) : Function :=
  ⟨f.ident.unlocated, f.returns.unlocated, f.params.map Param.unlocated, f.body.unlocated, .unknown⟩

/-- An external function without locations. -/
def External.unlocated (e : External) : External :=
  ⟨e.ident.unlocated, e.returns.unlocated, e.params.map Param.unlocated, e.variadic, .unknown⟩

/-- A program without locations. -/
def Program.unlocated (p : Program) : Program where
  functions := p.functions.map Function.unlocated
  externals := p.externals.map External.unlocated
  table := p.table

/-- An error without its location. -/
def ParseError.unlocated : ParseError → ParseError
  | unexpectedToken expected found => unexpectedToken expected { found with location := .unknown }
  | unexpectedEnd expected _ => unexpectedEnd expected .unknown
  | outOfBudget _ => outOfBudget .unknown

/-! ## Laws -/

/-- The kinds of the tokens in a queue. -/
def Queue.kinds (q : Queue) : List TokenKind := q.tokens.map Token.kind

theorem Queue.head?_eq_of_kinds {q q' : Queue} (h : q.kinds = q'.kinds) : q.head? = q'.head? := by
  rw [Queue.head?, Queue.head?, ← List.head?_map, ← List.head?_map]
  exact congrArg List.head? h

theorem Queue.kinds_tail {q q' : Queue} (h : q.kinds = q'.kinds) : q.tail.kinds = q'.tail.kinds := by
  simpa [kinds, tail] using congrArg List.tail h

theorem Queue.unlocated_unexpected {q q' : Queue} (h : q.kinds = q'.kinds) (expected : Expected) :
    (q'.unexpected expected).unlocated = (q.unexpected expected).unlocated := by
  obtain ⟨ts, finish⟩ := q
  obtain ⟨ts', finish'⟩ := q'
  cases ts with
  | nil =>
    obtain rfl := List.map_eq_nil_iff.1 h.symm
    rfl
  | cons t ts =>
    obtain ⟨t', ts', rfl, hkind, -⟩ := List.map_eq_cons_iff.1 h.symm
    unfold unexpected
    dsimp only
    rw [hkind]
    split
    · rfl
    · simp [ParseError.unlocated, hkind]

theorem Queue.eq_of_prepend {q q' : Queue} {ts us : List Token}
    (h : q.prepend ts = q'.prepend us) (hlength : q.tokens.length = q'.tokens.length) : q = q' := by
  obtain ⟨htokens, hfinish⟩ := Queue.mk.inj h
  obtain ⟨-, htokens⟩ := List.append_inj' htokens hlength
  exact congrArg₂ Queue.mk htokens hfinish

namespace Rule

variable {α β γ δ : Type}

/-- Two outcomes are results that are the same to `u`, with tokens of the same kinds left, or errors
that are the same but for where they are. -/
inductive SameTo (u : α → γ) : Outcome α → Outcome α → Prop
  | ok {a a' : α} {rest rest' : Queue} (h : u a' = u a) (hrest : rest'.kinds = rest.kinds) :
    SameTo u (.ok a rest) (.ok a' rest')
  | error {e e' : ParseError} {rest rest' : Queue} (h : e'.unlocated = e.unlocated) :
    SameTo u (.error e rest) (.error e' rest')

/-- On tokens of the same kinds, two rules give what is the same to `u`. -/
def Relocates (u : α → γ) (r s : Rule α) : Prop :=
  ∀ q q', q.kinds = q'.kinds → SameTo u (r q) (s q')

variable {u : α → γ} {v : β → δ} {r s : Rule α} {f g : α → Rule β}

theorem Relocates.ok (h : Relocates u r s) {q q' rest : Queue} (hq : q.kinds = q'.kinds) {a : α}
    (hok : r q = .ok a rest) :
    ∃ a' rest', s q' = .ok a' rest' ∧ u a' = u a ∧ rest'.kinds = rest.kinds := by
  have hsame := h q q' hq
  rw [hok] at hsame
  generalize s q' = outcome at hsame
  cases hsame with
  | ok ha hrest => exact ⟨_, _, rfl, ha, hrest⟩

theorem Relocates.bind (hr : Relocates u r s)
    (hf : ∀ a a', u a' = u a → Relocates v (f a) (g a')) : Relocates v (r >>= f) (s >>= g) := by
  intro q q' hq
  have hsame := hr q q' hq
  change SameTo v (Rule.bind r f q) (Rule.bind s g q')
  unfold Rule.bind
  generalize r q = first at hsame
  generalize s q' = first' at hsame
  cases hsame with
  | ok ha hrest => exact hf _ _ ha _ _ hrest.symm
  | error he => exact .error he

theorem Relocates.pure {a a' : α} (h : u a' = u a) :
    Relocates u (Pure.pure a : Rule α) (Pure.pure a') :=
  fun _ _ hq => .ok h hq.symm

theorem relocates_fail {expected : Expected} : Relocates u (fail expected) (fail expected) :=
  fun _ _ hq => .error (Queue.unlocated_unexpected hq expected)

theorem relocates_exhausted : Relocates u exhausted exhausted := fun _ _ _ => .error rfl

theorem Relocates.location {f g : Location → Rule β} (h : ∀ l l', Relocates v (f l) (g l')) :
    Relocates v (location >>= f) (location >>= g) :=
  fun q q' hq => h q.location q'.location q q' hq

theorem Relocates.peek {f g : Option TokenKind → Rule β} (h : ∀ k, Relocates v (f k) (g k)) :
    Relocates v (peek >>= f) (peek >>= g) := by
  intro q q' hq
  rw [peek_bind, peek_bind, ← Queue.head?_eq_of_kinds hq]
  exact h q.head? q q' hq

theorem Relocates.peekSecond {f g : Option TokenKind → Rule β} (h : ∀ k, Relocates v (f k) (g k)) :
    Relocates v (peekSecond >>= f) (peekSecond >>= g) := by
  intro q q' hq
  change SameTo v (f q.tail.head? q) (g q'.tail.head? q')
  rw [← Queue.head?_eq_of_kinds (Queue.kinds_tail hq)]
  exact h q.tail.head? q q' hq

theorem Relocates.skip {f g : Unit → Rule β} (h : Relocates v (f ()) (g ())) :
    Relocates v (skip >>= f) (skip >>= g) :=
  fun q q' hq => h q.tail q'.tail (Queue.kinds_tail hq)

theorem relocates_expect (kind : TokenKind) (construct : Construct) :
    Relocates id (expect kind construct) (expect kind construct) := by
  rw [expect_eq]
  refine .peek fun k => ?_
  split
  · exact .skip (f := Pure.pure) (g := Pure.pure) (.pure rfl)
  · exact relocates_fail

theorem Relocates.accept {kind : TokenKind} {f g : Bool → Rule β}
    (h : ∀ taken, Relocates v (f taken) (g taken)) :
    Relocates v (accept kind >>= f) (accept kind >>= g) := by
  rw [accept_bind, accept_bind]
  refine .peek fun k => ?_
  split
  · exact .skip (h true)
  · exact h false

end Rule

namespace Grammar

open Rule

theorem relocates_ident (construct : Construct) :
    Relocates Ident.unlocated (ident construct) (ident construct) := by
  unfold ident
  refine .location fun l l' => .peek fun k => ?_
  split
  · exact .skip (.pure rfl)
  · exact relocates_fail

theorem relocates_typeRef (construct : Construct) :
    Relocates TypeRef.unlocated (typeRef construct) (typeRef construct) := by
  unfold typeRef
  refine .location fun l l' => .peek fun k => ?_
  split
  · exact .skip (.pure rfl)
  · exact .skip (.pure rfl)
  · exact relocates_fail

/-- The inside of a block without locations. -/
def unlocatedBody (r : List Expr × Option Expr) : List Expr × Option Expr :=
  (unlocatedAll r.1, unlocatedOpt r.2)

/-- The rules for expressions do not ask where tokens stand. -/
structure RelocatesAll (n : Nat) : Prop where
  block : Relocates Expr.unlocated (block n) (block n)
  statements : Relocates unlocatedBody (statements n) (statements n)
  expression : Relocates Expr.unlocated (expression n) (expression n)
  value : Relocates Expr.unlocated (value n) (value n)
  unary : Relocates Expr.unlocated (unary n) (unary n)
  primary : Relocates Expr.unlocated (primary n) (primary n)
  arguments : Relocates unlocatedAll (arguments n) (arguments n)
  argumentList : Relocates unlocatedAll (argumentList n) (argumentList n)

section
variable {n : Nat} (ih : RelocatesAll n)
include ih

theorem relocates_block : Relocates Expr.unlocated (block (n + 1)) (block (n + 1)) := by
  rw [block]
  refine .location fun l l' => (relocates_expect _ _).bind fun _ _ _ => ?_
  refine ih.statements.bind ?_
  rintro ⟨body, result⟩ ⟨body', result'⟩ h
  obtain ⟨hbody, hresult⟩ := Prod.mk.inj h
  refine .pure ?_
  simp only [Expr.unlocated, hbody, hresult]
  rfl

theorem relocates_statements :
    Relocates unlocatedBody (statements (n + 1)) (statements (n + 1)) := by
  rw [statements]
  refine .accept fun closed => ?_
  split
  · exact .pure rfl
  · refine ih.expression.bind fun first first' hfirst => .accept fun more => ?_
    split
    · refine ih.statements.bind ?_
      rintro ⟨body, result⟩ ⟨body', result'⟩ h
      obtain ⟨hbody, hresult⟩ := Prod.mk.inj h
      refine .pure ?_
      simp only [unlocatedBody, unlocatedAll, hfirst, hbody, hresult]
    · refine (relocates_expect _ _).bind fun _ _ _ => .pure ?_
      simp only [unlocatedBody, unlocatedAll, unlocatedOpt, hfirst]

theorem relocates_expression :
    Relocates Expr.unlocated (expression (n + 1)) (expression (n + 1)) := by
  rw [expression]
  refine .location fun l l' => .peek fun k => ?_
  split
  · refine .skip (ih.value.bind fun v v' hv => .pure ?_)
    simp only [Expr.unlocated, hv]
    rfl
  · refine .skip ((relocates_ident _).bind fun i i' hi => (relocates_expect _ _).bind fun _ _ _ =>
      (relocates_typeRef _).bind fun t t' ht => (relocates_expect _ _).bind fun _ _ _ =>
      ih.value.bind fun v v' hv => .pure ?_)
    simp only [Expr.unlocated, hi, ht, hv]
    rfl
  · refine .skip (ih.value.bind fun c c' hc => ih.block.bind fun b b' hb => .pure ?_)
    simp only [Expr.unlocated, hc, hb]
    rfl
  · exact .skip (.pure rfl)
  · refine .peekSecond fun k => ?_
    split
    · refine .skip (.skip (ih.value.bind fun v v' hv => .pure ?_))
      simp only [Expr.unlocated, hv]
      rfl
    · exact ih.value
  · exact ih.value

theorem relocates_value : Relocates Expr.unlocated (value (n + 1)) (value (n + 1)) := by
  rw [value]
  refine ih.unary.bind fun left left' hleft => .peek fun k => ?_
  split
  · refine .skip (ih.value.bind fun right right' hright => .pure ?_)
    simp only [Expr.unlocated, hleft, hright]
    rfl
  · exact .pure hleft

theorem relocates_unary : Relocates Expr.unlocated (unary (n + 1)) (unary (n + 1)) := by
  rw [unary]
  refine .location fun l l' => .peek fun k => ?_
  split
  · refine .skip (ih.unary.bind fun operand operand' h => .pure ?_)
    simp only [Expr.unlocated, h]
    rfl
  · exact ih.primary

theorem relocates_primary : Relocates Expr.unlocated (primary (n + 1)) (primary (n + 1)) := by
  rw [primary]
  refine .location fun l l' => .peek fun k => ?_
  split
  · exact .skip (.pure rfl)
  · refine .skip (.peek fun k => ?_)
    split
    · refine ih.arguments.bind fun es es' hes => .pure ?_
      simp only [Expr.unlocated, hes]
      rfl
    · exact .pure rfl
  · refine .skip (ih.value.bind fun inner inner' h => (relocates_expect _ _).bind fun _ _ _ =>
      .pure ?_)
    simp only [Expr.unlocated, h]
    rfl
  · exact ih.block
  · refine .skip (ih.value.bind fun c c' hc => ih.value.bind fun t t' ht => .accept fun taken => ?_)
    split
    · refine ih.value.bind fun e e' he => .pure ?_
      simp only [Expr.unlocated, unlocatedOpt, hc, ht, he]
      rfl
    · refine .pure ?_
      simp only [Expr.unlocated, hc, ht]
      rfl
  · exact relocates_fail

theorem relocates_arguments : Relocates unlocatedAll (arguments (n + 1)) (arguments (n + 1)) := by
  rw [arguments]
  refine (relocates_expect _ _).bind fun _ _ _ => .peek fun k => ?_
  split
  · exact .skip (.pure rfl)
  · exact ih.argumentList.bind fun es es' hes => (relocates_expect _ _).bind fun _ _ _ => .pure hes

theorem relocates_argumentList :
    Relocates unlocatedAll (argumentList (n + 1)) (argumentList (n + 1)) := by
  rw [argumentList]
  refine ih.value.bind fun first first' hfirst => .accept fun more => ?_
  split
  · refine ih.argumentList.bind fun es es' hes => .pure ?_
    simp only [unlocatedAll, hfirst, hes]
  · refine .pure ?_
    simp only [unlocatedAll, hfirst]

end

theorem relocatesAll (n : Nat) : RelocatesAll n := by
  induction n with
  | zero => constructor <;> exact relocates_exhausted
  | succ n ih =>
    exact ⟨relocates_block ih, relocates_statements ih, relocates_expression ih, relocates_value ih,
      relocates_unary ih, relocates_primary ih, relocates_arguments ih, relocates_argumentList ih⟩

/-- Parameters without locations. -/
def unlocatedParams (r : List Param × Bool) : List Param × Bool := (r.1.map Param.unlocated, r.2)

theorem relocates_paramList (allowVariadic : Bool) (n : Nat) :
    Relocates unlocatedParams (paramList allowVariadic n) (paramList allowVariadic n) := by
  induction n with
  | zero => exact relocates_exhausted
  | succ n ih =>
    rw [paramList]
    refine .peek fun k => ?_
    split
    · exact .skip (.pure rfl)
    · refine (relocates_typeRef _).bind fun t t' ht => (relocates_ident _).bind fun i i' hi =>
        .accept fun more => ?_
      split
      · refine ih.bind ?_
        rintro ⟨ps, variadic⟩ ⟨ps', variadic'⟩ h
        obtain ⟨hps, rfl⟩ := Prod.mk.inj h
        refine .pure ?_
        simp only [unlocatedParams, List.map_cons, Param.unlocated, ht, hi, hps]
      · refine .pure ?_
        simp only [unlocatedParams, List.map_cons, List.map_nil, Param.unlocated, ht, hi]

theorem relocates_params (allowVariadic : Bool) (n : Nat) :
    Relocates unlocatedParams (params allowVariadic n) (params allowVariadic n) := by
  unfold params
  refine (relocates_expect _ _).bind fun _ _ _ => .peek fun k => ?_
  split
  · exact .skip (.pure rfl)
  · exact (relocates_paramList allowVariadic n).bind fun r r' hr =>
      (relocates_expect _ _).bind fun _ _ _ => .pure hr

theorem relocates_function (n : Nat) :
    Relocates Function.unlocated (function n) (function n) := by
  unfold function
  refine .location fun l l' => (relocates_typeRef _).bind fun t t' ht =>
    (relocates_ident _).bind fun i i' hi => (relocates_params false n).bind ?_
  rintro ⟨ps, variadic⟩ ⟨ps', variadic'⟩ h
  obtain ⟨hps, -⟩ := Prod.mk.inj h
  refine (relocatesAll n).block.bind fun b b' hb => .pure ?_
  simp only [Function.unlocated, ht, hi, hps, hb]

theorem relocates_heading (n : Nat) :
    Relocates External.unlocated (heading n) (heading n) := by
  unfold heading
  refine .location fun l l' => (relocates_expect _ _).bind fun _ _ _ =>
    (relocates_typeRef _).bind fun t t' ht => (relocates_ident _).bind fun i i' hi =>
    (relocates_params true n).bind ?_
  rintro ⟨ps, variadic⟩ ⟨ps', variadic'⟩ h
  obtain ⟨hps, rfl⟩ := Prod.mk.inj h
  refine .pure ?_
  simp only [External.unlocated, ht, hi, hps]

/-! ## Reading again -/

/-- The tokens that a rule took, standing elsewhere and before another queue, are taken again. -/
theorem again {α γ : Type} {taking taking' : Bool} {ahead ahead' : TokenKind → Bool} {u : α → γ}
    {r s s' : Rule α} (hr : Foresees taking ahead r s) (hs : Relocates u s s)
    (hfront : Foresees taking' ahead' s s') {taken us : List Token} {rest rest' : Queue} {a : α}
    (hok : r (rest.prepend taken) = .ok a rest) (hus : us.map Token.kind = taken.map Token.kind)
    (hfollows : rest.Follows ahead rest') :
    ∃ a', s (rest'.prepend us) = .ok a' rest' ∧ u a' = u a := by
  have hkinds : (rest'.prepend taken).kinds = (rest'.prepend us).kinds := by
    simp [Queue.kinds, hus]
  obtain ⟨a', left, hagain, ha, hleft⟩ := hs.ok hkinds (hr.ok hok rest' hfollows)
  -- What is left is a rest of the same queue, and it has as many tokens as `rest'`.
  obtain ⟨taken', htaken', -⟩ := hfront.front_ok hagain
  have hlength : rest'.tokens.length = left.tokens.length := by
    simpa [Queue.kinds] using (congrArg List.length hleft).symm
  obtain rfl := Queue.eq_of_prepend htaken' hlength
  exact ⟨a', hagain, ha⟩

theorem value_again {n : Nat} {q rest r : Queue} {e : Expr} {us : List Token} (hq : q.Reserved)
    (hrun : value n q = .ok e rest) (hus : us.map Token.kind = e.yield)
    (hr : r.Avoids lengthens) :
    ∃ e', withBudget value (r.prepend us) = .ok e' r ∧ e'.unlocated = e.unlocated := by
  obtain ⟨taken, rfl, he⟩ := (readsAll n).value _ _ q e rest hq rfl rfl hrun
  have hagain := again (foreseesAll (Nat.le_refl (n + 4))).value.toForesees
    (relocatesAll (n + 4)).value (foreseesAll (Nat.le_refl (n + 4 + 4))).value.toForesees hrun
    (hus.trans he.spelled.kinds.symm) (.inr hr)
  obtain ⟨e', he', heq⟩ := hagain
  have hbudget : ∀ d left, value (n + 4) (r.prepend us) = .error d left → d.isBudget = false := by
    intro d left herror
    rw [he'] at herror
    cases herror
  exact ⟨e', (value_eq_withBudget hbudget).symm.trans he', heq⟩

theorem function_again {n m : Nat} {q rest : Queue} {f : Function} {us : List Token}
    (hq : q.Reserved) (hrun : function n q = .ok f rest) (hm : n + 4 ≤ m)
    (hus : us.map Token.kind = (Decl.function f).yield) (r : Queue) :
    ∃ f', function m (r.prepend us) = .ok f' r ∧ f'.unlocated = f.unlocated := by
  obtain ⟨taken, rfl, hspelled, -⟩ := reads_function n _ _ q f rest hq rfl rfl hrun
  exact again (foresees_function hm) (relocates_function m)
    (foresees_function (Nat.le_refl (m + 4))) hrun (hus.trans hspelled.kinds.symm)
    (.inr fun _ _ => rfl)

theorem external_again {n m : Nat} {q rest : Queue} {e : External} {closed : Bool}
    {us : List Token} (hq : q.Reserved) (hrun : external n q = .ok e rest) (hm : n + 4 ≤ m)
    (hus : us.map Token.kind = (Decl.external e closed).yield) {r : Queue}
    (hr : r.head? ≠ some .semicolon) :
    ∃ e', external m (r.prepend us) = .ok e' r ∧ e'.unlocated = e.unlocated := by
  rw [external_eq] at hrun
  obtain ⟨e₀, mid, hheading, haccept⟩ := bind_eq_ok hrun
  obtain ⟨_, left, -, hpure⟩ := bind_eq_ok haccept
  obtain ⟨rfl, -⟩ := Outcome.ok.inj hpure
  obtain ⟨taken, rfl, hspelled⟩ := reads_heading n _ _ q e₀ mid hq rfl rfl hheading
  rw [Decl.yield, Decl.print, yieldOf, List.filterMap_append] at hus
  obtain ⟨front, last, rfl, hfront, hlast⟩ := List.map_eq_append_iff.1 hus
  have hfollows : mid.Follows nothing (r.prepend last) := .inr fun _ _ => rfl
  obtain ⟨e', he', heq⟩ := again (foresees_heading hm) (relocates_heading m)
    (foresees_heading (Nat.le_refl (m + 4))) hheading (hfront.trans hspelled.kinds.symm) hfollows
  refine ⟨e', ?_, heq⟩
  rw [external_eq, Queue.prepend_append, bind_of_ok he', accept_bind]
  cases closed with
  | true =>
    obtain ⟨t, rfl, ht⟩ := List.map_eq_singleton_iff.1 hlast
    exact congrFun (if_pos (congrArg some ht)) _
  | false =>
    obtain rfl := List.map_eq_nil_iff.1 hlast
    exact congrFun (if_neg hr) r

theorem yield_eq_cons (d : Decl) : ∃ k others, d.yield = k :: others ∧ k ≠ .endOfFile ∧
    k ≠ .semicolon ∧ (k = .kwExtrn ↔ d.function? = none) := by
  cases d with
  | function f =>
    refine ⟨f.returns.token, _, rfl, ?_, ?_, ?_⟩ <;>
      unfold TypeRef.token <;> split <;> simp [Decl.function?]
  | external e closed => exact ⟨.kwExtrn, _, rfl, nofun, nofun, iff_of_true rfl rfl⟩

/-- No semicolon stands before declarations. -/
theorem head?_ne_semicolon {ds : List Decl} {us : List Token} {r : Queue}
    (hus : us.map Token.kind = ds.flatMap Decl.yield) (hr : r.Avoids lengthensProgram) :
    (r.prepend us).head? ≠ some .semicolon := by
  cases us with
  | nil =>
    intro hk
    cases hr .semicolon hk
  | cons t us =>
    cases ds with
    | nil => cases hus
    | cons d ds =>
      obtain ⟨k, others, hyield, -, hk, -⟩ := yield_eq_cons d
      rw [List.flatMap_cons, hyield] at hus
      obtain ⟨rfl, -⟩ := List.cons.inj hus
      exact fun heq => hk (Option.some.inj heq)

/-- Before the end, the first token tells which kind of declaration comes. -/
theorem declarations_of_yield {d : Decl} {us : List Token} (hus : us.map Token.kind = d.yield)
    (m : Nat) (r : Queue) : declarations (m + 1) (r.prepend us) = (do
      if d.function? = none then
        let e ← external m
        let (functions, externals) ← declarations m
        return (functions, e :: externals)
      else
        let f ← function m
        let (functions, externals) ← declarations m
        return (f :: functions, externals) : Rule _) (r.prepend us) := by
  obtain ⟨k, others, hyield, hend, -, hextrn⟩ := yield_eq_cons d
  have hhead : (r.prepend us).head? = some k := by
    rw [hyield] at hus
    obtain ⟨t, us', rfl, rfl, -⟩ := List.map_eq_cons_iff.1 hus
    rfl
  rw [declarations_succ, peek_bind, hhead, if_neg (by simpa using hend)]
  simp only [Option.some.injEq, hextrn]

/-- A declaration that was read is read again before others. -/
theorem decl_again {d : Decl} (h : d.Read) : ∃ n, ∀ m, n ≤ m → ∀ us r fs es rest,
    us.map Token.kind = d.yield → r.head? ≠ some .semicolon →
      declarations m r = .ok (fs, es) rest →
      ∃ fs' es', declarations (m + 1) (r.prepend us) = .ok (fs', es') rest ∧
        fs'.map Function.unlocated = (d.function?.toList ++ fs).map Function.unlocated ∧
        es'.map External.unlocated = (d.external?.toList ++ es).map External.unlocated := by
  cases d with
  | function f =>
    obtain ⟨n, q, rest₀, hq, hrun⟩ := h
    refine ⟨n + 4, fun m hm us r fs es rest hus _ hothers => ?_⟩
    obtain ⟨f', hf', heq⟩ := function_again hq hrun hm hus r
    rw [declarations_of_yield hus, if_neg (by simp [Decl.function?]), bind_of_ok hf',
      bind_of_ok hothers]
    exact ⟨f' :: fs, es, rfl, by simp [Decl.function?, heq], rfl⟩
  | external e closed =>
    obtain ⟨n, q, rest₀, hq, hrun⟩ := h
    refine ⟨n + 4, fun m hm us r fs es rest hus hsemicolon hothers => ?_⟩
    obtain ⟨e', he', heq⟩ := external_again hq hrun hm hus hsemicolon
    rw [declarations_of_yield hus, if_pos (by simp [Decl.function?]), bind_of_ok he',
      bind_of_ok hothers]
    exact ⟨fs, e' :: es, rfl, rfl, by simp [Decl.external?, heq]⟩

/-- Declarations that were read are read again, up to the end of the text. -/
theorem declarations_again {ds : List Decl} (h : ∀ d ∈ ds, d.Read) :
    ∃ n, ∀ m, n ≤ m → ∀ us r, us.map Token.kind = ds.flatMap Decl.yield →
      r.Avoids lengthensProgram → ∃ fs es, declarations m (r.prepend us) = .ok (fs, es) r ∧
        fs.map Function.unlocated = (ds.filterMap Decl.function?).map Function.unlocated ∧
        es.map External.unlocated = (ds.filterMap Decl.external?).map External.unlocated := by
  induction ds with
  | nil =>
    refine ⟨1, fun m hm us r hus hr => ⟨[], [], ?_, rfl, rfl⟩⟩
    obtain ⟨m, rfl⟩ := Nat.exists_eq_add_of_le' hm
    obtain rfl := List.map_eq_nil_iff.1 hus
    rw [declarations]
    exact if_pos (atEnd_of_avoids hr)
  | cons d ds ih =>
    obtain ⟨hd, hds⟩ := List.forall_mem_cons.1 h
    obtain ⟨n₁, hfirst⟩ := decl_again hd
    obtain ⟨n₂, hothers⟩ := ih hds
    refine ⟨n₁ + n₂ + 1, fun m hm us r hus hr => ?_⟩
    obtain ⟨m, rfl⟩ : ∃ k, m = k + 1 := ⟨m - 1, by omega⟩
    rw [List.flatMap_cons] at hus
    obtain ⟨front, behind, rfl, hfront, hbehind⟩ := List.map_eq_append_iff.1 hus
    obtain ⟨fs, es, hrest, hfs, hes⟩ := hothers m (by omega) behind r hbehind hr
    have hsemicolon := head?_ne_semicolon hbehind hr
    obtain ⟨fs', es', hrun, hfs', hes'⟩ :=
      hfirst m (by omega) front _ fs es r hfront hsemicolon hrest
    refine ⟨fs', es', ?_, ?_, ?_⟩
    · rw [Queue.prepend_append]
      exact hrun
    · rw [hfs', List.map_append, hfs]
      cases hd : d.function? <;> simp [hd]
    · rw [hes', List.map_append, hes]
      cases hd : d.external? <;> simp [hd]

end Grammar

/-- The declarations of a program in the order in which it is printed: external functions, each with
a semicolon or each without one, and then the others. -/
def Program.decls (closed : Bool) (p : Program) : List Decl :=
  p.externals.map (.external · closed) ++ p.functions.map .function

theorem Program.filterMap_decls (closed : Bool) (p : Program) :
    (p.decls closed).filterMap Decl.function? = p.functions ∧
      (p.decls closed).filterMap Decl.external? = p.externals := by
  simp [decls, List.filterMap_map, Function.comp_def, Decl.function?, Decl.external?]

/-- What is printed of a program that was read has been read. -/
theorem Program.read_decls {p : Program} {ds : List Decl} (h : ∀ d ∈ ds, d.Read)
    (hfunctions : p.functions = ds.filterMap Decl.function?)
    (hexternals : p.externals = ds.filterMap Decl.external?) (closed : Bool) :
    ∀ d ∈ p.decls closed, d.Read := by
  intro d hd
  rcases List.mem_append.1 hd with hd | hd
  · obtain ⟨e, he, rfl⟩ := List.mem_map.1 hd
    rw [hexternals] at he
    obtain ⟨d, hmem, hde⟩ := List.mem_filterMap.1 he
    cases d with
    | function => cases hde
    | external =>
      cases hde
      have hread := h _ hmem
      exact hread
  · obtain ⟨f, hf, rfl⟩ := List.mem_map.1 hd
    rw [hfunctions] at hf
    obtain ⟨d, hmem, hdf⟩ := List.mem_filterMap.1 hf
    cases d with
    | external => cases hdf
    | function =>
      cases hdf
      exact h _ hmem

/-- A program that was read from a text, printed and read again is the same but for its locations.
So is a value, whatever comes behind its print that is no binary operator, no `else` and no opening
parenthesis. -/
theorem parse_reprinted {file source : String} {ts : List Token}
    (h : tokenize file source = .ok ts) :
    (∀ p, parse ts = .ok p → ∀ (closed : Bool) (us : List Token),
      us.map Token.kind = (p.decls closed).flatMap Decl.yield ++ [.endOfFile] →
      ∃ p', parse us = .ok p' ∧ p'.unlocated = p.unlocated) ∧
    ∀ q e rest, q.tokens <:+ ts → Grammar.withBudget Grammar.value q = .ok e rest →
      ∀ (us : List Token) (r : Queue), us.map Token.kind = e.yield → r.Avoids Grammar.lengthens →
        ∃ e', Grammar.withBudget Grammar.value (r.prepend us) = .ok e' r ∧
          e'.unlocated = e.unlocated := by
  obtain ⟨read, l, rfl, hread⟩ := tokenize_eq_ok h
  constructor
  · intro p hp closed us hus
    obtain ⟨rest, hrun, htable⟩ := parse_eq_ok hp
    have hreserved : (Queue.ofTokens (read ++ [⟨.endOfFile, l⟩])).Reserved :=
      Queue.reserved_of_suffix hread List.suffix_rfl
    obtain ⟨taken, -, ds, -, hds, hfunctions, hexternals⟩ :=
      Grammar.reads_declarations _ _ _ _ _ _ hreserved rfl rfl hrun
    obtain ⟨n, hagain⟩ :=
      Grammar.declarations_again (Program.read_decls hds hfunctions hexternals closed)
    obtain ⟨front, last, rfl, hfront, hlast⟩ := List.map_eq_append_iff.1 hus
    obtain ⟨t, rfl, ht⟩ := List.map_eq_singleton_iff.1 hlast
    have hend : (⟨[t], t.location⟩ : Queue).Avoids Grammar.lengthensProgram := by
      rintro _ ⟨⟩
      rw [ht]
      rfl
    obtain ⟨fs, es, hok, hfs, hes⟩ := hagain n (Nat.le_refl n) front _ hfront hend
    have hq : Queue.ofTokens (front ++ [t]) = (⟨[t], t.location⟩ : Queue).prepend front := by
      simp [Queue.ofTokens, Queue.prepend]
    rw [← hq] at hok
    refine ⟨_, parse_of_ok hok, ?_⟩
    rw [(p.filterMap_decls closed).1] at hfs
    rw [(p.filterMap_decls closed).2] at hes
    simp only [Program.unlocated, hfs, hes, htable]
  · intro q e rest hq hrun us r hus hr
    exact Grammar.value_again (Queue.reserved_of_suffix hread hq) hrun hus hr

theorem parse_reprinted_sample :
    ∃ ts p, tokenize "main" Grammar.sampleText = .ok ts ∧ parse ts = .ok p ∧
      p.externals.length = 2 ∧ p.functions.length = 1 ∧
      (∃ p', parse (((p.decls true).flatMap Decl.yield ++ [TokenKind.endOfFile]).map
        (Token.mk · .unknown)) = .ok p' ∧ p'.unlocated = p.unlocated) ∧
      ∃ e rest, Grammar.withBudget Grammar.value (.ofTokens (ts.drop 29)) = .ok e rest ∧
        e.yield = [.minus, .identifier "n", .plus, .literal "1", .star, .literal "2"] ∧
        ∃ e', Grammar.withBudget Grammar.value
            ((⟨[⟨.rparen, .unknown⟩], .unknown⟩ : Queue).supply e.yield) =
          .ok e' ⟨[⟨.rparen, .unknown⟩], .unknown⟩ ∧ e'.unlocated = e.unlocated := by
  have hcheck : (tokenize "main" Grammar.sampleText).toOption.any fun ts =>
      (parse ts).toOption.any (fun p =>
        decide (p.externals.length = 2 ∧ p.functions.length = 1)) &&
      match Grammar.withBudget Grammar.value (.ofTokens (ts.drop 29)) with
      | .ok e _ => decide (e.yield =
          [.minus, .identifier "n", .plus, .literal "1", .star, .literal "2"])
      | .error .. => false := by
    decide +kernel
  obtain ⟨ts, hts, hfound⟩ := (Option.any_eq_true ..).1 hcheck
  obtain ⟨hprogram, hvalue⟩ := Bool.and_eq_true_iff.1 hfound
  obtain ⟨p, hp, hcounts⟩ := (Option.any_eq_true ..).1 hprogram
  have htokens : tokenize "main" Grammar.sampleText = .ok ts := eq_ok_of_toOption hts
  have hparse : parse ts = .ok p := eq_ok_of_toOption hp
  have hkinds : ∀ kinds : List TokenKind,
      (kinds.map (Token.mk · .unknown)).map Token.kind = kinds := by
    intro kinds
    simp [Function.comp_def]
  obtain ⟨hprograms, hvalues⟩ := parse_reprinted htokens
  refine ⟨ts, p, htokens, hparse, (of_decide_eq_true hcounts).1, (of_decide_eq_true hcounts).2,
    hprograms p hparse true _ (hkinds _), ?_⟩
  split at hvalue
  · rename_i e rest hrun
    refine ⟨e, rest, hrun, of_decide_eq_true hvalue, ?_⟩
    refine hvalues _ e rest (List.drop_suffix 29 ts) hrun _ _ (hkinds _) ?_
    rintro _ ⟨⟩
    rfl
  · cases hvalue

end Ilang
