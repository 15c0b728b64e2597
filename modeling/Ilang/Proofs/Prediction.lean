import Ilang.Proofs.Budget
import Ilang.Proofs.Derivation
import Ilang.Proofs.Foresight
/-!
# The grammar foresees

Every rule decides by the tokens that it takes and the next one (`Rule.Foresees`), whatever the
budget. A value goes on with a binary operator, with `else` and with an opening parenthesis and
stops before everything else; a list goes on with a comma, and before `=` a name is no value.
-/
namespace Ilang.Grammar

open Rule

/-- The tokens with which a value goes on. -/
def lengthens (k : TokenKind) : Bool :=
  (BinaryOp.ofToken? k).isSome || k == .kwElse || k == .lparen

/-- The tokens with which arguments go on. -/
def lengthensList (k : TokenKind) : Bool := lengthens k || k == .comma

/-- The tokens with which an expression goes on, or would have been another one. -/
def lengthensExpression (k : TokenKind) : Bool := lengthens k || k == .assign

theorem lengthensList_of_lengthens {k : TokenKind} (h : lengthens k = true) :
    lengthensList k = true := by
  simp [lengthensList, h]

theorem lengthensExpression_of_lengthens {k : TokenKind} (h : lengthens k = true) :
    lengthensExpression k = true := by
  simp [lengthensExpression, h]

/-- No operator comes next. -/
theorem noOperator {q : Queue} (h : q.Avoids lengthens) : q.head?.bind BinaryOp.ofToken? = none := by
  cases hk : q.head? with
  | none => rfl
  | some k =>
    have hahead := h k hk
    simp only [lengthens, Bool.or_eq_false_iff] at hahead
    exact Option.isNone_iff_eq_none.1 (by simpa using hahead.1.1)

/-! ## The least that a rule needs -/

section
variable {m : Nat}

theorem fills_ident (construct : Construct) : Fills [.identifier "x"] nothing (ident construct) :=
  fun _ _ => ⟨_, rfl⟩

theorem fills_typeRef (construct : Construct) :
    Fills [.identifier "int"] nothing (typeRef construct) :=
  fun _ _ => ⟨_, rfl⟩

theorem fills_statements (h : 1 ≤ m) : Fills [.rbrace] nothing (statements m) := by
  obtain ⟨m, rfl⟩ := Nat.exists_eq_add_of_le' h
  rw [statements]
  exact fun _ _ => ⟨_, rfl⟩

theorem fills_block (h : 2 ≤ m) : Fills [.lbrace, .rbrace] nothing (block m) := by
  obtain ⟨m, rfl⟩ := Nat.exists_eq_add_of_le' h
  rw [block, statements]
  exact fun _ _ => ⟨_, rfl⟩

theorem fills_arguments (h : 1 ≤ m) : Fills [.lparen, .rparen] nothing (arguments m) := by
  obtain ⟨m, rfl⟩ := Nat.exists_eq_add_of_le' h
  rw [arguments]
  exact fun _ _ => ⟨_, rfl⟩

theorem fills_primary (h : 1 ≤ m) : Fills [.literal "0"] lengthens (primary m) := by
  obtain ⟨m, rfl⟩ := Nat.exists_eq_add_of_le' h
  rw [primary]
  exact fun _ _ => ⟨_, rfl⟩

theorem fills_unary (h : 2 ≤ m) : Fills [.literal "0"] lengthens (unary m) := by
  obtain ⟨m, rfl⟩ := Nat.exists_eq_add_of_le' h
  rw [unary]
  exact fills_primary (m := m + 1) (by omega)

theorem fills_value (h : 3 ≤ m) : Fills [.literal "0"] lengthens (value m) := by
  obtain ⟨m, rfl⟩ := Nat.exists_eq_add_of_le' h
  rw [value]
  intro rest hrest
  obtain ⟨e, he⟩ := fills_unary (m := m + 2) (by omega) rest hrest
  refine ⟨e, (bind_of_ok he).trans ?_⟩
  rw [peek_bind, noOperator hrest]
  rfl

theorem fills_argumentList (h : 4 ≤ m) :
    Fills [.literal "0"] lengthensList (argumentList m) := by
  obtain ⟨m, rfl⟩ := Nat.exists_eq_add_of_le' h
  rw [argumentList]
  intro rest hrest
  have hvalue := hrest.mono fun _ => lengthensList_of_lengthens
  obtain ⟨e, he⟩ := fills_value (m := m + 3) (by omega) rest hvalue
  refine ⟨[e], (bind_of_ok he).trans ?_⟩
  rw [accept_bind]
  refine congrFun (if_neg fun hk => ?_) rest
  cases hrest .comma hk

theorem fills_expression (h : 4 ≤ m) :
    Fills [.literal "0"] lengthensExpression (expression m) := by
  obtain ⟨m, rfl⟩ := Nat.exists_eq_add_of_le' h
  rw [expression]
  intro rest hrest
  exact fills_value (m := m + 3) (by omega) rest (hrest.mono fun _ => lengthensExpression_of_lengthens)

end

/-! ## Expressions -/

theorem foresees_ident (construct : Construct) :
    Filled [.identifier "x"] nothing (ident construct) (ident construct) := by
  refine ⟨?_, fills_ident construct⟩
  refine .location fun l => .choose fun k => ?_
  split
  · exact .skip (by simp) (.pure _)
  · exact Foresees.fail.when _

theorem foresees_typeRef (construct : Construct) :
    Filled [.identifier "int"] nothing (typeRef construct) (typeRef construct) := by
  refine ⟨?_, fills_typeRef construct⟩
  refine .location fun l => .choose fun k => ?_
  split
  · exact .skip (by simp) (.pure _)
  · exact .skip (by simp) (.pure _)
  · exact Foresees.fail.when _

/-- What the rules for expressions foresee with two budgets. -/
structure ForeseesAll (n m : Nat) : Prop where
  block : Filled [.lbrace, .rbrace] nothing (block n) (block m)
  statements : Filled [.rbrace] nothing (statements n) (statements m)
  expression : Filled [.literal "0"] lengthensExpression (expression n) (expression m)
  value : Filled [.literal "0"] lengthens (value n) (value m)
  unary : Filled [.literal "0"] lengthens (unary n) (unary m)
  primary : Filled [.literal "0"] lengthens (primary n) (primary m)
  arguments : Filled [.lparen, .rparen] nothing (arguments n) (arguments m)
  argumentList : Filled [.literal "0"] lengthensList (argumentList n) (argumentList m)
  argumentsCommit : (Grammar.arguments n).Commits .lparen 1
  primaryCommits : ∀ name, (Grammar.primary n).Commits (.identifier name) 2
  unaryCommits : ∀ name, (Grammar.unary n).Commits (.identifier name) 2
  valueCommits : ∀ name, (Grammar.value n).Commits (.identifier name) 2

section
variable {n m : Nat} (ih : ForeseesAll n m)
include ih

theorem foresees_block : Foresees true nothing (block (n + 1)) (block (m + 1)) := by
  rw [block, block]
  refine .location fun l => ?_
  exact (Filled.expect .lbrace (by simp) _).toForesees.bind [.rbrace] (fun _ => ih.statements.map) rfl

theorem foresees_statements : Foresees true nothing (statements (n + 1)) (statements (m + 1)) := by
  rw [statements, statements, accept_bind, accept_bind]
  refine .choose fun k => ?_
  split
  · rename_i hk
    obtain rfl := hk
    exact .skip (by simp) (.pure _)
  · refine (ih.expression.toForesees.bind [.rbrace] (fun first => ?_) rfl).when _
    rw [accept_bind, accept_bind]
    refine ⟨.choose fun k => ?_, fun _ _ => ⟨_, rfl⟩⟩
    split
    · rename_i hk
      obtain rfl := hk
      exact .skip (by simp) ih.statements.map
    · exact (Filled.expect .rbrace (by simp) _).map.toForesees.when _

theorem foresees_value : Foresees true lengthens (value (n + 1)) (value (m + 1)) := by
  rw [value, value]
  refine ih.unary.toForesees.bind [] (fun left => ⟨.option fun k => ?_, fun rest hrest => ?_⟩)
    fun _ h => h
  · cases hop : k.bind BinaryOp.ofToken? with
    | some op =>
      obtain ⟨kind, rfl, hkind⟩ := Option.bind_eq_some_iff.1 hop
      exact .inl (.skip (by rintro rfl; cases hkind) ih.value.map)
    | none =>
      refine .inr ⟨left, ?_, ?_, fun q hq => ?_⟩
      · simp only [hop]
      · simp only [hop]
      · simp only [noOperator hq]
  · refine ⟨left, ?_⟩
    have hnone : (Queue.supply [] rest).head?.bind BinaryOp.ofToken? = none := noOperator hrest
    rw [peek_bind, hnone]
    rfl

theorem foresees_unary : Foresees true lengthens (unary (n + 1)) (unary (m + 1)) := by
  rw [unary, unary]
  refine .location fun l => .choose fun k => ?_
  cases hop : k.bind UnaryOp.ofToken? with
  | some op =>
    obtain ⟨kind, rfl, hkind⟩ := Option.bind_eq_some_iff.1 hop
    exact .skip (by rintro rfl; cases hkind) ih.unary.map
  | none => exact ih.primary.toForesees.when k

theorem foresees_primary : Foresees true lengthens (primary (n + 1)) (primary (m + 1)) := by
  rw [primary, primary]
  refine .location fun l => .choose fun k => ?_
  rcases k with _ | k
  · exact Foresees.fail.when none
  cases k with
  | literal text => exact .skip (by simp) (.pure _)
  | identifier name =>
    exact .skip (by simp) (.optional rfl (ih.arguments.map.of_nothing.toForesees.when _))
  | lparen =>
    refine .skip (by simp) (ih.value.bind [.rparen] (fun inner => ?_) rfl).of_nothing
    exact (Filled.expect .rparen (by simp) _).map
  | lbrace => exact ih.block.of_nothing.toForesees.when _
  | kwIf =>
    -- An `else` behind a branch without one would belong to it.
    refine .skip (by simp) (ih.value.bind [.literal "0"] (fun condition => ?_) rfl)
    refine ih.value.bind [] (fun onTrue => ?_) fun _ h => h
    rw [accept_bind, accept_bind]
    exact .optional rfl (.skip (by simp) ih.value.map)
  | _ => exact Foresees.fail.when _

theorem foresees_arguments : Foresees true nothing (arguments (n + 1)) (arguments (m + 1)) := by
  rw [arguments, arguments]
  refine (Filled.expect .lparen (by simp) _).toForesees.bind [.rparen]
    (fun _ => ⟨.choose fun k => ?_, fun _ _ => ⟨_, rfl⟩⟩) rfl
  split
  · rename_i hk
    obtain rfl := hk
    exact .skip (by simp) (.pure _)
  · refine (ih.argumentList.toForesees.bind [.rparen] (fun es => ?_) rfl).when k
    exact (Filled.expect .rparen (by simp) _).map

theorem foresees_argumentList :
    Foresees true lengthensList (argumentList (n + 1)) (argumentList (m + 1)) := by
  rw [argumentList, argumentList]
  refine ih.value.toForesees.bind [] (fun first => ?_) fun _ => lengthensList_of_lengthens
  rw [accept_bind, accept_bind]
  exact .optional rfl (.skip (by simp) ih.argumentList.map)

theorem foresees_expression :
    Foresees true lengthensExpression (expression (n + 1)) (expression (m + 1)) := by
  have hvalue : Filled _ lengthensExpression (value n) (value m) :=
    ih.value.mono fun _ => lengthensExpression_of_lengthens
  rw [expression, expression]
  refine .location fun l => .choose fun k => ?_
  rcases k with _ | k
  · exact hvalue.toForesees.when none
  cases k with
  | kwReturn => exact .skip (by simp) hvalue.map
  | kwLet =>
    refine .skip (by simp) ((foresees_ident _).bind [.colon, .identifier "int", .assign, .literal "0"]
      (fun name => ?_) rfl)
    refine (Filled.expect .colon (by simp) _).bind [.identifier "int", .assign, .literal "0"]
      (fun _ => ?_) rfl
    refine (foresees_typeRef _).bind [.assign, .literal "0"] (fun type => ?_) rfl
    exact (Filled.expect .assign (by simp) _).bind [.literal "0"] (fun _ => hvalue.map) rfl
  | kwWhile =>
    refine .skip (by simp) (ih.value.bind [.lbrace, .rbrace] (fun condition => ?_) rfl).of_nothing
    exact ih.block.map
  | kwBreak => exact .skip (by simp) (.pure _)
  | identifier name =>
    -- Only here two tokens decide: a name before `=` is the target of an assignment.
    exact .peekSecond (by simp) (by simp) hvalue.map hvalue.toForesees rfl (ih.valueCommits name)
  | _ => exact hvalue.toForesees.when _

theorem commits_arguments : (arguments (n + 1)).Commits .lparen 1 := by
  intro q e rest hk herror hbudget
  have hexpect : expect .lparen .callArguments q = .ok () q.tail := if_pos hk
  rw [arguments, bind_of_ok hexpect] at herror
  rw [peek_bind] at herror
  split at herror
  · cases herror
  · have hlength := Queue.length_tail hk
    have hrest := (ih.argumentList.toForesees.bind [.rparen]
      (fun es => (Filled.expect .rparen (by simp) _).map) rfl).length_error herror
    omega

theorem commits_primary (name : String) : (primary (n + 1)).Commits (.identifier name) 2 := by
  intro q e rest hk herror hbudget
  have hlength := Queue.length_tail hk
  rw [Queue.eq_prepend_of_head? hk, primary] at herror
  change (if q.tail.head? = some .lparen then _ else _ : Rule Expr) q.tail = _ at herror
  split at herror
  · rename_i hparen
    rcases bind_eq_error herror with hargs | ⟨es, mid, -, hpure⟩
    · have hrest := ih.argumentsCommit q.tail e rest hparen hargs hbudget
      omega
    · cases hpure
  · cases herror

theorem commits_unary (name : String) : (unary (n + 1)).Commits (.identifier name) 2 := by
  intro q e rest hk herror hbudget
  have hprimary : primary n q = .error e rest := by
    rw [Queue.eq_prepend_of_head? hk, unary] at herror
    rw [Queue.eq_prepend_of_head? hk]
    exact herror
  exact ih.primaryCommits name q e rest hk hprimary hbudget

theorem commits_value (name : String) : (value (n + 1)).Commits (.identifier name) 2 := by
  intro q e rest hk herror hbudget
  rw [value] at herror
  rcases bind_eq_error herror with hunary | ⟨left, mid, hunary, hchain⟩
  · exact ih.unaryCommits name q e rest hk hunary hbudget
  · rw [peek_bind] at hchain
    cases hop : mid.head?.bind BinaryOp.ofToken? with
    | none =>
      rw [hop] at hchain
      cases hchain
    | some op =>
      -- The operand and the operator are taken.
      rw [hop] at hchain
      obtain ⟨kind, hkind, -⟩ := Option.bind_eq_some_iff.1 hop
      have hmid := ih.unary.toForesees.length_lt hunary
      have htail := Queue.length_tail hkind
      have hrest := ih.value.map.toForesees.length_error (q := mid.tail) hchain
      omega

end

theorem commits_exhausted {α : Type} {kind : TokenKind} {count : Nat} :
    (exhausted : Rule α).Commits kind count := by
  intro q e rest _ herror hbudget
  rw [← (Outcome.error.inj herror).1] at hbudget
  cases hbudget

/-- Every rule foresees what it does with a few more nested rules. -/
theorem foreseesAll {n m : Nat} (h : n + 4 ≤ m) : ForeseesAll n m := by
  -- The second budget is for what is missing where the first one ends: four rules, one in another.
  induction n generalizing m with
  | zero =>
    exact {
      block := ⟨foresees_exhausted, fills_block (by omega)⟩
      statements := ⟨foresees_exhausted, fills_statements (by omega)⟩
      expression := ⟨foresees_exhausted, fills_expression (by omega)⟩
      value := ⟨foresees_exhausted, fills_value (by omega)⟩
      unary := ⟨foresees_exhausted, fills_unary (by omega)⟩
      primary := ⟨foresees_exhausted, fills_primary (by omega)⟩
      arguments := ⟨foresees_exhausted, fills_arguments (by omega)⟩
      argumentList := ⟨foresees_exhausted, fills_argumentList (by omega)⟩
      argumentsCommit := commits_exhausted
      primaryCommits := fun _ => commits_exhausted
      unaryCommits := fun _ => commits_exhausted
      valueCommits := fun _ => commits_exhausted }
  | succ n ih =>
    obtain ⟨m, rfl⟩ : ∃ k, m = k + 1 := ⟨m - 1, by omega⟩
    have ih := ih (m := m) (by omega)
    exact {
      block := ⟨foresees_block ih, fills_block (by omega)⟩
      statements := ⟨foresees_statements ih, fills_statements (by omega)⟩
      expression := ⟨foresees_expression ih, fills_expression (by omega)⟩
      value := ⟨foresees_value ih, fills_value (by omega)⟩
      unary := ⟨foresees_unary ih, fills_unary (by omega)⟩
      primary := ⟨foresees_primary ih, fills_primary (by omega)⟩
      arguments := ⟨foresees_arguments ih, fills_arguments (by omega)⟩
      argumentList := ⟨foresees_argumentList ih, fills_argumentList (by omega)⟩
      argumentsCommit := commits_arguments ih
      primaryCommits := commits_primary ih
      unaryCommits := commits_unary ih
      valueCommits := commits_value ih }

/-! ## Declarations -/

/-- The token with which parameters go on. -/
def lengthensParams (k : TokenKind) : Bool := k == .comma

/-- The token with which the declaration of an external function goes on. -/
def lengthensExternal (k : TokenKind) : Bool := k == .semicolon

/-- The tokens with which a program goes on. -/
def lengthensProgram (k : TokenKind) : Bool := k != .endOfFile

theorem fills_paramList (allowVariadic : Bool) {m : Nat} (h : 1 ≤ m) :
    Fills [.identifier "int", .identifier "x"] lengthensParams (paramList allowVariadic m) := by
  obtain ⟨m, rfl⟩ := Nat.exists_eq_add_of_le' h
  intro rest hrest
  have haccept : accept .comma rest = .ok false rest :=
    if_neg fun hk => Bool.noConfusion (hrest .comma hk)
  rw [paramList]
  cases allowVariadic <;> exact ⟨_, bind_of_ok haccept⟩

theorem foresees_paramList (allowVariadic : Bool) {n m : Nat} (h : n + 4 ≤ m) :
    Filled [.identifier "int", .identifier "x"] lengthensParams (paramList allowVariadic n)
      (paramList allowVariadic m) := by
  refine ⟨?_, fills_paramList allowVariadic (by omega)⟩
  induction n generalizing m with
  | zero => exact foresees_exhausted
  | succ n ih =>
    obtain ⟨m, rfl⟩ : ∃ k, m = k + 1 := ⟨m - 1, by omega⟩
    have hothers : Filled _ lengthensParams (paramList allowVariadic n) (paramList allowVariadic m) :=
      ⟨ih (by omega), fills_paramList allowVariadic (by omega)⟩
    rw [paramList, paramList]
    refine .choose fun k => ?_
    split
    · rename_i hk
      simp only [Bool.and_eq_true, decide_eq_true_eq] at hk
      obtain ⟨-, rfl⟩ := hk
      exact .skip (by simp) (.pure _)
    · refine Foresees.when (.bind [.identifier "x"] (foresees_typeRef _).toForesees
        (fun type => (foresees_ident _).bind [] (fun name => ?_) clear_nothing) rfl) k
      rw [accept_bind, accept_bind]
      exact .optional rfl (.skip (by simp) hothers.map)

theorem foresees_params (allowVariadic : Bool) {n m : Nat} (h : n + 4 ≤ m) :
    Filled [.lparen, .rparen] nothing (params allowVariadic n) (params allowVariadic m) := by
  unfold params
  refine (Filled.expect .lparen (by simp) _).bind [.rparen]
    (fun _ => ⟨.choose fun k => ?_, fun _ _ => ⟨_, rfl⟩⟩) rfl
  split
  · rename_i hk
    obtain rfl := hk
    exact .skip (by simp) (.pure _)
  · refine ((foresees_paramList allowVariadic h).toForesees.bind [.rparen] (fun r => ?_) rfl).when k
    exact (Filled.expect .rparen (by simp) _).map

theorem foresees_function {n m : Nat} (h : n + 4 ≤ m) :
    Foresees true nothing (function n) (function m) := by
  unfold function
  refine .location fun l => ?_
  refine (foresees_typeRef _).toForesees.bind [.identifier "x", .lparen, .rparen, .lbrace, .rbrace]
    (fun returns => ?_) rfl
  refine (foresees_ident _).bind [.lparen, .rparen, .lbrace, .rbrace] (fun name => ?_) rfl
  exact (foresees_params false h).bind [.lbrace, .rbrace] (fun ps => (foreseesAll h).block.map) rfl

theorem foresees_heading {n m : Nat} (h : n + 4 ≤ m) :
    Foresees true nothing (heading n) (heading m) := by
  unfold heading
  refine .location fun l => ?_
  refine (Filled.expect .kwExtrn (by simp) _).toForesees.bind
    [.identifier "int", .identifier "x", .lparen, .rparen] (fun _ => ?_) rfl
  refine (foresees_typeRef _).bind [.identifier "x", .lparen, .rparen] (fun returns => ?_) rfl
  exact (foresees_ident _).bind [.lparen, .rparen] (fun name => (foresees_params true h).map) rfl

theorem foresees_external {n m : Nat} (h : n + 4 ≤ m) :
    Foresees true lengthensExternal (external n) (external m) := by
  rw [external_eq, external_eq]
  refine (foresees_heading h).bind [] (fun e => ?_) clear_nothing
  rw [accept_bind]
  exact .optional rfl (.skip (by simp) (.pure e))

theorem atEnd_of_avoids {q : Queue} (h : q.Avoids lengthensProgram) : q.atEnd = true := by
  refine Queue.atEnd_iff.2 ?_
  cases hk : q.head? with
  | none => exact .inl rfl
  | some k =>
    have hend := h k hk
    simp only [lengthensProgram, bne_eq_false_iff_eq] at hend
    exact .inr (congrArg some hend)

/-- Nothing has to be declared. -/
theorem fills_declarations {m : Nat} (h : 1 ≤ m) : Fills [] lengthensProgram (declarations m) := by
  obtain ⟨m, rfl⟩ := Nat.exists_eq_add_of_le' h
  intro rest hrest
  refine ⟨([], []), ?_⟩
  rw [declarations]
  exact if_pos (atEnd_of_avoids hrest)

theorem foresees_declarations {n m : Nat} (h : n + 5 ≤ m) :
    Filled [] lengthensProgram (declarations n) (declarations m) := by
  refine ⟨?_, fills_declarations (by omega)⟩
  induction n generalizing m with
  | zero => exact foresees_exhausted
  | succ n ih =>
    obtain ⟨m, rfl⟩ : ∃ k, m = k + 1 := ⟨m - 1, by omega⟩
    have hothers : Filled [] lengthensProgram (declarations n) (declarations m) :=
      ⟨ih (by omega), fills_declarations (by omega)⟩
    rw [declarations_succ, declarations_succ]
    refine .option fun k => ?_
    by_cases hend : k = none ∨ k = some .endOfFile
    · exact .inr ⟨([], []), if_pos hend, if_pos hend, fun q hq =>
        if_pos (Queue.atEnd_iff.1 (atEnd_of_avoids hq))⟩
    · refine .inl ?_
      rw [if_neg hend, if_neg hend]
      split
      · have hclear : Clear lengthensExternal lengthensProgram [] := by
          intro kind hkind
          simp only [lengthensExternal, beq_iff_eq] at hkind
          rw [hkind]
          rfl
        exact ((foresees_external (by omega)).bind [] (fun e => hothers.map) hclear).when k
      · exact ((foresees_function (by omega)).bind [] (fun f => hothers.map) clear_nothing).when k

/-! ## Any budget that is enough -/

theorem value_eq_withBudget {n : Nat} {q : Queue}
    (h : ∀ e rest, value n q = .error e rest → e.isBudget = false) :
    value n q = withBudget value q := by
  have hn : n + 4 ≤ n + budget q + 4 := by omega
  have hbudget : budget q + 4 ≤ n + budget q + 4 := by omega
  have hsame := (foreseesAll hn).value.toForesees.same_outcome h
  rw [← hsame]
  exact (foreseesAll hbudget).value.toForesees.same_outcome (withBudget_value_lasts q).error

theorem declarations_eq_withBudget {n : Nat} {q : Queue}
    (h : ∀ e rest, declarations n q = .error e rest → e.isBudget = false) :
    declarations n q = withBudget declarations q := by
  have hn : n + 5 ≤ n + budget q + 5 := by omega
  have hbudget : budget q + 5 ≤ n + budget q + 5 := by omega
  have hsame := (foresees_declarations hn).toForesees.same_outcome h
  rw [← hsame]
  exact (foresees_declarations hbudget).toForesees.same_outcome
    (withBudget_declarations_lasts q).error

end Ilang.Grammar

namespace Ilang

open Grammar

/-- A program is what its declarations make, with any budget that gives them. -/
theorem parse_of_ok {n : Nat} {ts : List Token} {r : List Function × List External} {rest : Queue}
    (h : declarations n (.ofTokens ts) = .ok r rest) :
    parse ts = .ok { functions := r.1, externals := r.2 } := by
  have hbudget : ∀ e rest', declarations n (.ofTokens ts) = .error e rest' → e.isBudget = false := by
    intro e rest' herror
    rw [h] at herror
    cases herror
  rw [declarations_eq_withBudget hbudget] at h
  have hprogram : program (.ofTokens ts) = .ok { functions := r.1, externals := r.2 } rest :=
    Rule.bind_of_ok h
  rw [parse, hprogram]
  rfl

theorem parse_of_error {n : Nat} {ts : List Token} {e : ParseError} {rest : Queue}
    (h : declarations n (.ofTokens ts) = .error e rest) (hbudget : e.isBudget = false) :
    parse ts = .error e := by
  have hbudget : ∀ e' rest', declarations n (.ofTokens ts) = .error e' rest' →
      e'.isBudget = false := by
    intro e' rest' herror
    rw [h] at herror
    cases herror
    exact hbudget
  rw [declarations_eq_withBudget hbudget] at h
  have hprogram : program (.ofTokens ts) = .error e rest := Rule.bind_of_error h
  rw [parse, hprogram]
  rfl

end Ilang
