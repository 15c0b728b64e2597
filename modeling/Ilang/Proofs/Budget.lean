import Ilang.Grammar.Program
import Ilang.Proofs.Queues
/-!
# The budget of the grammar

No rule uses up the budget that its queue gives it (`withBudget_value_lasts`,
`withBudget_declarations_lasts`). A rule that has taken a token goes on with a smaller queue, and
between two tokens at most seven rules are entered: each rule has a rank, and eight for each token
with the rank on top are enough (`LastsAll`).
-/
namespace Ilang

/-- An outcome is not for want of budget, and a result leaves fewer than some number of tokens. -/
def Outcome.Lasts {α : Type} (bound : Nat) : Outcome α → Prop
  | ok _ rest => rest.tokens.length < bound
  | error e _ => e.isBudget = false

theorem Outcome.Lasts.error {α : Type} {bound : Nat} {o : Outcome α} (h : o.Lasts bound) :
    ∀ e rest, o = .error e rest → e.isBudget = false := by
  rintro e rest rfl
  exact h

namespace Rule

variable {α β : Type}

/-- On a queue with some next token and fewer than some number of tokens, a rule lasts. -/
def LastsAt (k : Option TokenKind) (bound bound' : Nat) (r : Rule α) : Prop :=
  ∀ q, q.head? = k → q.tokens.length < bound → (r q).Lasts bound'

/-- On a queue with fewer than some number of tokens, a rule lasts. -/
def Lasts (bound bound' : Nat) (r : Rule α) : Prop := ∀ k, r.LastsAt k bound bound'

variable {k : Option TokenKind} {b b' b'' : Nat} {r : Rule α} {f : α → Rule β}

theorem LastsAt.bind (hr : r.LastsAt k b b') (hf : ∀ a, (f a).Lasts b' b'') :
    (r >>= f).LastsAt k b b'' := by
  intro q hk hq
  have h := hr q hk hq
  cases hrun : r q with
  | ok a rest =>
    rw [hrun] at h
    rw [bind_of_ok hrun]
    exact hf a _ rest rfl h
  | error e rest =>
    rw [hrun] at h
    rw [bind_of_error hrun]
    exact h

theorem Lasts.bind (hr : r.Lasts b b') (hf : ∀ a, (f a).Lasts b' b'') : (r >>= f).Lasts b b'' :=
  fun k => (hr k).bind hf

theorem Lasts.pure {a : α} (h : b ≤ b') : (Pure.pure a : Rule α).Lasts b b' :=
  fun _ _ _ hq => Nat.lt_of_lt_of_le hq h

theorem lasts_fail {expected : Expected} : (fail expected : Rule α).Lasts b b' :=
  fun _ q _ _ => Queue.isBudget_unexpected q expected

/-- Nothing has fewer than no tokens. -/
theorem lasts_zero : r.Lasts 0 b' := fun _ _ _ hq => absurd hq (Nat.not_lt_zero _)

theorem LastsAt.peek {f : Option TokenKind → Rule β} (h : (f k).LastsAt k b b') :
    (peek >>= f).LastsAt k b b' := by
  rintro q rfl hq
  exact h q rfl hq

theorem LastsAt.location {f : Location → Rule β} (h : ∀ l, (f l).LastsAt k b b') :
    (location >>= f).LastsAt k b b' :=
  fun q hk hq => h q.location q hk hq

/-- Taking a token makes the queue smaller. -/
theorem LastsAt.skip {kind : TokenKind} {f : Unit → Rule β} (h : (f ()).Lasts (b - 1) b') :
    (skip >>= f).LastsAt (some kind) b b' := by
  intro q hk hq
  have hlength := Queue.length_tail hk
  exact h _ q.tail rfl (by omega)

/-- Taking two tokens if the second one is of a given kind. -/
theorem LastsAt.peekSecond {kind second : TokenKind} {f : Unit → Rule β} {r : Rule β}
    (hf : (f ()).Lasts (b - 1 - 1) b') (hr : r.LastsAt (some kind) b b') :
    (Rule.peekSecond >>= fun k' =>
      if k' = some second then Rule.skip >>= fun _ => Rule.skip >>= f else r).LastsAt
      (some kind) b b' := by
  intro q hk hq
  change ((if q.tail.head? = some second then Rule.skip >>= fun _ => Rule.skip >>= f else r) q).Lasts
    b'
  split
  · rename_i hsecond
    have hlength := Queue.length_tail hk
    exact LastsAt.skip hf q.tail hsecond (by omega)
  · exact hr q hk hq

theorem lasts_expect (kind : TokenKind) (construct : Construct) :
    (expect kind construct).Lasts b (b - 1) := by
  intro k q hk hq
  unfold expect
  split
  · rename_i hhead
    have hlength := Queue.length_tail hhead
    change q.tail.tokens.length < b - 1
    omega
  · exact Queue.isBudget_unexpected _ _

theorem Lasts.accept {kind : TokenKind} {f : Bool → Rule β} (ht : (f true).Lasts (b - 1) b')
    (hf : (f false).Lasts b b') : (accept kind >>= f).Lasts b b' := by
  intro k q hk hq
  by_cases hhead : q.head? = some kind
  · have haccept : Rule.accept kind q = .ok true q.tail := if_pos hhead
    have hlength := Queue.length_tail hhead
    rw [bind_of_ok haccept]
    exact ht _ q.tail rfl (by omega)
  · have haccept : Rule.accept kind q = .ok false q := if_neg hhead
    rw [bind_of_ok haccept]
    exact hf _ q rfl hq

end Rule

namespace Grammar

open Rule

variable {b : Nat}

theorem lasts_ident (construct : Construct) : (ident construct).Lasts b (b - 1) := by
  unfold ident
  intro k
  refine .location fun l => .peek ?_
  split
  · exact .skip (.pure (Nat.le_refl _))
  · exact lasts_fail _

theorem lasts_typeRef (construct : Construct) : (typeRef construct).Lasts b (b - 1) := by
  unfold typeRef
  intro k
  refine .location fun l => .peek ?_
  split
  · exact .skip (.pure (Nat.le_refl _))
  · exact .skip (.pure (Nat.le_refl _))
  · exact lasts_fail _

/-- A rule lasts with eight for each token and its rank on top. -/
def Ranked (rank n : Nat) {α : Type} (r : Rule α) : Prop :=
  ∀ b, 8 * b + rank ≤ n + 8 → r.Lasts b (b - 1)

theorem ranked_exhausted {rank : Nat} (hrank : 0 < rank) {α : Type} {r : Rule α} :
    Ranked rank 0 r := by
  intro b hb
  obtain rfl : b = 0 := by omega
  exact lasts_zero

/-- How long the rules for expressions last with some budget. -/
structure LastsAll (n : Nat) : Prop where
  block : Ranked 1 n (block n)
  arguments : Ranked 1 n (arguments n)
  primary : Ranked 2 n (primary n)
  unary : Ranked 3 n (unary n)
  value : Ranked 4 n (value n)
  expression : Ranked 5 n (expression n)
  argumentList : Ranked 5 n (argumentList n)
  statements : Ranked 6 n (statements n)

section
variable {n : Nat} (ih : LastsAll n)
include ih

theorem ranked_block : Ranked 1 (n + 1) (block (n + 1)) := by
  intro b hb
  rw [block]
  intro k
  refine .location fun l => .bind (lasts_expect _ _ _) fun _ => ?_
  exact (ih.statements _ (by omega)).bind fun r => .pure (by omega)

theorem ranked_arguments : Ranked 1 (n + 1) (arguments (n + 1)) := by
  intro b hb
  rw [arguments]
  refine (lasts_expect _ _).bind fun _ k => .peek ?_
  split
  · rename_i hk
    obtain rfl := hk
    exact .skip (.pure (by omega))
  · exact (ih.argumentList _ (by omega)).bind
      (fun es => (lasts_expect _ _).bind fun _ => .pure (by omega)) _

theorem ranked_primary : Ranked 2 (n + 1) (primary (n + 1)) := by
  intro b hb
  rw [primary]
  intro k
  refine .location fun l => .peek ?_
  -- Inside, a value comes behind a token, which pays for its higher rank.
  split
  · exact .skip (.pure (Nat.le_refl _))
  · refine .skip fun k => .peek ?_
    split
    · exact (ih.arguments _ (by omega)).bind (fun es => .pure (by omega)) _
    · exact Lasts.pure (Nat.le_refl _) _
  · refine .skip ((ih.value _ (by omega)).bind fun e => ?_)
    exact (lasts_expect _ _).bind fun _ => .pure (by omega)
  · exact ih.block _ (by omega) _
  · refine .skip ((ih.value _ (by omega)).bind fun c => (ih.value _ (by omega)).bind fun t => ?_)
    exact .accept ((ih.value _ (by omega)).bind fun e => .pure (by omega)) (.pure (by omega))
  · exact lasts_fail _

theorem ranked_unary : Ranked 3 (n + 1) (unary (n + 1)) := by
  intro b hb
  rw [unary]
  intro k
  refine .location fun l => .peek ?_
  split
  · rename_i op hop
    obtain ⟨kind, rfl, -⟩ := Option.bind_eq_some_iff.1 hop
    exact .skip ((ih.unary _ (by omega)).bind fun e => .pure (by omega))
  · exact ih.primary _ (by omega) _

theorem ranked_value : Ranked 4 (n + 1) (value (n + 1)) := by
  intro b hb
  rw [value]
  refine (ih.unary _ (by omega)).bind fun left k => .peek ?_
  split
  · rename_i op hop
    obtain ⟨kind, rfl, -⟩ := Option.bind_eq_some_iff.1 hop
    exact .skip ((ih.value _ (by omega)).bind fun e => .pure (by omega))
  · exact Lasts.pure (Nat.le_refl _) _

theorem ranked_expression : Ranked 5 (n + 1) (expression (n + 1)) := by
  intro b hb
  have hvalue := ih.value b (by omega)
  rw [expression]
  intro k
  refine .location fun l => .peek ?_
  split
  · exact .skip ((ih.value _ (by omega)).bind fun e => .pure (by omega))
  · refine .skip ((lasts_ident _).bind fun i => (lasts_expect _ _).bind fun _ =>
      (lasts_typeRef _).bind fun t => (lasts_expect _ _).bind fun _ => ?_)
    exact (ih.value _ (by omega)).bind fun e => .pure (by omega)
  · refine .skip ((ih.value _ (by omega)).bind fun c => ?_)
    exact (ih.block _ (by omega)).bind fun e => .pure (by omega)
  · exact .skip (.pure (Nat.le_refl _))
  · refine .peekSecond ?_ (hvalue _)
    exact (ih.value _ (by omega)).bind fun e => .pure (by omega)
  · exact hvalue _

theorem ranked_argumentList : Ranked 5 (n + 1) (argumentList (n + 1)) := by
  intro b hb
  rw [argumentList]
  refine (ih.value _ (by omega)).bind fun first => .accept ?_ (.pure (Nat.le_refl _))
  exact (ih.argumentList _ (by omega)).bind fun es => .pure (by omega)

theorem ranked_statements : Ranked 6 (n + 1) (statements (n + 1)) := by
  intro b hb
  rw [statements]
  refine .accept (.pure (Nat.le_refl _)) ((ih.expression _ (by omega)).bind fun first => ?_)
  refine .accept ((ih.statements _ (by omega)).bind fun r => .pure (by omega)) ?_
  exact (lasts_expect _ _).bind fun _ => .pure (by omega)

end

theorem lastsAll (n : Nat) : LastsAll n := by
  induction n with
  | zero => constructor <;> exact ranked_exhausted (by decide)
  | succ n ih =>
    exact ⟨ranked_block ih, ranked_arguments ih, ranked_primary ih, ranked_unary ih,
      ranked_value ih, ranked_expression ih, ranked_argumentList ih, ranked_statements ih⟩

theorem ranked_paramList (allowVariadic : Bool) (n : Nat) :
    Ranked 1 n (paramList allowVariadic n) := by
  induction n with
  | zero => exact ranked_exhausted (by decide)
  | succ n ih =>
    intro b hb
    rw [paramList]
    intro k
    refine .peek ?_
    split
    · rename_i hk
      simp only [Bool.and_eq_true, decide_eq_true_eq] at hk
      obtain ⟨-, rfl⟩ := hk
      exact .skip (.pure (Nat.le_refl _))
    · refine Lasts.bind (lasts_typeRef _) (fun t => (lasts_ident _).bind fun i => .accept ?_ ?_) _
      · exact (ih _ (by omega)).bind fun r => .pure (by omega)
      · exact .pure (by omega)

theorem ranked_params (allowVariadic : Bool) (n : Nat) : Ranked 1 n (params allowVariadic n) := by
  intro b hb
  unfold params
  refine (lasts_expect _ _).bind fun _ k => .peek ?_
  split
  · rename_i hk
    obtain rfl := hk
    exact .skip (.pure (by omega))
  · exact (ranked_paramList allowVariadic n _ (by omega)).bind
      (fun r => (lasts_expect _ _).bind fun _ => .pure (by omega)) _

theorem ranked_function (n : Nat) : Ranked 1 n (function n) := by
  intro b hb
  unfold function
  intro k
  refine .location fun l => .bind (lasts_typeRef _ _) fun t => (lasts_ident _).bind fun i => ?_
  refine (ranked_params false n _ (by omega)).bind fun ps => ?_
  exact ((lastsAll n).block _ (by omega)).bind fun body => .pure (by omega)

theorem ranked_external (n : Nat) : Ranked 1 n (external n) := by
  intro b hb
  unfold external
  intro k
  refine .location fun l => .bind (lasts_expect _ _ _) fun _ => (lasts_typeRef _).bind fun t =>
    (lasts_ident _).bind fun i => ?_
  refine (ranked_params true n _ (by omega)).bind fun ps => ?_
  exact .accept (.pure (by omega)) (.pure (by omega))

/-- Declarations end in front of the end of the text, so they need not take a token. -/
theorem lasts_declarations {n : Nat} (h : 8 * b ≤ n) : (declarations n).Lasts b b := by
  induction n generalizing b with
  | zero =>
    obtain rfl : b = 0 := by omega
    exact lasts_zero
  | succ n ih =>
    intro k q hk hq
    rw [declarations]
    dsimp only
    split
    · exact hq
    · split
      · exact (ranked_external n b (by omega)).bind (fun e => (ih (by omega)).bind
          fun r => .pure (by omega)) k q hk hq
      · exact (ranked_function n b (by omega)).bind (fun f => (ih (by omega)).bind
          fun r => .pure (by omega)) k q hk hq

/-- The budget of a queue is enough for a value. -/
theorem withBudget_value_lasts (q : Queue) : (withBudget value q).Lasts q.tokens.length := by
  refine (lastsAll (budget q)).value (q.tokens.length + 1) ?_ _ q rfl (Nat.lt_succ_self _)
  unfold budget
  omega

/-- The budget of a queue is enough for declarations. -/
theorem withBudget_declarations_lasts (q : Queue) :
    (withBudget declarations q).Lasts (q.tokens.length + 1) :=
  lasts_declarations (Nat.le_refl _) _ q rfl (Nat.lt_succ_self _)

end Grammar

end Ilang
