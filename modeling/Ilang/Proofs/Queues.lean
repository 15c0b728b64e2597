import Ilang.Grammar.Queue
/-!
# How rules take tokens

A rule takes tokens from the front of a queue. `rest.prepend taken` is the queue that had the tokens
`taken` before `rest`, and the lemmas here say what a sequence of rules does to it.
-/
namespace Ilang

namespace Queue

/-- The queue with some more tokens before it. -/
def prepend (taken : List Token) (q : Queue) : Queue := ⟨taken ++ q.tokens, q.finish⟩

@[simp] theorem prepend_tokens (taken : List Token) (q : Queue) :
    (q.prepend taken).tokens = taken ++ q.tokens := rfl

@[simp] theorem prepend_nil (q : Queue) : q.prepend [] = q := rfl

theorem prepend_append (ts us : List Token) (q : Queue) :
    q.prepend (ts ++ us) = (q.prepend us).prepend ts := by
  simp [prepend]

theorem prepend_inj {ts us : List Token} {q : Queue} (h : q.prepend ts = q.prepend us) : ts = us :=
  List.append_cancel_right (congrArg Queue.tokens h)

/-- A queue that has a next token is that token before its tail. -/
theorem eq_prepend_of_head? {q : Queue} {k : TokenKind} (h : q.head? = some k) :
    q = q.tail.prepend [⟨k, q.location⟩] := by
  obtain ⟨tokens, finish⟩ := q
  cases tokens with
  | nil => cases h
  | cons t ts =>
    cases h
    rfl

theorem length_tail {q : Queue} {kind : TokenKind} (h : q.head? = some kind) :
    q.tail.tokens.length + 1 = q.tokens.length := by
  rw [eq_prepend_of_head? h]
  rfl

theorem atEnd_iff {q : Queue} : q.atEnd = true ↔ q.head? = none ∨ q.head? = some .endOfFile := by
  unfold atEnd
  split <;> simp_all

end Queue

/-- Whether an error says that the budget was too small. -/
def ParseError.isBudget : ParseError → Bool
  | outOfBudget _ => true
  | _ => false

@[simp] theorem Queue.isBudget_unexpected (q : Queue) (expected : Expected) :
    (q.unexpected expected).isBudget = false := by
  unfold unexpected
  split
  · rfl
  · split <;> rfl

namespace Rule

variable {α β : Type} {r : Rule α} {f : α → Rule β} {q rest : Queue}

theorem bind_eq_ok {b : β} (h : (r >>= f) q = .ok b rest) :
    ∃ a mid, r q = .ok a mid ∧ f a mid = .ok b rest := by
  change Rule.bind r f q = _ at h
  unfold Rule.bind at h
  split at h
  · rename_i a mid hr
    exact ⟨a, mid, hr, h⟩
  · cases h

theorem bind_eq_error {e : ParseError} (h : (r >>= f) q = .error e rest) :
    r q = .error e rest ∨ ∃ a mid, r q = .ok a mid ∧ f a mid = .error e rest := by
  change Rule.bind r f q = _ at h
  unfold Rule.bind at h
  split at h
  · rename_i a mid hr
    exact .inr ⟨a, mid, hr, h⟩
  · rename_i hr
    cases h
    exact .inl hr

theorem bind_of_ok {a : α} {mid : Queue} (h : r q = .ok a mid) : (r >>= f) q = f a mid := by
  change Rule.bind r f q = _
  unfold Rule.bind
  rw [h]

theorem bind_of_error {e : ParseError} (h : r q = .error e rest) :
    (r >>= f) q = .error e rest := by
  change Rule.bind r f q = _
  unfold Rule.bind
  rw [h]

theorem bind_bind {γ : Type} (r : Rule α) (f : α → Rule β) (g : β → Rule γ) :
    r >>= f >>= g = r >>= fun a => f a >>= g := by
  funext q
  change Rule.bind (Rule.bind r f) g q = Rule.bind r (fun a => Rule.bind (f a) g) q
  unfold Rule.bind
  cases r q <;> rfl

theorem pure_bind (a : α) (f : α → Rule β) : Pure.pure a >>= f = f a := rfl

theorem peek_bind (f : Option TokenKind → Rule β) (q : Queue) : (peek >>= f) q = f q.head? q := rfl

end Rule

end Ilang
