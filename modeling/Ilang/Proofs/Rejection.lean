import Ilang.Proofs.Prediction
/-!
# Where a text is rejected

A program is rejected at the first token that no program can have there: whatever follows that
token, the error is the same, and what is before it can be completed to a program
(`parse_rejected`).
-/
namespace Ilang

open Grammar

/-- The error that a token is found where something else is expected. -/
def Token.unexpected (t : Token) (expected : Expected) : ParseError :=
  if t.kind = .endOfFile then .unexpectedEnd expected t.location else .unexpectedToken expected t

theorem Token.location_unexpected (t : Token) (expected : Expected) :
    (t.unexpected expected).location = t.location := by
  unfold unexpected
  split <;> rfl

theorem Token.unexpected_eq_end_iff (t : Token) (expected : Expected) :
    t.unexpected expected = .unexpectedEnd expected t.location ↔ t.kind = .endOfFile := by
  unfold unexpected
  split <;> simp_all

theorem parse_eq_error {ts : List Token} {e : ParseError} (h : parse ts = .error e) :
    ∃ rest, withBudget declarations (.ofTokens ts) = .error e rest ∧
      (program (.ofTokens ts)).rest = rest := by
  unfold parse at h
  cases hrun : program (.ofTokens ts) with
  | ok p rest => rw [hrun] at h; cases h
  | error e' rest =>
    rw [hrun] at h
    cases h
    rcases Rule.bind_eq_error hrun with herror | ⟨r, mid, -, hpure⟩
    · exact ⟨rest, herror, rfl⟩
    · cases hpure

theorem Queue.unexpected_of_tokens {q : Queue} {t : Token} {us : List Token}
    (h : q.tokens = t :: us) (expected : Expected) :
    q.unexpected expected = t.unexpected expected := by
  rw [Queue.unexpected, h]
  rfl

section Failure

variable {n : Nat} {taken us : List Token} {t : Token} {rest : Queue} {e : ParseError}
  (h : declarations n (rest.prepend taken) = .error e rest) (hbudget : e.isBudget = false)
include h hbudget

/-- The error comes again whatever is behind the token at which it is. -/
theorem parse_error_again (ht : rest.tokens = t :: us) (r : List Token) :
    parse (taken ++ [t] ++ r) = .error e := by
  have hq : Queue.ofTokens (taken ++ [t] ++ r) =
      (⟨t :: r, (Queue.ofTokens (taken ++ [t] ++ r)).finish⟩ : Queue).prepend taken := by
    simp [Queue.ofTokens, Queue.prepend]
  have hfront : rest.SameFront ⟨t :: r, (Queue.ofTokens (taken ++ [t] ++ r)).finish⟩ := by
    constructor
    · simp [Queue.head?, ht]
    · simp [Queue.location, ht]
  have herror := (foresees_declarations (Nat.le_refl _)).error h hbudget _ hfront
  rw [← hq] at herror
  exact parse_of_error herror hbudget

/-- What was read before the error can be completed. -/
theorem parse_completed (l : Location) :
    ∃ c p, parse (taken ++ c ++ [⟨.endOfFile, l⟩]) = .ok p := by
  have hdeclarations := foresees_declarations (Nat.le_refl (n + 5))
  have havoids : (⟨[⟨.endOfFile, l⟩], l⟩ : Queue).Avoids lengthensProgram := by
    rintro _ ⟨⟩
    rfl
  obtain ⟨c, r, hr⟩ : ∃ c r, declarations (n + 5)
      ((⟨[⟨.endOfFile, l⟩], l⟩ : Queue).prepend (taken ++ c)) = .ok r ⟨[⟨.endOfFile, l⟩], l⟩ := by
    by_cases hne : taken = []
    · obtain rfl := hne
      obtain ⟨r, hr⟩ := hdeclarations.fills _ havoids
      exact ⟨[], r, hr⟩
    · exact hdeclarations.finish h hbudget hne _ havoids
  have hq : Queue.ofTokens (taken ++ c ++ [⟨.endOfFile, l⟩]) =
      (⟨[⟨.endOfFile, l⟩], l⟩ : Queue).prepend (taken ++ c) := by
    simp [Queue.ofTokens, Queue.prepend]
  rw [← hq] at hr
  exact ⟨c, _, parse_of_ok hr⟩

end Failure

/-- A text is rejected at the first token that no program has there. Whatever is behind the token,
the error is the same, and what is before it can be completed to a program. -/
theorem parse_rejected {file source : String} {ts : List Token} {e : ParseError}
    (h : tokenize file source = .ok ts) (he : parse ts = .error e) :
    ∃ (k : Nat) (t : Token) (expected : Expected), ts[k]? = some t ∧
      (program (.ofTokens ts)).rest.tokens = ts.drop k ∧
      e = t.unexpected expected ∧ e.location = t.location ∧
      (e = .unexpectedEnd expected t.location ↔ t.kind = .endOfFile) ∧
      (∀ r, parse (ts.take k ++ [t] ++ r) = .error e) ∧
      ∀ l, ∃ c p, parse (ts.take k ++ c ++ [⟨.endOfFile, l⟩]) = .ok p := by
  obtain ⟨rest, hrun, hrest⟩ := parse_eq_error he
  have hbudget := (withBudget_declarations_lasts (.ofTokens ts)).error e rest hrun
  have hdeclarations := foresees_declarations (Nat.le_refl (budget (.ofTokens ts) + 5))
  obtain ⟨taken, hsplit, hend⟩ := hdeclarations.front_error hrun
  have htokens : ts = taken ++ rest.tokens := congrArg Queue.tokens hsplit
  -- The end of the text is not taken, so the queue is not empty.
  obtain ⟨t, us, ht⟩ : ∃ t us, rest.tokens = t :: us := by
    refine List.exists_cons_of_ne_nil fun hnil => ?_
    obtain ⟨read, l, hread, -⟩ := tokenize_eq_ok h
    rw [hnil, List.append_nil] at htokens
    exact hend ⟨.endOfFile, l⟩ (by simp [← htokens, hread]) rfl
  obtain ⟨expected, hexpected⟩ := hdeclarations.expected hrun hbudget
  rw [Queue.unexpected_of_tokens ht] at hexpected
  change declarations (budget (.ofTokens ts)) (.ofTokens ts) = _ at hrun
  rw [hsplit] at hrun
  rw [ht] at htokens
  refine ⟨taken.length, t, expected, ?_, ?_, hexpected, ?_, ?_, ?_, ?_⟩
  · simp [htokens]
  · rw [hrest, ht, htokens, List.drop_left]
  · rw [hexpected, Token.location_unexpected]
  · rw [hexpected, Token.unexpected_eq_end_iff]
  · rw [htokens, List.take_left]
    exact parse_error_again hrun hbudget ht
  · rw [htokens, List.take_left]
    exact parse_completed hrun hbudget

/-- A text in which a semicolon is missing. -/
def rejectedText : String :=
  "extrn int f(...); int main(int n) " ++ braced "n = f(n, -n) return n"

theorem parse_rejected_semicolon :
    ∃ ts e, tokenize "main" rejectedText = .ok ts ∧ parse ts = .error e ∧
      e.message = "Expected '\x7d' in block, found return" ∧
      ∃ (k : Nat) (t : Token) (expected : Expected), ts[k]? = some t ∧
        (program (.ofTokens ts)).rest.tokens = ts.drop k ∧
        e = t.unexpected expected ∧ e.location = t.location ∧
        (e = .unexpectedEnd expected t.location ↔ t.kind = .endOfFile) ∧
        (∀ r, parse (ts.take k ++ [t] ++ r) = .error e) ∧
        ∀ l, ∃ c p, parse (ts.take k ++ c ++ [⟨.endOfFile, l⟩]) = .ok p := by
  have hcheck : (tokenize "main" rejectedText).toOption.any fun ts =>
      decide (((parse ts).map fun _ => ()).mapError ParseError.message =
        .error "Expected '\x7d' in block, found return") := by
    decide +kernel
  obtain ⟨ts, hts, hfound⟩ := (Option.any_eq_true ..).1 hcheck
  have htokens : tokenize "main" rejectedText = .ok ts := eq_ok_of_toOption hts
  cases hparse : parse ts with
  | ok p =>
    rw [hparse] at hfound
    cases of_decide_eq_true hfound
  | error e =>
    rw [hparse] at hfound
    have hmessage := Except.error.inj (of_decide_eq_true hfound)
    exact ⟨ts, e, htokens, hparse, hmessage, parse_rejected htokens hparse⟩

end Ilang
