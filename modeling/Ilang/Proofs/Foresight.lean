import Ilang.Proofs.Queues
/-!
# What a rule decides by

A rule sees the tokens that it takes and the one behind them. `Rule.Foresees` says so: with another
queue behind the tokens that it took it does the same again, if the queue starts with the same
token or with none that the rule would go on with. An error is about the next token and comes again
whatever is behind that, and the tokens before it can be completed.

A rule and a copy of it with more budget are compared, since what completes a run may need more
than the run had.
-/
namespace Ilang

/-! ## Queues that differ behind their first token -/

namespace Queue

/-- No token of some kinds comes next. -/
def Avoids (ahead : TokenKind → Bool) (q : Queue) : Prop :=
  ∀ k, q.head? = some k → ahead k = false

/-- Two queues have the same next token. -/
structure SameFront (q q' : Queue) : Prop where
  head : q'.head? = q.head?
  location : q'.location = q.location

/-- A rule that stops before `q` stops before `q'`, if it goes on with nothing but some kinds. -/
def Follows (ahead : TokenKind → Bool) (q q' : Queue) : Prop := q.SameFront q' ∨ q'.Avoids ahead

/-- The queue with some tokens before it, wherever they may stand. -/
def supply (kinds : List TokenKind) (q : Queue) : Queue :=
  q.prepend (kinds.map (⟨·, .unknown⟩))

variable {q q' : Queue} {ahead ahead' : TokenKind → Bool}

theorem SameFront.refl (q : Queue) : q.SameFront q := ⟨rfl, rfl⟩

theorem SameFront.prepend (h : q.SameFront q') (ts : List Token) :
    (q.prepend ts).SameFront (q'.prepend ts) := by
  cases ts with
  | nil => exact h
  | cons t ts => exact ⟨rfl, rfl⟩

theorem sameFront_prepend (q q' : Queue) {ts : List Token} (h : ts ≠ []) :
    (q.prepend ts).SameFront (q'.prepend ts) := by
  obtain ⟨t, ts, rfl⟩ := List.exists_cons_of_ne_nil h
  exact ⟨rfl, rfl⟩

theorem SameFront.unexpected (h : q.SameFront q') (expected : Expected) :
    q'.unexpected expected = q.unexpected expected := by
  obtain ⟨tokens, finish⟩ := q
  obtain ⟨tokens', finish'⟩ := q'
  obtain ⟨hhead, hlocation⟩ := h
  cases tokens with
  | nil =>
    cases tokens' with
    | nil => exact congrArg (ParseError.unexpectedEnd expected) hlocation
    | cons t ts => cases hhead
  | cons t ts =>
    cases tokens' with
    | nil => cases hhead
    | cons t' ts' =>
      have ht : t' = t := by
        obtain ⟨kind, l⟩ := t
        obtain ⟨kind', l'⟩ := t'
        cases hhead
        cases hlocation
        rfl
      rw [ht]
      rfl

theorem Avoids.mono (h : q.Avoids ahead') (hsub : ∀ k, ahead k = true → ahead' k = true) :
    q.Avoids ahead := by
  intro k hk
  cases hahead : ahead k with
  | false => rfl
  | true => exact (hsub k hahead).symm.trans (h k hk)

theorem Follows.mono (h : q.Follows ahead' q') (hsub : ∀ k, ahead k = true → ahead' k = true) :
    q.Follows ahead q' :=
  h.imp id fun hq => hq.mono hsub

theorem eq_nil_of_prepend {ts : List Token} (h : q.prepend ts = q) : ts = [] :=
  prepend_inj (h.trans q.prepend_nil.symm)

theorem supply_append (kinds others : List TokenKind) (q : Queue) :
    q.supply (kinds ++ others) = (q.supply others).supply kinds := by
  rw [supply, List.map_append, prepend_append]
  rfl

end Queue

/-- Some kinds may be what comes behind a rule that goes on with those of `ahead`. -/
def Clear (ahead ahead' : TokenKind → Bool) : List TokenKind → Prop
  | [] => ∀ k, ahead k = true → ahead' k = true
  | k :: _ => ahead k = false

theorem Clear.avoids {ahead ahead' : TokenKind → Bool} {kinds : List TokenKind}
    (h : Clear ahead ahead' kinds) {q : Queue} (hq : q.Avoids ahead') :
    (q.supply kinds).Avoids ahead := by
  cases kinds with
  | nil => exact hq.mono h
  | cons k kinds =>
    rintro _ ⟨⟩
    exact h

namespace Rule

variable {α β : Type}

/-! ## The notion -/

/-- Some tokens are all that a rule needs, if nothing behind them makes it go on. -/
def Fills (kinds : List TokenKind) (ahead : TokenKind → Bool) (s : Rule α) : Prop :=
  ∀ rest, rest.Avoids ahead → ∃ a, s (rest.supply kinds) = .ok a rest

/-- What `r` decides, `s` decides in the same way on each queue that looks the same to `r`. The two
are the same rule with different budgets. -/
structure Foresees (taking : Bool) (ahead : TokenKind → Bool) (r s : Rule α) : Prop where
  /-- Tokens are taken from the front, and the end of the text is not. -/
  front : ∀ q, ∃ taken, q = (r q).rest.prepend taken ∧ ∀ t ∈ taken, t.kind ≠ .endOfFile
  takes : taking = true → ∀ q a, r q ≠ .ok a q
  /-- Success depends on what is taken and on what cannot be behind it. -/
  ok : ∀ {taken rest a}, r (rest.prepend taken) = .ok a rest → ∀ rest', rest.Follows ahead rest' →
    s (rest'.prepend taken) = .ok a rest'
  expected : ∀ {q e rest}, r q = .error e rest → e.isBudget = false →
    ∃ expected, e = rest.unexpected expected
  /-- Failure depends on what is taken and on the next token. -/
  error : ∀ {taken rest e}, r (rest.prepend taken) = .error e rest → e.isBudget = false →
    ∀ rest', rest.SameFront rest' → s (rest'.prepend taken) = .error e rest'
  /-- What is taken before a failure can be completed. -/
  finish : ∀ {taken rest e}, r (rest.prepend taken) = .error e rest → e.isBudget = false →
    taken ≠ [] → ∀ rest', rest'.Avoids ahead → ∃ c a, s (rest'.prepend (taken ++ c)) = .ok a rest'

/-- A rule foresees, and some tokens are all that it needs. -/
structure Filled (kinds : List TokenKind) (ahead : TokenKind → Bool) (r s : Rule α) : Prop extends
    Foresees (!kinds.isEmpty) ahead r s where
  fills : Fills kinds ahead s

/-- A rule for queues with some next token. -/
def when (k : Option TokenKind) (r : Rule α) : Rule α := fun q =>
  if q.head? = k then r q else exhausted q

variable {taking : Bool} {ahead ahead' : TokenKind → Bool} {r s : Rule α} {f g : α → Rule β}

/-! ## Laws -/

theorem foresees_exhausted : Foresees taking ahead exhausted s where
  front := fun q => ⟨[], rfl, List.forall_mem_nil _⟩
  takes := nofun
  ok := nofun
  expected := by
    intro q e rest h hbudget
    rw [← (Outcome.error.inj h).1] at hbudget
    cases hbudget
  error := by
    intro taken rest e h hbudget
    rw [← (Outcome.error.inj h).1] at hbudget
    cases hbudget
  finish := by
    intro taken rest e h hbudget
    rw [← (Outcome.error.inj h).1] at hbudget
    cases hbudget

theorem Foresees.fail {expected : Expected} :
    Foresees taking ahead (fail expected : Rule α) (fail expected) where
  front := fun q => ⟨[], rfl, List.forall_mem_nil _⟩
  takes := nofun
  ok := nofun
  expected := by
    rintro q _ rest ⟨⟩ -
    exact ⟨expected, rfl⟩
  error := by
    intro taken rest e h hbudget rest' hfront
    obtain ⟨he, hrest⟩ := Outcome.error.inj h
    obtain rfl := Queue.eq_nil_of_prepend hrest
    obtain rfl := he
    exact congrArg (Outcome.error · rest') (hfront.unexpected expected)
  finish := by
    intro taken rest e h hbudget hne
    exact absurd (Queue.eq_nil_of_prepend (Outcome.error.inj h).2) hne

theorem Foresees.pure (a : α) : Foresees false ahead (Pure.pure a : Rule α) (Pure.pure a) where
  front := fun q => ⟨[], rfl, List.forall_mem_nil _⟩
  takes := nofun
  ok := by
    intro taken rest a h rest' hfollows
    obtain ⟨rfl, hrest⟩ := Outcome.ok.inj h
    obtain rfl := Queue.eq_nil_of_prepend hrest
    rfl
  expected := nofun
  error := nofun
  finish := nofun

theorem Filled.pure (a : α) : Filled [] ahead (Pure.pure a : Rule α) (Pure.pure a) :=
  ⟨.pure a, fun _ _ => ⟨a, rfl⟩⟩

/-- A rule may be another one on each queue. -/
theorem Foresees.of_cases (h : ∀ q, ∃ r', Foresees taking ahead r' s ∧ r q = r' q) :
    Foresees taking ahead r s where
  front := by
    intro q
    obtain ⟨r', hr', heq⟩ := h q
    rw [heq]
    exact hr'.front q
  takes := by
    intro ht q
    obtain ⟨r', hr', heq⟩ := h q
    rw [heq]
    exact hr'.takes ht q
  ok := by
    intro taken rest a hok
    obtain ⟨r', hr', heq⟩ := h (rest.prepend taken)
    exact hr'.ok (heq ▸ hok)
  expected := by
    intro q e rest herror
    obtain ⟨r', hr', heq⟩ := h q
    exact hr'.expected (heq ▸ herror)
  error := by
    intro taken rest e herror
    obtain ⟨r', hr', heq⟩ := h (rest.prepend taken)
    exact hr'.error (heq ▸ herror)
  finish := by
    intro taken rest e herror
    obtain ⟨r', hr', heq⟩ := h (rest.prepend taken)
    exact hr'.finish (heq ▸ herror)

theorem Foresees.when (h : Foresees taking ahead r s) (k : Option TokenKind) :
    Foresees taking ahead (r.when k) s := by
  refine .of_cases fun q => ?_
  by_cases hk : q.head? = k
  · exact ⟨r, h, if_pos hk⟩
  · exact ⟨exhausted, foresees_exhausted, if_neg hk⟩

theorem Foresees.mono (h : Foresees taking ahead r s)
    (hsub : ∀ k, ahead k = true → ahead' k = true) : Foresees taking ahead' r s where
  front := h.front
  takes := h.takes
  ok := fun hok rest' hfollows => h.ok hok rest' (hfollows.mono hsub)
  expected := h.expected
  error := h.error
  finish := fun herror hbudget hne rest' hrest => h.finish herror hbudget hne rest' (hrest.mono hsub)

theorem Foresees.front_ok (h : Foresees taking ahead r s) {q rest : Queue} {a : α}
    (hok : r q = .ok a rest) : ∃ taken, q = rest.prepend taken ∧ ∀ t ∈ taken, t.kind ≠ .endOfFile := by
  have hfront := h.front q
  rwa [hok] at hfront

theorem Foresees.front_error (h : Foresees taking ahead r s) {q rest : Queue} {e : ParseError}
    (herror : r q = .error e rest) :
    ∃ taken, q = rest.prepend taken ∧ ∀ t ∈ taken, t.kind ≠ .endOfFile := by
  have hfront := h.front q
  rwa [herror] at hfront

theorem Foresees.location {f g : Location → Rule β} (h : ∀ l, Foresees true ahead (f l) (g l)) :
    Foresees true ahead (location >>= f) (location >>= g) where
  front := fun q => (h q.location).front q
  takes := fun _ q => (h q.location).takes rfl q
  ok := by
    intro taken rest a hok rest' hfollows
    -- A token was taken, and it is the first one before any other rest.
    have hne : taken ≠ [] := by
      rintro rfl
      exact (h rest.location).takes rfl rest a hok
    have hsame := (Queue.sameFront_prepend rest rest' hne).location
    change g (rest'.prepend taken).location (rest'.prepend taken) = _
    rw [hsame]
    exact (h _).ok hok rest' hfollows
  expected := fun {q} => (h q.location).expected
  error := by
    intro taken rest e herror hbudget rest' hfront
    change g (rest'.prepend taken).location (rest'.prepend taken) = _
    rw [(hfront.prepend taken).location]
    exact (h _).error herror hbudget rest' hfront
  finish := by
    intro taken rest e herror hbudget hne rest' hrest
    obtain ⟨c, a, hfinish⟩ := (h _).finish herror hbudget hne rest' hrest
    refine ⟨c, a, ?_⟩
    have hsame : (rest'.prepend (taken ++ c)).location = (rest.prepend taken).location := by
      rw [Queue.prepend_append]
      exact (Queue.sameFront_prepend rest _ hne).location
    change g (rest'.prepend (taken ++ c)).location (rest'.prepend (taken ++ c)) = _
    rw [hsame]
    exact hfinish

section Sequence

variable {kinds : List TokenKind} (hr : Foresees taking ahead r s)
  (hf : ∀ a, Filled kinds ahead' (f a) (g a))
include hr hf

/-- Each of two rules takes a part of the tokens. -/
theorem split_ok {taken : List Token} {rest : Queue} {b : β}
    (h : (r >>= f) (rest.prepend taken) = .ok b rest) : ∃ ts us a, taken = ts ++ us ∧
      r ((rest.prepend us).prepend ts) = .ok a (rest.prepend us) ∧
      f a (rest.prepend us) = .ok b rest := by
  obtain ⟨a, mid, hra, hfa⟩ := bind_eq_ok h
  obtain ⟨ts, hts, -⟩ := hr.front_ok hra
  obtain ⟨us, rfl, -⟩ := (hf a).front_ok hfa
  rw [← Queue.prepend_append] at hts
  obtain rfl := Queue.prepend_inj hts
  rw [Queue.prepend_append] at hra
  exact ⟨ts, us, a, rfl, hra, hfa⟩

theorem split_error {taken : List Token} {rest : Queue} {e : ParseError}
    (h : (r >>= f) (rest.prepend taken) = .error e rest) :
    r (rest.prepend taken) = .error e rest ∨ ∃ ts us a, taken = ts ++ us ∧
      r ((rest.prepend us).prepend ts) = .ok a (rest.prepend us) ∧
      f a (rest.prepend us) = .error e rest := by
  rcases bind_eq_error h with hre | ⟨a, mid, hra, hfa⟩
  · exact .inl hre
  · obtain ⟨ts, hts, -⟩ := hr.front_ok hra
    obtain ⟨us, rfl, -⟩ := (hf a).front_error hfa
    rw [← Queue.prepend_append] at hts
    obtain rfl := Queue.prepend_inj hts
    rw [Queue.prepend_append] at hra
    exact .inr ⟨ts, us, a, rfl, hra, hfa⟩

end Sequence

/-- What the second of two rules takes follows the first one. -/
theorem Filled.follows {kinds : List TokenKind} (h : Filled kinds ahead' r s)
    (hclear : Clear ahead ahead' kinds) {us : List Token} {rest rest' : Queue} {a : α}
    (hok : r (rest.prepend us) = .ok a rest) (hfollows : rest.Follows ahead' rest') :
    (rest.prepend us).Follows ahead (rest'.prepend us) := by
  cases us with
  | cons u us => exact .inl (Queue.sameFront_prepend rest rest' (List.cons_ne_nil u us))
  | nil =>
    cases kinds with
    | nil => exact hfollows.mono hclear
    | cons k kinds => exact absurd hok (h.takes rfl rest a)

/-- One rule after another. The tokens that the second one needs must not make the first one go
on. -/
theorem Foresees.bind (kinds : List TokenKind) (hr : Foresees taking ahead r s)
    (hf : ∀ a, Filled kinds ahead' (f a) (g a)) (hclear : Clear ahead ahead' kinds) :
    Foresees taking ahead' (r >>= f) (s >>= g) where
  front := by
    intro q
    cases hrun : r q with
    | error e rest =>
      rw [bind_of_error hrun]
      exact hr.front_error hrun
    | ok a mid =>
      rw [bind_of_ok hrun]
      obtain ⟨ts, hts, htsEnd⟩ := hr.front_ok hrun
      obtain ⟨us, hus, husEnd⟩ := (hf a).front mid
      refine ⟨ts ++ us, ?_, List.forall_mem_append.2 ⟨htsEnd, husEnd⟩⟩
      rw [Queue.prepend_append, ← hus]
      exact hts
  takes := by
    intro ht q b hok
    rw [← q.prepend_nil] at hok
    obtain ⟨ts, us, a, hnil, hra, hfa⟩ := split_ok hr hf hok
    obtain ⟨rfl, rfl⟩ := List.append_eq_nil_iff.1 hnil.symm
    exact hr.takes ht q a hra
  ok := by
    intro taken rest b hok rest' hfollows
    obtain ⟨ts, us, a, rfl, hra, hfa⟩ := split_ok hr hf hok
    have hmid := (hf a).follows hclear hfa hfollows
    rw [Queue.prepend_append, bind_of_ok (hr.ok hra _ hmid)]
    exact (hf a).ok hfa rest' hfollows
  expected := by
    intro q e rest herror
    rcases bind_eq_error herror with hre | ⟨a, mid, hra, hfa⟩
    · exact hr.expected hre
    · exact (hf a).expected hfa
  error := by
    intro taken rest e herror hbudget rest' hfront
    rcases split_error hr hf herror with hre | ⟨ts, us, a, rfl, hra, hfa⟩
    · exact bind_of_error (hr.error hre hbudget rest' hfront)
    · rw [Queue.prepend_append, bind_of_ok (hr.ok hra _ (.inl (hfront.prepend us)))]
      exact (hf a).error hfa hbudget rest' hfront
  finish := by
    intro taken rest e herror hbudget hne rest' hrest
    rcases split_error hr hf herror with hre | ⟨ts, us, a, rfl, hra, hfa⟩
    · -- The first rule is completed, and the second one starts with nothing.
      obtain ⟨c, a, hc⟩ := hr.finish hre hbudget hne (rest'.supply kinds) (hclear.avoids hrest)
      obtain ⟨b, hb⟩ := (hf a).fills rest' hrest
      refine ⟨c ++ kinds.map (⟨·, .unknown⟩), b, ?_⟩
      rw [← List.append_assoc, Queue.prepend_append]
      exact (bind_of_ok hc).trans hb
    · by_cases hus : us = []
      · -- The first rule ended before a token of no use to the second one.
        obtain rfl := hus
        have hmid : rest.Follows ahead (rest'.supply kinds) := .inr (hclear.avoids hrest)
        obtain ⟨b, hb⟩ := (hf a).fills rest' hrest
        refine ⟨kinds.map (⟨·, .unknown⟩), b, ?_⟩
        rw [List.append_nil, Queue.prepend_append]
        exact (bind_of_ok (hr.ok hra _ hmid)).trans hb
      · obtain ⟨c, b, hc⟩ := (hf a).finish hfa hbudget hus rest' hrest
        have hmid : (rest.prepend us).Follows ahead (rest'.prepend (us ++ c)) := by
          rw [Queue.prepend_append]
          exact .inl (Queue.sameFront_prepend rest _ hus)
        refine ⟨c, b, ?_⟩
        rw [List.append_assoc, Queue.prepend_append]
        exact (bind_of_ok (hr.ok hra _ hmid)).trans hc

theorem Fills.bind {kinds others : List TokenKind} (hs : Fills kinds ahead s)
    (hg : ∀ a, Fills others ahead' (g a)) (hclear : Clear ahead ahead' others) :
    Fills (kinds ++ others) ahead' (s >>= g) := by
  intro rest hrest
  obtain ⟨a, ha⟩ := hs (rest.supply others) (hclear.avoids hrest)
  obtain ⟨b, hb⟩ := hg a rest hrest
  refine ⟨b, ?_⟩
  rw [Queue.supply_append]
  exact (bind_of_ok ha).trans hb

theorem Filled.bind {k : TokenKind} {kinds : List TokenKind} (others : List TokenKind)
    (hr : Filled (k :: kinds) ahead r s) (hf : ∀ a, Filled others ahead' (f a) (g a))
    (hclear : Clear ahead ahead' others) :
    Filled (k :: kinds ++ others) ahead' (r >>= f) (s >>= g) :=
  ⟨hr.toForesees.bind others hf hclear, hr.fills.bind (fun a => (hf a).fills) hclear⟩

theorem Filled.map {kinds : List TokenKind} {φ : α → β} (hr : Filled kinds ahead r s) :
    Filled kinds ahead (r >>= fun a => Pure.pure (φ a)) (s >>= fun a => Pure.pure (φ a)) where
  toForesees := hr.toForesees.bind [] (fun a => .pure (φ a)) fun _ h => h
  fills := by
    have h := hr.fills.bind (fun a => (Filled.pure (φ a)).fills) fun _ h => h
    rwa [List.append_nil] at h

theorem Foresees.length_error (h : Foresees taking ahead r s) {q rest : Queue} {e : ParseError}
    (herror : r q = .error e rest) : rest.tokens.length ≤ q.tokens.length := by
  obtain ⟨taken, rfl, -⟩ := h.front_error herror
  simp

theorem Foresees.length_lt (h : Foresees true ahead r s) {q rest : Queue} {a : α}
    (hok : r q = .ok a rest) : rest.tokens.length < q.tokens.length := by
  obtain ⟨taken, rfl, -⟩ := h.front_ok hok
  cases taken with
  | nil => exact absurd hok (h.takes rfl rest a)
  | cons t ts =>
    rw [Queue.prepend_tokens, List.length_append, List.length_cons]
    omega

/-- A rule with more budget does the same, if the budget was enough. -/
theorem Foresees.same_outcome (h : Foresees taking ahead r s) {q : Queue}
    (hbudget : ∀ e rest, r q = .error e rest → e.isBudget = false) : s q = r q := by
  cases hrun : r q with
  | ok a rest =>
    obtain ⟨taken, rfl, -⟩ := h.front_ok hrun
    exact h.ok hrun rest (.inl (.refl rest))
  | error e rest =>
    obtain ⟨taken, rfl, -⟩ := h.front_error hrun
    exact h.error hrun (hbudget e rest hrun) rest (.refl rest)

theorem Filled.mono {kinds : List TokenKind} (h : Filled kinds ahead r s)
    (hsub : ∀ k, ahead k = true → ahead' k = true) : Filled kinds ahead' r s :=
  ⟨h.toForesees.mono hsub, fun rest hrest => h.fills rest (hrest.mono hsub)⟩

/-- No token is looked for. -/
def nothing : TokenKind → Bool := fun _ => false

theorem clear_nothing : Clear nothing ahead [] := by
  intro k hk
  cases hk

theorem Filled.of_nothing {kinds : List TokenKind} (h : Filled kinds nothing r s) :
    Filled kinds ahead r s :=
  h.mono clear_nothing

/-! ## Laws of looking ahead -/

theorem when_head (r : Rule α) (q : Queue) : r.when q.head? q = r q := if_pos rfl

/-- Looking at the next token. What takes nothing must do the same whatever follows. -/
theorem Foresees.peek {f g : Option TokenKind → Rule β}
    (h : ∀ k, Foresees taking ahead ((f k).when k) (g k))
    (hidle : ∀ q a, f q.head? q = .ok a q → ∀ q', q.Follows ahead q' → g q'.head? q' = .ok a q') :
    Foresees taking ahead (Rule.peek >>= f) (Rule.peek >>= g) := by
  have hat : ∀ q, (Rule.peek >>= f) q = (f q.head?).when q.head? q :=
    fun q => (when_head (f q.head?) q).symm
  exact {
    front := by
      intro q
      rw [hat]
      exact (h q.head?).front q
    takes := by
      intro ht q
      rw [hat]
      exact (h q.head?).takes ht q
    ok := by
      intro taken rest a hok rest' hfollows
      change g (rest'.prepend taken).head? (rest'.prepend taken) = _
      by_cases hne : taken = []
      · obtain rfl := hne
        exact hidle rest a hok rest' hfollows
      · rw [hat] at hok
        rw [(Queue.sameFront_prepend rest rest' hne).head]
        exact (h _).ok hok rest' hfollows
    expected := by
      intro q e rest herror
      rw [hat] at herror
      exact (h q.head?).expected herror
    error := by
      intro taken rest e herror hbudget rest' hfront
      rw [hat] at herror
      change g (rest'.prepend taken).head? (rest'.prepend taken) = _
      rw [(hfront.prepend taken).head]
      exact (h _).error herror hbudget rest' hfront
    finish := by
      intro taken rest e herror hbudget hne rest' hrest
      rw [hat] at herror
      obtain ⟨c, a, hc⟩ := (h _).finish herror hbudget hne rest' hrest
      refine ⟨c, a, ?_⟩
      have hsame : (rest'.prepend (taken ++ c)).head? = (rest.prepend taken).head? := by
        rw [Queue.prepend_append]
        exact (Queue.sameFront_prepend rest _ hne).head
      change g (rest'.prepend (taken ++ c)).head? (rest'.prepend (taken ++ c)) = _
      rw [hsame]
      exact hc }

/-- A rule that takes what it sees decides by it. -/
theorem Foresees.choose {f g : Option TokenKind → Rule β}
    (h : ∀ k, Foresees true ahead ((f k).when k) (g k)) :
    Foresees true ahead (Rule.peek >>= f) (Rule.peek >>= g) := by
  refine .peek h fun q a hok => ?_
  rw [← when_head (f q.head?)] at hok
  exact absurd hok ((h q.head?).takes rfl q a)

/-- What is given if the next token is of no use. -/
def Idles (ahead : TokenKind → Bool) (f g : Option TokenKind → Rule β) (k : Option TokenKind) :
    Prop :=
  ∃ b, f k = Pure.pure b ∧ g k = Pure.pure b ∧
    ∀ q : Queue, q.Avoids ahead → g q.head? = Pure.pure b

/-- A rule that takes what it sees, or nothing if that is of no use. -/
theorem Foresees.option {f g : Option TokenKind → Rule β}
    (h : ∀ k, Foresees true ahead ((f k).when k) (g k) ∨ Idles ahead f g k) :
    Foresees false ahead (Rule.peek >>= f) (Rule.peek >>= g) := by
  refine .peek (fun k => ?_) fun q b hok q' hfollows => ?_
  · rcases h k with htakes | ⟨b, hf, hg, -⟩
    · exact { htakes with takes := nofun }
    · rw [hf, hg]
      exact (Foresees.pure b).when k
  · rcases h q.head? with htakes | ⟨b', hf, hg, havoids⟩
    · rw [← when_head (f q.head?)] at hok
      exact absurd hok (htakes.takes rfl q b)
    · have hgq : g q'.head? = Pure.pure b' := by
        rcases hfollows with hsame | hq'
        · rw [hsame.head, hg]
        · exact havoids q' hq'
      rw [hf] at hok
      obtain ⟨rfl, -⟩ := Outcome.ok.inj hok
      rw [hgq]
      rfl

/-- Something that begins with a given token and may be missing. -/
theorem Filled.optional {kind : TokenKind} {r s : Rule β} {b : β} (hahead : ahead kind = true)
    (h : Foresees true ahead (r.when (some kind)) s) :
    Filled [] ahead (Rule.peek >>= fun k => if k = some kind then r else Pure.pure b)
      (Rule.peek >>= fun k => if k = some kind then s else Pure.pure b) := by
  have hmissing : ∀ q : Queue, q.Avoids ahead → q.head? ≠ some kind := by
    intro q hq hk
    rw [hq kind hk] at hahead
    cases hahead
  constructor
  · refine .option fun k => ?_
    by_cases hk : k = some kind
    · obtain rfl := hk
      rw [if_pos rfl, if_pos rfl]
      exact .inl h
    · exact .inr ⟨b, if_neg hk, if_neg hk, fun q hq => if_neg (hmissing q hq)⟩
  · exact fun rest hrest => ⟨b, congrFun (if_neg (hmissing rest hrest)) rest⟩

/-- A rule for queues that begin with tokens of some kinds, which are taken. -/
def after (kinds : List TokenKind) (r : Rule α) : Rule α := fun q =>
  if kinds <+: q.tokens.map Token.kind then r ⟨q.tokens.drop kinds.length, q.finish⟩
  else exhausted q

theorem after_prepend {kinds : List TokenKind} {ts : List Token} (h : ts.map Token.kind = kinds)
    (r : Rule α) (q : Queue) : r.after kinds (q.prepend ts) = r q := by
  obtain rfl := h
  have hdrop : (ts ++ q.tokens).drop (ts.map Token.kind).length = q.tokens := by simp
  have hbegins : ts.map Token.kind <+: (ts ++ q.tokens).map Token.kind := by simp
  refine (if_pos hbegins).trans ?_
  rw [Queue.prepend_tokens, hdrop]
  rfl

/-- What is taken behind known tokens. -/
theorem after_cases (h : Foresees taking ahead r s) (kinds : List TokenKind) (q : Queue) :
    r.after kinds q = exhausted q ∨ ∃ ts us rest, ts.map Token.kind = kinds ∧
      q = rest.prepend (ts ++ us) ∧ r.after kinds q = r (rest.prepend us) ∧
      (r.after kinds q).rest = rest ∧ ∀ t ∈ us, t.kind ≠ .endOfFile := by
  by_cases hbegins : kinds <+: q.tokens.map Token.kind
  · right
    obtain ⟨ts, behind, hsplit, hts, -⟩ := List.map_eq_append_iff.1 hbegins.choose_spec.symm
    have hq : q = (⟨behind, q.finish⟩ : Queue).prepend ts := by
      rw [Queue.prepend, ← hsplit]
    have hrun := after_prepend hts r ⟨behind, q.finish⟩
    rw [← hq] at hrun
    obtain ⟨us, hus, hend⟩ := h.front ⟨behind, q.finish⟩
    refine ⟨ts, us, _, hts, ?_, ?_, congrArg Outcome.rest hrun, hend⟩
    · rw [Queue.prepend_append, ← hus]
      exact hq
    · rw [← hus]
      exact hrun
  · exact .inl (if_neg hbegins)

/-- What is taken starts with the known tokens. -/
theorem after_split (h : Foresees taking ahead r s) {kinds : List TokenKind} {taken : List Token}
    {rest : Queue} {o : Outcome α} (hrun : r.after kinds (rest.prepend taken) = o)
    (hrest : o.rest = rest) : exhausted (rest.prepend taken) = o ∨
      ∃ ts us, taken = ts ++ us ∧ ts.map Token.kind = kinds ∧ r (rest.prepend us) = o := by
  rcases after_cases h kinds (rest.prepend taken) with hnone | ⟨ts, us, rest₀, hts, hq, hr, hr₀, -⟩
  · exact .inl (hnone.symm.trans hrun)
  · rw [hrun, hrest] at hr₀
    obtain rfl := hr₀
    exact .inr ⟨ts, us, Queue.prepend_inj hq, hts, hr.symm.trans hrun⟩

theorem Foresees.after {kinds needed : List TokenKind} {s' : Rule α} (hne : kinds ≠ [])
    (hend : .endOfFile ∉ kinds) (h : Filled needed ahead r s)
    (hs : ∀ ts q, ts.map Token.kind = kinds → s' (q.prepend ts) = s q) :
    Foresees true ahead (r.after kinds) s' := by
  have hnothing : Foresees true ahead exhausted s' := foresees_exhausted
  exact {
    front := by
      intro q
      rcases after_cases h.toForesees kinds q with hrun | ⟨ts, us, rest, hts, hq, -, hrest, hus⟩
      · rw [hrun]
        exact hnothing.front q
      · rw [hrest]
        refine ⟨ts ++ us, hq, List.forall_mem_append.2 ⟨fun t ht heq => hend ?_, hus⟩⟩
        rw [← hts, ← heq]
        exact List.mem_map_of_mem ht
    takes := by
      intro _ q a hok
      rw [← q.prepend_nil] at hok
      rcases after_split h.toForesees hok rfl with hnone | ⟨ts, us, hnil, hts, -⟩
      · cases hnone
      · obtain ⟨rfl, -⟩ := List.append_eq_nil_iff.1 hnil.symm
        exact hne hts.symm
    ok := by
      intro taken rest a hok rest' hfollows
      rcases after_split h.toForesees hok rfl with hnone | ⟨ts, us, rfl, hts, hok⟩
      · cases hnone
      · rw [Queue.prepend_append, hs ts _ hts]
        exact h.ok hok rest' hfollows
    expected := by
      intro q e rest herror hbudget
      rcases after_cases h.toForesees kinds q with hrun | ⟨ts, us, rest₀, hts, hq, hrun, -⟩
      · exact hnothing.expected (hrun ▸ herror) hbudget
      · exact h.expected (hrun ▸ herror) hbudget
    error := by
      intro taken rest e herror hbudget rest' hfront
      rcases after_split h.toForesees herror rfl with hnone | ⟨ts, us, rfl, hts, herror⟩
      · exact hnothing.error hnone hbudget rest' hfront
      · rw [Queue.prepend_append, hs ts _ hts]
        exact h.error herror hbudget rest' hfront
    finish := by
      intro taken rest e herror hbudget htaken rest' hrest'
      rcases after_split h.toForesees herror rfl with hnone | ⟨ts, us, rfl, hts, herror⟩
      · exact hnothing.finish hnone hbudget htaken rest' hrest'
      · by_cases hnil : us = []
        · -- The known tokens are all that was taken, so all that is needed is missing.
          obtain ⟨a, ha⟩ := h.fills rest' hrest'
          refine ⟨needed.map (⟨·, .unknown⟩), a, ?_⟩
          rw [hnil, List.append_nil, Queue.prepend_append, hs ts _ hts]
          exact ha
        · obtain ⟨c, a, hc⟩ := h.finish herror hbudget hnil rest' hrest'
          refine ⟨c, a, ?_⟩
          rw [List.append_assoc, Queue.prepend_append, hs ts _ hts]
          exact hc }

theorem when_skip (kind : TokenKind) (f : Unit → Rule β) :
    (skip >>= f).when (some kind) = (f ()).after [kind] := by
  funext q
  by_cases hk : q.head? = some kind
  · have hsplit := Queue.eq_prepend_of_head? hk
    have hkinds : [(⟨kind, q.location⟩ : Token)].map Token.kind = [kind] := rfl
    refine (if_pos hk).trans ?_
    rw [hsplit]
    exact (after_prepend hkinds (f ()) q.tail).symm
  · have hbegins : ¬ [kind] <+: q.tokens.map Token.kind := by
      rintro ⟨others, hothers⟩
      refine hk ?_
      rw [Queue.head?, ← List.head?_map, ← hothers]
      rfl
    exact (if_neg hk).trans (if_neg hbegins).symm

/-- Taking the next token, whose kind is known. -/
theorem Foresees.skip {kind : TokenKind} {needed : List TokenKind} {f g : Unit → Rule β}
    (hkind : kind ≠ .endOfFile) (h : Filled needed ahead (f ()) (g ())) :
    Foresees true ahead ((Rule.skip >>= f).when (some kind)) (Rule.skip >>= g) := by
  rw [when_skip]
  refine .after (List.cons_ne_nil _ _) (by simpa using hkind.symm) h fun ts q hts => ?_
  obtain ⟨t, rfl, -⟩ := List.map_eq_singleton_iff.1 hts
  rfl

theorem expect_eq (kind : TokenKind) (construct : Construct) : expect kind construct = (do
    let k ← peek
    if k = some kind then skip else fail (.token kind construct)) := by
  funext q
  rw [peek_bind]
  unfold expect
  split <;> rfl

theorem accept_bind (kind : TokenKind) (f : Bool → Rule β) : (accept kind >>= f) = (do
    let k ← peek
    if k = some kind then
      skip
      f true
    else
      f false) := by
  funext q
  rw [peek_bind]
  by_cases hk : q.head? = some kind
  · have haccept : accept kind q = .ok true q.tail := if_pos hk
    rw [bind_of_ok haccept, if_pos hk]
    rfl
  · have haccept : accept kind q = .ok false q := if_neg hk
    rw [bind_of_ok haccept, if_neg hk]

theorem Filled.expect (kind : TokenKind) (hkind : kind ≠ .endOfFile) (construct : Construct) :
    Filled [kind] nothing (Rule.expect kind construct) (Rule.expect kind construct) where
  toForesees := by
    rw [expect_eq]
    refine .choose fun k => ?_
    split
    · rename_i hk
      obtain rfl := hk
      exact .skip hkind (.pure ())
    · exact Foresees.fail.when k
  fills := fun rest _ => ⟨(), if_pos rfl⟩

/-- A rule for queues with some next token, if no token of another kind is behind that. -/
def barring (kind second : TokenKind) (r : Rule α) : Rule α := fun q =>
  if q.head? = some kind ∧ q.tail.head? ≠ some second then r q else exhausted q

/-- Before a rule fails on a queue with some next token, it has taken a number of tokens. -/
def Commits (kind : TokenKind) (count : Nat) (r : Rule α) : Prop :=
  ∀ q e rest, q.head? = some kind → r q = .error e rest → e.isBudget = false →
    rest.tokens.length + count ≤ q.tokens.length

theorem Commits.two {kind : TokenKind} (h : r.Commits kind 2) {taken : List Token} {rest : Queue}
    {e : ParseError} (hkind : (rest.prepend taken).head? = some kind)
    (herror : r (rest.prepend taken) = .error e rest) (hbudget : e.isBudget = false) :
    ∃ t u us, taken = t :: u :: us := by
  have hlength := h _ e rest hkind herror hbudget
  rw [Queue.prepend_tokens, List.length_append] at hlength
  match taken with
  | t :: u :: us => exact ⟨t, u, us, rfl⟩
  | [] | [_] =>
    simp only [List.length_cons, List.length_nil] at hlength
    omega

/-- A rule must not stop in front of what may not come second, or fail before it has seen that it
does not. -/
theorem Foresees.barring {kind second : TokenKind} {s' : Rule α} (hr : Foresees true ahead r s)
    (hahead : ahead second = true)
    (hcommits : r.Commits kind 2)
    (hs : ∀ q, q.tail.head? ≠ some second → s' q = s q) :
    Foresees true ahead (r.barring kind second) s' := by
  have hnothing : Foresees true ahead exhausted s' := foresees_exhausted
  exact {
    front := by
      intro q
      unfold Rule.barring
      split
      · exact hr.front q
      · exact hnothing.front q
    takes := by
      intro _ q
      unfold Rule.barring
      split
      · exact hr.takes rfl q
      · exact hnothing.takes rfl q
    ok := by
      intro taken rest a hok rest' hfollows
      unfold Rule.barring at hok
      split at hok
      · rename_i hguard
        cases taken with
        | nil => exact absurd hok (hr.takes rfl rest a)
        | cons t us =>
          rw [hs]
          · exact hr.ok hok rest' hfollows
          · have hsecond : (rest.prepend us).head? ≠ some second := hguard.2
            change (rest'.prepend us).head? ≠ some second
            cases us with
            | cons u us => exact hsecond
            | nil =>
              -- The second token is the next one, so it matters what may follow.
              rcases hfollows with hsame | havoids
              · rw [Queue.prepend_nil, hsame.head]
                exact hsecond
              · intro heq
                rw [havoids second heq] at hahead
                cases hahead
      · cases hok
    expected := by
      intro q e rest herror
      unfold Rule.barring at herror
      split at herror
      · exact hr.expected herror
      · exact hnothing.expected herror
    error := by
      intro taken rest e herror hbudget rest' hfront
      unfold Rule.barring at herror
      split at herror
      · rename_i hguard
        obtain ⟨t, u, us, rfl⟩ := hcommits.two hguard.1 herror hbudget
        exact (hs (rest'.prepend (t :: u :: us)) hguard.2).trans
          (hr.error herror hbudget rest' hfront)
      · exact hnothing.error herror hbudget rest' hfront
    finish := by
      intro taken rest e herror hbudget hne rest' hrest'
      unfold Rule.barring at herror
      split at herror
      · rename_i hguard
        obtain ⟨t, u, us, rfl⟩ := hcommits.two hguard.1 herror hbudget
        obtain ⟨c, a, hc⟩ := hr.finish herror hbudget hne rest' hrest'
        exact ⟨c, a, (hs (rest'.prepend (t :: u :: us ++ c)) hguard.2).trans hc⟩
      · exact hnothing.finish herror hbudget hne rest' hrest' }

/-- Taking two tokens if the second one is of a given kind, and trying a rule otherwise. -/
theorem Foresees.peekSecond {kind second : TokenKind} {needed : List TokenKind}
    {f g : Unit → Rule α} (hkind : kind ≠ .endOfFile) (hsecond : second ≠ .endOfFile)
    (hf : Filled needed ahead (f ()) (g ())) (hr : Foresees true ahead r s)
    (hahead : ahead second = true) (hcommits : r.Commits kind 2) :
    Foresees true ahead
      ((Rule.peekSecond >>= fun k' =>
        if k' = some second then Rule.skip >>= fun _ => Rule.skip >>= f else r).when (some kind))
      (Rule.peekSecond >>= fun k' =>
        if k' = some second then Rule.skip >>= fun _ => Rule.skip >>= g else s) := by
  have hboth : Foresees true ahead ((f ()).after [kind, second]) (Rule.peekSecond >>= fun k' =>
      if k' = some second then Rule.skip >>= fun _ => Rule.skip >>= g else s) := by
    refine .after (List.cons_ne_nil _ _) (by simp [hkind.symm, hsecond.symm]) hf ?_
    intro ts q hts
    obtain ⟨t, us, rfl, -, hus⟩ := List.map_eq_cons_iff.1 hts
    obtain ⟨u, rfl, hu⟩ := List.map_eq_singleton_iff.1 hus
    change (if (some u.kind) = some second then Rule.skip >>= fun _ => Rule.skip >>= g else s) _ = _
    rw [if_pos (congrArg some hu)]
    rfl
  have hother : Foresees true ahead (r.barring kind second) (Rule.peekSecond >>= fun k' =>
      if k' = some second then Rule.skip >>= fun _ => Rule.skip >>= g else s) :=
    hr.barring hahead hcommits fun q hq => congrFun (if_neg hq) q
  refine .of_cases fun q => ?_
  by_cases hk : q.head? = some kind
  · by_cases hs : q.tail.head? = some second
    · refine ⟨_, hboth, (if_pos hk).trans ((congrFun (if_pos hs) q).trans ?_)⟩
      have hkinds : [(⟨kind, q.location⟩ : Token), ⟨second, q.tail.location⟩].map Token.kind =
          [kind, second] := rfl
      have hq : q = q.tail.tail.prepend [⟨kind, q.location⟩, ⟨second, q.tail.location⟩] := by
        rw [← List.singleton_append, Queue.prepend_append, ← Queue.eq_prepend_of_head? hs]
        exact Queue.eq_prepend_of_head? hk
      rw [hq]
      exact (after_prepend hkinds (f ()) q.tail.tail).symm
    · refine ⟨_, hother, (if_pos hk).trans ((congrFun (if_neg hs) q).trans ?_)⟩
      exact (if_pos ⟨hk, hs⟩).symm
  · exact ⟨exhausted, foresees_exhausted, if_neg hk⟩

end Rule

end Ilang
