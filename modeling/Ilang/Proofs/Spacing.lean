import Ilang.Compilation
import Ilang.Proofs.Erasure
/-!
# Sources that differ in spacing

Two sources whose tokens are of the same kinds differ in white space, comments and the name of the
file at most. They are compiled alike (`alike_of_kinds`): the grammar decides by the kinds of tokens
(`parse_alike`), so both give the same program but for its locations, and no pass behind the grammar
asks for these.
-/
namespace Ilang

namespace Grammar

open Rule

theorem relocates_external (n : Nat) : Relocates External.unlocated (external n) (external n) := by
  rw [external_eq]
  exact (relocates_heading n).bind fun e e' he => .accept fun _ => .pure he

/-- Declarations without locations. -/
def unlocatedDeclarations (r : List Function × List External) : List Function × List External :=
  (r.1.map Function.unlocated, r.2.map External.unlocated)

theorem relocates_declarations (n : Nat) :
    Relocates unlocatedDeclarations (declarations n) (declarations n) := by
  induction n with
  | zero => exact relocates_exhausted
  | succ n ih =>
    rw [declarations_succ]
    refine .peek fun k => ?_
    split
    · exact .pure rfl
    split
    · refine (relocates_external n).bind fun e e' he => ih.bind ?_
      rintro ⟨fs, es⟩ ⟨fs', es'⟩ h
      obtain ⟨hfs, hes⟩ := Prod.mk.inj h
      refine .pure ?_
      simp only [unlocatedDeclarations, List.map_cons, he, hfs, hes]
    · refine (relocates_function n).bind fun f f' hf => ih.bind ?_
      rintro ⟨fs, es⟩ ⟨fs', es'⟩ h
      obtain ⟨hfs, hes⟩ := Prod.mk.inj h
      refine .pure ?_
      simp only [unlocatedDeclarations, List.map_cons, hf, hfs, hes]

theorem budget_eq_of_kinds {q q' : Queue} (h : q.kinds = q'.kinds) : budget q = budget q' := by
  have hlength : q.tokens.length = q'.tokens.length := by
    simpa [Queue.kinds] using congrArg List.length h
  rw [budget, budget, hlength]

theorem relocates_program : Relocates Program.erased program program := by
  have hdeclarations : Relocates unlocatedDeclarations (withBudget declarations)
      (withBudget declarations) := by
    intro q q' hq
    -- The budget depends on the number of tokens, which is the same.
    unfold withBudget
    rw [budget_eq_of_kinds hq]
    exact relocates_declarations _ q q' hq
  refine hdeclarations.bind ?_
  rintro ⟨fs, es⟩ ⟨fs', es'⟩ h
  obtain ⟨hfs, hes⟩ := Prod.mk.inj h
  refine .pure ?_
  simp only [Program.erased, Program.unlocated, hfs, hes]

end Grammar

/-- Tokens of the same kinds make the same program or the same error, but for locations. -/
theorem parse_alike {ts ts' : List Token} (h : ts'.map Token.kind = ts.map Token.kind) :
    (∃ e e', parse ts = .error e ∧ parse ts' = .error e' ∧ e'.unlocated = e.unlocated) ∨
      ∃ p p', parse ts = .ok p ∧ parse ts' = .ok p' ∧ p'.erased = p.erased := by
  have hsame := Grammar.relocates_program (.ofTokens ts) (.ofTokens ts') h.symm
  unfold parse
  generalize Grammar.program (.ofTokens ts) = read, Grammar.program (.ofTokens ts') = read'
    at hsame ⊢
  cases hsame with
  | ok hp => exact .inr ⟨_, _, rfl, rfl, hp⟩
  | error he => exact .inl ⟨_, _, rfl, rfl, he⟩

/-- An error without its location reads the same. -/
theorem ParseError.message_unlocated (e : ParseError) : e.unlocated.message = e.message := by
  cases e <;> rfl

/-- The assembly of two programs is the same and took the same labels, or neither has any, for the
same reason but for where it is. -/
inductive Generation.Alike (g g' : Generation) : Prop
  | ok (a : Assembly) (labels : Labels) (h : g.result = .ok (a, labels))
    (h' : g'.result = .ok (a, labels))
  | error (e e' : GenError) (h : g.result = .error e) (h' : g'.result = .error e')
    (hsame : e'.unlocated = e.unlocated)

theorem Program.generate_alike {p p' : Program} (h : p'.erased = p.erased) (options : GenOptions) :
    (p.generate options).Alike (p'.generate options) := by
  have hresult : (p'.generate options).result.mapError GenError.unlocated =
      (p.generate options).result.mapError GenError.unlocated := by
    rw [← generate_erased, ← generate_erased, h]
  cases hp : (p.generate options).result with
  | ok r =>
    cases hp' : (p'.generate options).result with
    | ok r' =>
      rw [hp, hp'] at hresult
      cases hresult
      exact .ok r.1 r.2 hp hp'
    | error e' => rw [hp, hp'] at hresult; cases hresult
  | error e =>
    cases hp' : (p'.generate options).result with
    | ok r' => rw [hp, hp'] at hresult; cases hresult
    | error e' =>
      rw [hp, hp'] at hresult
      exact .error e e' hp hp' (Except.error.inj hresult)

/-- Two sources with tokens of the same kinds are compiled alike. Either neither can be read, for
the same reason but for where it is. Or both can, each pass of analysis reports the same problems in
the same order but for locations, and whatever is wanted of the assembly, it is the same for both,
before analysis and behind it. -/
theorem alike_of_kinds {file source file' source' : String} {ts ts' : List Token}
    (h : tokenize file source = .ok ts) (h' : tokenize file' source' = .ok ts')
    (hkinds : ts'.map Token.kind = ts.map Token.kind) :
    (∃ e e', (readProgram file source).value = .error (.parse e) ∧
      (readProgram file' source').value = .error (.parse e') ∧
      e'.unlocated = e.unlocated ∧ e'.message = e.message) ∨
    ∃ p p', (readProgram file source).value = .ok p ∧ (readProgram file' source').value = .ok p' ∧
      p'.analyze.names.gist = p.analyze.names.gist ∧
      p'.analyze.types.gist = p.analyze.types.gist ∧
      p'.analyze.checks.gist = p.analyze.checks.gist ∧
      ∀ options, (p.generate options).Alike (p'.generate options) ∧
        (p.analyze.program.generate options).Alike (p'.analyze.program.generate options) := by
  unfold readProgram
  rw [h, h']
  dsimp only
  rcases parse_alike hkinds with ⟨e, e', he, he', hsame⟩ | ⟨p, p', hp, hp', hsame⟩
  · rw [he, he']
    have hmessage : e'.message = e.message := by
      rw [← e'.message_unlocated, hsame, e.message_unlocated]
    exact .inl ⟨e, e', rfl, rfl, hsame, hmessage⟩
  · rw [hp, hp']
    obtain ⟨hprogram, hnames, htypes, hchecks⟩ := p.analyze_erased
    obtain ⟨hprogram', hnames', htypes', hchecks'⟩ := p'.analyze_erased
    rw [hsame] at hprogram' hnames' htypes' hchecks'
    have hanalysed : p'.analyze.program.erased = p.analyze.program.erased :=
      hprogram'.symm.trans hprogram
    exact .inr ⟨p, p', rfl, rfl, hnames'.symm.trans hnames, htypes'.symm.trans htypes,
      hchecks'.symm.trans hchecks, fun options =>
        ⟨Program.generate_alike hsame options, Program.generate_alike hanalysed options⟩⟩

/-- A text with a mistake, on one line. -/
def denseText : String := "int main()" ++ braced "let x:int=true;x"

/-- The same text on several lines. -/
def spreadText : String :=
  "// The answer.\nint main ( )\n" ++ braced "\n\tlet x : int = true ; // No number.\n\n\tx\n"

theorem alike_of_kinds_spread :
    ∃ ts ts' p p' a labels, tokenize "dense" denseText = .ok ts ∧
      tokenize "spread" spreadText = .ok ts' ∧ ts' ≠ ts ∧
      (readProgram "dense" denseText).value = .ok p ∧
      (readProgram "spread" spreadText).value = .ok p' ∧
      p.analyze.checks.length = 1 ∧ p'.analyze.checks.gist = p.analyze.checks.gist ∧
      (p.analyze.program.generate {}).result = .ok (a, labels) ∧
      (p'.analyze.program.generate {}).result = .ok (a, labels) := by
  have htokens : (tokenize "dense" denseText).toOption.any fun ts =>
      (tokenize "spread" spreadText).toOption.any fun ts' =>
        decide (ts' ≠ ts ∧ ts'.map Token.kind = ts.map Token.kind) := by
    decide +kernel
  have hprogram : (readProgram "dense" denseText).value.toOption.any fun p =>
      decide (p.analyze.checks.length = 1) &&
        (p.analyze.program.generate {}).result.toOption.isSome := by
    decide +kernel
  obtain ⟨ts, hts, hspread⟩ := (Option.any_eq_true ..).1 htokens
  obtain ⟨ts', hts', hspread⟩ := (Option.any_eq_true ..).1 hspread
  obtain ⟨hne, hkinds⟩ := of_decide_eq_true hspread
  obtain ⟨q, hq, hfound⟩ := (Option.any_eq_true ..).1 hprogram
  obtain ⟨hchecks, hassembly⟩ := Bool.and_eq_true_iff.1 hfound
  obtain ⟨r, hr⟩ := Option.isSome_iff_exists.1 hassembly
  have hread := eq_ok_of_toOption hq
  have hresult := eq_ok_of_toOption hr
  rcases alike_of_kinds (eq_ok_of_toOption hts) (eq_ok_of_toOption hts') hkinds with
    ⟨e, e', he, -⟩ | ⟨p, p', hp, hp', -, -, hsame, hoptions⟩
  · rw [hread] at he
    cases he
  · obtain rfl := Except.ok.inj (hp.symm.trans hread)
    cases (hoptions {}).2 with
    | ok a labels h h' =>
      exact ⟨ts, ts', p, p', a, labels, eq_ok_of_toOption hts, eq_ok_of_toOption hts', hne, hp, hp',
        of_decide_eq_true hchecks, hsame, h, h'⟩
    | error e e' h =>
      rw [hresult] at h
      cases h

end Ilang
