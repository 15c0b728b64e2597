import Ilang.Proofs.Lexemes
import Ilang.Token.Cursor
import Mathlib.Data.List.Induction
/-!
# Tokens and what is between them

A text is made of tokens and of gaps, which are blanks and comments. `Lexed` says that a text is
read as tokens, each of which is spelled as its kind asks for, could not be longer and knows where
it starts. What `tokenize` gives is read from the whole text, and if it fails, the text is read up
to the fault and no token fits there (`tokenize_lexed`).
-/
namespace Ilang

/-! ## Locations -/

/-- The location behind a text that a file begins with: one line more than it has line feeds, one
column more than it has characters behind the last of them. -/
def Location.behind (file : String) (before : List Char) : Location where
  file := file
  line := 1 + before.count '\n'
  column := 1 + (before.reverse.takeWhile (· != '\n')).length

/-- Going over a text character by character leads behind it. -/
theorem Location.advance_start (file : String) (before : List Char) :
    (Location.start file).advance before = .behind file before := by
  induction before using List.reverseRecOn with
  | nil => rfl
  | append_singleton before c ih =>
    rw [Location.advance_append, ih, Location.advance_cons, Location.advance_nil]
    by_cases hc : c = '\n'
    · simp [Location.step, Location.behind, hc, Nat.add_assoc]
    · simp [Location.step, Location.behind, hc, Nat.add_comm]

theorem Location.behind_advance (file : String) (before cs : List Char) :
    (Location.behind file before).advance cs = .behind file (before ++ cs) := by
  rw [← Location.advance_start, ← Location.advance_append, Location.advance_start]

/-! ## Gaps -/

/-- Blanks and comments, with some text behind them. A comment goes to the end of its line. -/
inductive Skipped (behind : List Char) : List Char → Prop
  | nil : Skipped behind []
  | blank {c : Char} {cs : List Char} (hc : Text.isBlank c = true) (h : Skipped behind cs) :
    Skipped behind (c :: cs)
  | comment {body cs : List Char} (hbody : '\n' ∉ body)
    (hend : ∀ c ∈ (cs ++ behind).head?, c = '\n')
    (h : Skipped behind cs) : Skipped behind ('/' :: '/' :: (body ++ cs))

/-- All that stands between two tokens: blanks and comments, behind which there is neither. -/
structure Gap (gap behind : List Char) : Prop where
  skipped : Skipped behind gap
  noBlank : ∀ c ∈ behind.head?, Text.isBlank c = false
  noComment : ¬ ['/', '/'] <+: behind

namespace Cursor

/-- Skipping from a location goes over what is left of a comment and over a gap. -/
structure Skips (inComment : Bool) (l : Location) (body gap behind : List Char) : Prop where
  isGap : Gap gap behind
  cursor : skipFrom inComment l (body ++ (gap ++ behind)) = ⟨l.advance (body ++ gap), behind⟩

/-- Skipping goes over a gap, from inside a comment over the rest of the line before it. -/
theorem skipFrom_skips (cs : List Char) :
    (∀ l, ∃ gap behind, cs = gap ++ behind ∧ Skips false l [] gap behind) ∧
    ∀ l, ∃ body gap behind, cs = body ++ (gap ++ behind) ∧ '\n' ∉ body ∧
      (∀ c ∈ (gap ++ behind).head?, c = '\n') ∧ Skips true l body gap behind := by
  induction cs with
  | nil =>
    have hgap : Gap [] [] := ⟨.nil, by simp, by simp⟩
    exact ⟨fun l => ⟨[], [], rfl, hgap, rfl⟩,
      fun l => ⟨[], [], [], rfl, by simp, by simp, hgap, rfl⟩⟩
  | cons c rest ih =>
    obtain ⟨ihblank, ihcomment⟩ := ih
    constructor
    · intro l
      by_cases hblank : Text.isBlank c = true
      · obtain ⟨gap, behind, rfl, hgap, hcursor⟩ := ihblank (l.step c)
        refine ⟨c :: gap, behind, rfl,
          ⟨.blank hblank hgap.skipped, hgap.noBlank, hgap.noComment⟩, ?_⟩
        simpa [skipFrom, hblank] using hcursor
      · by_cases hcomment : c = '/' ∧ rest.head? = some '/'
        · obtain ⟨rfl, hhead⟩ := hcomment
          obtain ⟨body, gap, behind, rfl, hbody, hend, hgap, hcursor⟩ := ihcomment (l.step '/')
          -- The second slash is in the comment, for the end of the line is not a slash.
          cases body with
          | nil => exact absurd (hend '/' hhead) (by decide)
          | cons d body =>
            cases hhead
            have hskipped : Skipped behind ('/' :: '/' :: (body ++ gap)) :=
              .comment (fun hmem => hbody (List.mem_cons_of_mem _ hmem)) hend hgap.skipped
            refine ⟨'/' :: '/' :: (body ++ gap), behind, by simp,
              ⟨hskipped, hgap.noBlank, hgap.noComment⟩, ?_⟩
            simpa [skipFrom, hblank] using hcursor
        · refine ⟨[], c :: rest, rfl, ⟨.nil, ?_, ?_⟩, ?_⟩
          · rintro d ⟨⟩
            simpa using hblank
          · rintro ⟨more, hmore⟩
            injection hmore with hc hrest
            exact hcomment ⟨hc.symm, by rw [← hrest]; rfl⟩
          · simp [skipFrom, hblank, hcomment]
    · intro l
      by_cases hline : c = '\n'
      · obtain ⟨gap, behind, rfl, hgap, hcursor⟩ := ihblank (l.step c)
        have hblank : Text.isBlank c = true := by rw [hline]; decide
        refine ⟨[], c :: gap, behind, rfl, by simp, by simp [hline],
          ⟨.blank hblank hgap.skipped, hgap.noBlank, hgap.noComment⟩, ?_⟩
        simpa [skipFrom, hline] using hcursor
      · obtain ⟨body, gap, behind, rfl, hbody, hend, hgap, hcursor⟩ := ihcomment (l.step c)
        refine ⟨c :: body, gap, behind, rfl, ?_, hend, hgap, ?_⟩
        · simp [hbody, Ne.symm hline]
        · simpa [skipFrom, bne_iff_ne.2 hline] using hcursor

/-- A cursor skips the gap before it. -/
theorem skip_gap (c : Cursor) : ∃ gap behind, c.rest = gap ++ behind ∧ Gap gap behind ∧
    c.skip = ⟨c.location.advance gap, behind⟩ := by
  obtain ⟨gap, behind, hrest, hgap, hcursor⟩ := (skipFrom_skips c.rest).1 c.location
  rw [List.nil_append, ← hrest] at hcursor
  exact ⟨gap, behind, hrest, hgap, hcursor⟩

/-- Nothing is skipped where neither a blank nor a comment stands. -/
theorem skipFrom_behind {behind : List Char} (hblank : ∀ c ∈ behind.head?, Text.isBlank c = false)
    (hcomment : ¬ ['/', '/'] <+: behind) (l : Location) :
    skipFrom false l behind = ⟨l, behind⟩ := by
  cases behind with
  | nil => rfl
  | cons c cs =>
    have hslashes : ¬ (c = '/' ∧ cs.head? = some '/') := by
      rintro ⟨rfl, hhead⟩
      obtain ⟨others, rfl⟩ := List.head?_eq_some_iff.1 hhead
      exact hcomment ⟨others, rfl⟩
    rw [skipFrom, if_neg (by simp [hblank c rfl]), if_neg (by simpa using hslashes)]

end Cursor

/-! ## Texts -/

/-- From behind `before` on, a text is read as tokens up to `behind`, which the text ends with: each
token stands behind a gap, fits there and has the location where it starts. -/
inductive Lexed (file : String) :
    (before text : List Char) → List Token → (behind : List Char) → Prop
  | stop {before gap behind : List Char} (hgap : Gap gap behind) :
    Lexed file before (gap ++ behind) [] behind
  | token {before gap rest behind : List Char} {kind : TokenKind} {tokens : List Token}
    (hgap : Gap gap (kind.text.toList ++ rest)) (hfits : Lexeme.Fits kind rest)
    (h : Lexed file (before ++ gap ++ kind.text.toList) rest tokens behind) :
    Lexed file before (gap ++ (kind.text.toList ++ rest))
      (⟨kind, .behind file (before ++ gap)⟩ :: tokens) behind

/-- No token fits at the front of a text, and a fault says why. -/
structure LexFault.At (fault : LexFault) (text : List Char) : Prop where
  unfit : Lexeme.Unfit text
  named : match fault with
    | .strayCharacter c => text.head? = some c ∧ c ≠ '"'
    | .unterminatedString => text.head? = some '"'

namespace Cursor

variable {file : String} {before : List Char} {c : Cursor}

/-- What one reading comes to, with `text` behind the gap that is skipped. -/
structure Reads (file : String) (before text : List Char) (outcome : Except LexError Token)
    (c : Cursor) : Prop where
  error : ∀ e, outcome = .error e → e.location = .behind file before ∧ e.fault.At text
  located : ∀ t, outcome = .ok t → t.location = .behind file before
  ended : ∀ t, outcome = .ok t → t.kind = .endOfFile → text = []
  token : ∀ t, outcome = .ok t → t.kind ≠ .endOfFile → Lexeme.Fits t.kind c.rest ∧
    text = t.kind.text.toList ++ c.rest ∧
    c.location = .behind file (before ++ t.kind.text.toList)

/-- Reading a token where one starts. -/
theorem readHere_reads (hc : c.location = .behind file before) :
    Reads file before c.rest c.readHere.1 c.readHere.2 := by
  unfold readHere
  cases hfront : Lexeme.front c.rest with
  | token kind rest =>
    obtain ⟨hfits, htext⟩ := Lexeme.front_eq_token_iff.1 hfront
    refine ⟨by simp, by simp [hc], ?_, ?_⟩
    · rintro _ ⟨⟩ hend
      exact absurd hend hfits.ne_endOfFile
    · rintro _ ⟨⟩ -
      refine ⟨hfits, htext, ?_⟩
      simp only [moveOver, hc, Location.behind_advance]
  | brokenString read rest =>
    obtain ⟨hunfit, hhead⟩ := Lexeme.front_eq_brokenString hfront
    refine ⟨?_, by simp, by simp, by simp⟩
    rintro _ ⟨⟩
    exact ⟨hc, hunfit, hhead⟩
  | stray ch =>
    obtain ⟨hunfit, hhead⟩ := Lexeme.front_eq_stray hfront
    refine ⟨?_, by simp, by simp, by simp⟩
    rintro _ ⟨⟩
    exact ⟨hc, hunfit, hhead⟩
  | nothing =>
    refine ⟨by simp, by simp [hc], fun _ _ _ => Lexeme.front_eq_nothing hfront, ?_⟩
    rintro _ ⟨⟩ hend
    exact absurd rfl hend

/-- Reading the next token: first there is a gap. -/
theorem next_reads (hc : c.location = .behind file before) :
    ∃ gap text, c.rest = gap ++ text ∧ Gap gap text ∧
      Reads file (before ++ gap) text c.next.1 c.next.2 := by
  obtain ⟨gap, text, hrest, hgap, hskip⟩ := c.skip_gap
  refine ⟨gap, text, hrest, hgap, ?_⟩
  have hlocation : c.skip.location = .behind file (before ++ gap) := by
    rw [hskip, hc, Location.behind_advance]
  have hreads := readHere_reads hlocation
  rw [show c.skip.rest = text by rw [hskip]] at hreads
  exact hreads

/-- Reading the next token, if it is not the end: it fits behind a gap. -/
theorem next_token {c' : Cursor} {t : Token} (hc : c.location = .behind file before)
    (hnext : c.next = (.ok t, c')) (hend : t.kind ≠ .endOfFile) :
    ∃ gap, c.rest = gap ++ (t.kind.text.toList ++ c'.rest) ∧
      c'.location = .behind file (before ++ gap ++ t.kind.text.toList) ∧
      ∀ {read behind}, Lexed file (before ++ gap ++ t.kind.text.toList) c'.rest read behind →
        Lexed file before c.rest (t :: read) behind := by
  obtain ⟨gap, text, hrest, hgap, hreads⟩ := next_reads hc
  rw [hnext] at hreads
  obtain ⟨hfits, rfl, hlocation⟩ := hreads.token t rfl hend
  refine ⟨gap, hrest, hlocation, fun hlexed => ?_⟩
  have ht : t = ⟨t.kind, .behind file (before ++ gap)⟩ := by rw [← hreads.located t rfl]
  rw [hrest, ht]
  exact .token hgap hfits hlexed

/-- What reading all tokens from behind `before` on comes to. -/
theorem tokens_lexed (hc : c.location = .behind file before) :
    match c.tokens with
    | .ok tokens => ∃ read, tokens = read ++ [⟨.endOfFile, .behind file (before ++ c.rest)⟩] ∧
        Lexed file before c.rest read []
    | .error e => ∃ read passed behind, Lexed file before c.rest read behind ∧
        c.rest = passed ++ behind ∧ e.location = .behind file (before ++ passed) ∧
        e.fault.At behind := by
  -- One reading after the other; what is read before a token grows by its gap and its text.
  fun_induction Cursor.tokens c generalizing before with
  | case1 c e c' hnext =>
    obtain ⟨gap, text, hrest, hgap, hreads⟩ := next_reads hc
    rw [hnext] at hreads
    obtain ⟨hlocation, hfault⟩ := hreads.error e rfl
    exact ⟨[], gap, text, hrest ▸ .stop hgap, hrest, hlocation, hfault⟩
  | case2 c t c' hnext hend =>
    obtain ⟨gap, text, hrest, hgap, hreads⟩ := next_reads hc
    rw [hnext] at hreads
    obtain rfl := hreads.ended t rfl hend
    have ht : t = ⟨.endOfFile, .behind file (before ++ gap)⟩ := by
      rw [← hreads.located t rfl, ← hend]
    refine ⟨[], ?_, hrest ▸ .stop hgap⟩
    rw [hrest, List.append_nil, ht, List.nil_append]
  | case3 c t c' hnext hend e herror ih =>
    obtain ⟨gap, hrest, hlocation, hlexed⟩ := next_token hc hnext hend
    have hothers := ih hlocation
    rw [herror] at hothers
    obtain ⟨read, passed, behind, hread, hpassed, hat, hfault⟩ := hothers
    refine ⟨t :: read, gap ++ (t.kind.text.toList ++ passed), behind, hlexed hread, ?_, ?_, hfault⟩
    · rw [hrest, hpassed]
      simp only [List.append_assoc]
    · simpa only [List.append_assoc] using hat
  | case4 c t c' hnext hend tokens htokens ih =>
    obtain ⟨gap, hrest, hlocation, hlexed⟩ := next_token hc hnext hend
    have hothers := ih hlocation
    rw [htokens] at hothers
    obtain ⟨read, rfl, hread⟩ := hothers
    refine ⟨t :: read, ?_, hlexed hread⟩
    rw [hrest]
    simp only [List.append_assoc, List.cons_append]

end Cursor

theorem lexed_of_tokenize {file source : String} {ts : List Token}
    (h : tokenize file source = .ok ts) :
    ∃ read, ts = read ++ [⟨.endOfFile, .behind file source.toList⟩] ∧
      Lexed file [] source.toList read [] := by
  have hstart : (Cursor.start file source).location = .behind file [] := rfl
  have hlexed := Cursor.tokens_lexed hstart
  have htokens : (Cursor.start file source).tokens = .ok ts := h
  rw [htokens] at hlexed
  exact hlexed

/-- The tokens of a text, the end token last, are what the whole text is read as. If a text has a
fault, it is read as tokens up to there. -/
theorem tokenize_lexed (file source : String) :
    match tokenize file source with
    | .ok tokens => ∃ read, tokens = read ++ [⟨.endOfFile, .behind file source.toList⟩] ∧
        Lexed file [] source.toList read []
    | .error e => ∃ read passed behind, Lexed file [] source.toList read behind ∧
        source.toList = passed ++ behind ∧ e.location = .behind file passed ∧
        e.fault.At behind := by
  have hstart : (Cursor.start file source).location = .behind file [] := rfl
  exact Cursor.tokens_lexed hstart

end Ilang
