import Ilang.Proofs.Lexing
import Ilang.Proofs.Reading
/-!
# Tokens that are written again

The texts of tokens with blanks between them are read as the same tokens (`tokenize_joined`). A
token that was read fits before a blank too, whatever stood behind it in its own text, for no blank
continues a word, a number or a symbol (`Lexeme.Fits.before_blank`).
-/
namespace Ilang

/-! ## Blanks -/

namespace Text

/-- The code points of all blanks. -/
def blankCodes : List Nat :=
  List.range' 0x09 5 ++ 0x20 :: blankRanges.flatMap fun r => List.range' r.1 (r.2 + 1 - r.1)

theorem exists_range {ranges : List (Nat × Nat)} {n : Nat} (h : inRanges ranges n = true) :
    ∃ r ∈ ranges, r.1 ≤ n ∧ n ≤ r.2 := by
  fun_induction inRanges ranges n with
  | case1 => cases h
  | case2 => cases h
  | case3 lo hi rest n hlo ih =>
    rcases Bool.or_eq_true_iff.1 h with hhi | hrest
    · exact ⟨(lo, hi), List.mem_cons_self, by omega, of_decide_eq_true hhi⟩
    · obtain ⟨r, hr, hn⟩ := ih hrest
      exact ⟨r, List.mem_cons_of_mem _ hr, hn⟩

theorem toNat_mem_blankCodes {c : Char} (h : isBlank c = true) : c.toNat ∈ blankCodes := by
  unfold isBlank at h
  simp only [Bool.or_eq_true, Bool.and_eq_true, decide_eq_true_eq] at h
  rw [blankCodes, List.mem_append, List.mem_cons, List.mem_flatMap]
  rcases h with (rfl | ⟨hlo, hhi⟩) | ⟨-, hrange⟩
  · exact .inr (.inl rfl)
  · exact .inl (List.mem_range'_1.2 ⟨hlo, by omega⟩)
  · obtain ⟨r, hr, hlo, hhi⟩ := exists_range hrange
    exact .inr (.inr ⟨r, hr, List.mem_range'_1.2 ⟨hlo, by omega⟩⟩)

/-- What holds of the blanks one by one holds of all of them. -/
theorem of_isBlank {p : Char → Bool} (h : (blankCodes.all fun n => p (.ofNat n)) = true) {c : Char}
    (hc : isBlank c = true) : p c = true := by
  have hcode := List.all_eq_true.1 h c.toNat (toNat_mem_blankCodes hc)
  rwa [Char.ofNat_toNat] at hcode

theorem continuesWord_of_isBlank {c : Char} (h : isBlank c = true) :
    Lexeme.continuesWord c = false := by
  have hnot := of_isBlank (p := fun c => !Lexeme.continuesWord c) (by decide +kernel) h
  simpa using hnot

end Text

/-! ## Before a blank -/

namespace Lexeme

/-- A text is empty or begins with a blank. -/
def BlankFirst (rest : List Char) : Prop := ∀ c ∈ rest.head?, Text.isBlank c = true

theorem BlankFirst.endsBefore {rest : List Char} (h : BlankFirst rest) :
    EndsBefore continuesWord rest :=
  fun c hc => Text.continuesWord_of_isBlank (h c hc)

theorem continuesWord_of_isDigit {c : Char} (h : c.isDigit = true) : continuesWord c = true := by
  simp [continuesWord, Text.isNumeral, h]

theorem BlankFirst.endsBefore_isDigit {rest : List Char} (h : BlankFirst rest) :
    EndsBefore Char.isDigit rest := by
  intro c hc
  by_contra hdigit
  rw [Bool.not_eq_false] at hdigit
  exact absurd (h.endsBefore c hc) (by simp [continuesWord_of_isDigit hdigit])

theorem symbols_notBlank :
    ∀ k ∈ TokenKind.symbols, (k.text.toList.all fun c => !Text.isBlank c) = true := by
  decide

/-- What follows a token does not matter if it is a blank. -/
theorem Fits.before_blank {kind : TokenKind} {rest behind : List Char} (h : Fits kind rest)
    (hbehind : BlankFirst behind) : Fits kind behind := by
  cases h with
  | keyword hk => exact .keyword hk hbehind.endsBefore
  | literalWord hw => exact .literalWord hw hbehind.endsBefore
  | identifier hw hkeyword hliteral => exact .identifier hw hkeyword hliteral hbehind.endsBefore
  | whole hds =>
    refine .whole hds hbehind.endsBefore_isDigit ?_
    rintro d cs rfl
    exact absurd (hbehind '.' rfl) (by decide)
  | fraction hds hfs => exact .fraction hds hfs hbehind.endsBefore_isDigit
  | string hbody => exact .string hbody
  | symbol hk =>
    refine .symbol hk fun k' hk' hfront => ?_
    by_contra hlonger
    -- A longer symbol would go on with the first character of `behind`.
    obtain ⟨more, hmore⟩ :=
      List.prefix_of_prefix_length_le (List.prefix_append _ behind) hfront (by omega)
    rw [← hmore, List.prefix_append_right_inj] at hfront
    have hne : more ≠ [] := by
      rintro rfl
      rw [← hmore, List.append_nil] at hlonger
      exact hlonger (Nat.le_refl _)
    obtain ⟨c, more, rfl⟩ := List.exists_cons_of_ne_nil hne
    obtain ⟨others, rfl⟩ := hfront
    have hblank : Text.isBlank c = true := hbehind c rfl
    have hall := List.all_eq_true.1 (symbols_notBlank k' hk') c (by simp [← hmore])
    simp [hblank] at hall

/-- A token that starts where it is read, and not in a gap: it begins neither with a blank nor, with
what follows it, as a comment does. -/
structure Starts (kind : TokenKind) (rest : List Char) : Prop where
  fits : Fits kind rest
  noBlank : ∀ c ∈ kind.text.toList.head?, Text.isBlank c = false
  noComment : ¬ ['/', '/'] <+: kind.text.toList ++ rest

theorem Fits.text_ne_nil {kind : TokenKind} {rest : List Char} (h : Fits kind rest) :
    kind.text.toList ≠ [] :=
  text_ne_nil_of_front (front_of_fits h)

theorem Starts.before_blank {kind : TokenKind} {rest behind : List Char} (h : Starts kind rest)
    (hbehind : BlankFirst behind) : Starts kind behind := by
  refine ⟨h.fits.before_blank hbehind, h.noBlank, ?_⟩
  rintro ⟨others, hothers⟩
  have hcomment := h.noComment
  obtain ⟨c, cs, htext⟩ := List.exists_cons_of_ne_nil h.fits.text_ne_nil
  rw [htext] at hothers hcomment
  obtain ⟨rfl, hsecond⟩ := List.cons.inj hothers
  cases cs with
  | nil =>
    -- Of two slashes the second one would have to be a blank.
    obtain rfl : '/' :: others = behind := hsecond
    exact absurd (hbehind '/' rfl) (by decide)
  | cons d cs =>
    obtain ⟨rfl, -⟩ := List.cons.inj hsecond
    exact hcomment ⟨cs ++ rest, rfl⟩

end Lexeme

/-- Every token of a text starts where it is read. -/
theorem Lexed.starts {file : String} {before text behind : List Char} {tokens : List Token}
    (h : Lexed file before text tokens behind) :
    ∀ t ∈ tokens, ∃ rest, Lexeme.Starts t.kind rest := by
  induction h with
  | stop => simp
  | @token before gap rest behind kind tokens hgap hfits _ ih =>
    refine List.forall_mem_cons.2 ⟨⟨rest, hfits, fun c hc => ?_, hgap.noComment⟩, ih⟩
    exact hgap.noBlank c (by simp [List.head?_append, Option.mem_def.1 hc])

/-! ## Writing tokens -/

/-- White space that keeps two tokens apart. -/
structure Separator where
  text : String
  ne_empty : text.toList ≠ []
  blank : ∀ c ∈ text.toList, Text.isBlank c = true

/-- The texts of tokens one after another, each separator behind the token of its number. -/
def joined (separators : Nat → Separator) : List TokenKind → String
  | [] => ""
  | [kind] => kind.text
  | kind :: next :: kinds =>
    kind.text ++ (separators 0).text ++ joined (fun i => separators (i + 1)) (next :: kinds)

namespace Cursor

/-- Blanks are skipped. -/
theorem skipFrom_blanks {blanks : List Char} (h : ∀ c ∈ blanks, Text.isBlank c = true)
    (l : Location) (behind : List Char) :
    skipFrom false l (blanks ++ behind) = skipFrom false (l.advance blanks) behind := by
  induction blanks generalizing l with
  | nil => rfl
  | cons c blanks ih =>
    obtain ⟨hc, hblanks⟩ := List.forall_mem_cons.1 h
    rw [List.cons_append, skipFrom, if_pos hc, ih hblanks, Location.advance_cons]

/-- Nothing of a token is skipped. -/
theorem skipFrom_starts {kind : TokenKind} {rest : List Char} (h : Lexeme.Starts kind rest)
    (l : Location) :
    skipFrom false l (kind.text.toList ++ rest) = ⟨l, kind.text.toList ++ rest⟩ := by
  refine skipFrom_behind (fun c hc => ?_) h.noComment l
  obtain ⟨d, cs, htext⟩ := List.exists_cons_of_ne_nil h.fits.text_ne_nil
  rw [htext] at hc
  exact h.noBlank c (by rwa [htext])

/-- A token behind blanks is read. -/
theorem next_of_starts {blanks : List Char} (hblanks : ∀ c ∈ blanks, Text.isBlank c = true)
    {kind : TokenKind} {rest : List Char} (h : Lexeme.Starts kind rest) (l : Location) :
    ∃ m c, next ⟨l, blanks ++ (kind.text.toList ++ rest)⟩ = (.ok ⟨kind, m⟩, c) ∧
      c.rest = rest := by
  refine ⟨l.advance blanks, moveOver ⟨l.advance blanks, []⟩ kind.text.toList rest, ?_, rfl⟩
  unfold next skip readHere
  rw [skipFrom_blanks hblanks, skipFrom_starts h]
  dsimp only
  rw [Lexeme.front_of_fits h.fits]
  rfl

theorem tokens_of_end {c c' : Cursor} {t : Token} (h : c.next = (.ok t, c'))
    (ht : t.kind = .endOfFile) : c.tokens = .ok [t] := by
  rw [tokens]
  split <;> simp_all

theorem tokens_of_next {c c' : Cursor} {t : Token} {ts : List Token} (h : c.next = (.ok t, c'))
    (ht : t.kind ≠ .endOfFile) (hrest : c'.tokens = .ok ts) : c.tokens = .ok (t :: ts) := by
  rw [tokens]
  split <;> simp_all

/-- What was written with separators is read as the tokens that it was written of. -/
theorem tokens_joined {kinds : List TokenKind} (h : ∀ k ∈ kinds, ∃ rest, Lexeme.Starts k rest)
    (separators : Nat → Separator) {blanks : List Char}
    (hblanks : ∀ c ∈ blanks, Text.isBlank c = true) (l : Location) :
    ∃ us, tokens ⟨l, blanks ++ (joined separators kinds).toList⟩ = .ok us ∧
      us.map Token.kind = kinds ++ [.endOfFile] := by
  -- Each token is read with the blanks before it; the separator behind it is left to the next one.
  induction kinds generalizing separators blanks l with
  | nil =>
    have hnext : next ⟨l, blanks ++ (joined separators []).toList⟩ =
        (.ok ⟨.endOfFile, l.advance blanks⟩, ⟨l.advance blanks, []⟩) := by
      unfold next skip readHere
      rw [skipFrom_blanks hblanks]
      rfl
    exact ⟨_, tokens_of_end hnext rfl, rfl⟩
  | cons kind kinds ih =>
    obtain ⟨⟨rest, hstarts⟩, hkinds⟩ := List.forall_mem_cons.1 h
    obtain ⟨separated, htext, hfirst, hothers⟩ : ∃ separated : List Char,
        (joined separators (kind :: kinds)).toList = kind.text.toList ++ separated ∧
        Lexeme.BlankFirst separated ∧
        ∀ m, ∃ us, tokens ⟨m, separated⟩ = .ok us ∧ us.map Token.kind = kinds ++ [.endOfFile] := by
      cases kinds with
      | nil =>
        exact ⟨[], by simp [joined], by simp [Lexeme.BlankFirst],
          ih hkinds separators (List.forall_mem_nil _)⟩
      | cons next kinds =>
        refine ⟨(separators 0).text.toList ++
          (joined (fun i => separators (i + 1)) (next :: kinds)).toList, by simp [joined], ?_,
          ih hkinds _ (separators 0).blank⟩
        obtain ⟨b, bs, hb⟩ := List.exists_cons_of_ne_nil (separators 0).ne_empty
        rw [hb]
        rintro _ ⟨⟩
        exact (separators 0).blank b (by simp [hb])
    obtain ⟨m, c, hnext, hrest⟩ := next_of_starts hblanks (hstarts.before_blank hfirst) l
    obtain ⟨m', rest'⟩ := c
    cases hrest
    obtain ⟨us, hus, hkind⟩ := hothers m'
    rw [htext]
    refine ⟨⟨kind, m⟩ :: us, tokens_of_next hnext hstarts.fits.ne_endOfFile hus, ?_⟩
    rw [List.map_cons, hkind, List.cons_append]

end Cursor

/-! ## The result -/

/-- If the tokens of a text are written again with white space between them, whichever it is, and
read again, also as another file, the same kinds of tokens come out. -/
theorem tokenize_joined {file source : String} {ts : List Token}
    (h : tokenize file source = .ok ts) (file' : String) (separators : Nat → Separator) :
    ∃ us, tokenize file' (joined separators ((ts.map Token.kind).filter (· ≠ .endOfFile))) = .ok us ∧
      us.map Token.kind = ts.map Token.kind := by
  obtain ⟨read, rfl, hread⟩ := lexed_of_tokenize h
  have hstarts : ∀ k ∈ read.map Token.kind, ∃ rest, Lexeme.Starts k rest :=
    List.forall_mem_map.2 hread.starts
  have hkinds : ((read ++ [(⟨.endOfFile, .behind file source.toList⟩ : Token)]).map Token.kind).filter
      (· ≠ TokenKind.endOfFile) = read.map Token.kind := by
    rw [List.map_append, List.filter_append, List.filter_eq_self.2]
    · simp
    · intro k hk
      obtain ⟨rest, hk⟩ := hstarts k hk
      simpa using hk.fits.ne_endOfFile
  rw [hkinds, List.map_append]
  exact Cursor.tokens_joined hstarts separators (List.forall_mem_nil _) (.start file')

/-- Two kinds of white space, none of them ASCII, in turn. -/
def alternating (i : Nat) : Separator :=
  if i % 2 = 0 then ⟨"\u2003", by decide, List.all_eq_true.1 (by decide)⟩
  else ⟨"\u0085\n", by decide, List.all_eq_true.1 (by decide)⟩

/-- A number before an ellipsis, a string with a comment and a quote in it, operators that begin
other ones or a comment, and a name with a letter beyond ASCII. -/
theorem tokenize_joined_text :
    ∃ ts us, tokenize "a" "lét_1==\"// \\\"\"<<=007...3.5/ /<//" = .ok ts ∧
      ts.map Token.kind = [.identifier "lét_1", .eq, .literal "\"// \\\"\"", .shl, .assign,
        .literal "007", .ellipsis, .literal "3.5", .slash, .slash, .lt, .endOfFile] ∧
      tokenize "b" (joined alternating ((ts.map Token.kind).filter (· ≠ .endOfFile))) = .ok us ∧
      us.map Token.kind = ts.map Token.kind := by
  have hcheck : ((tokenize "a" "lét_1==\"// \\\"\"<<=007...3.5/ /<//").toOption.any fun ts =>
      decide (ts.map Token.kind = [.identifier "lét_1", .eq, .literal "\"// \\\"\"", .shl,
        .assign, .literal "007", .ellipsis, .literal "3.5", .slash, .slash, .lt, .endOfFile])) =
      true := by
    decide +kernel
  obtain ⟨ts, hts, hkinds⟩ := (Option.any_eq_true ..).1 hcheck
  obtain ⟨us, hus, hagain⟩ := tokenize_joined (eq_ok_of_toOption hts) "b" alternating
  exact ⟨ts, us, eq_ok_of_toOption hts, of_decide_eq_true hkinds, hus, hagain⟩

end Ilang
