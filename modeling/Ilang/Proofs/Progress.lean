import Ilang.Proofs.Lexing
/-!
# Readings one after another

A cursor at the beginning of a text reads again and again, also behind an error. However often it
has read, it stands somewhere in the text, and its location is the one there; what a reading passes
it never comes back to, and where a reading passes nothing, all others end as it does
(`Cursor.readings_steady`). So all tokens are read within as many readings as the text has
characters, and one more.
-/
namespace Ilang

/-- A string that broke off took its quote at least. -/
theorem Lexeme.append_of_brokenString {cs read rest : List Char}
    (h : front cs = .brokenString read rest) : read ++ rest = cs ∧ read ≠ [] := by
  obtain ⟨tail, rfl⟩ := List.head?_eq_some_iff.1 (front_eq_brokenString h).2
  rw [front_quote] at h
  split at h
  · cases h
  · cases h
    exact ⟨congrArg ('"' :: ·) (stringTail_append tail), List.cons_ne_nil _ _⟩

/-- Lines and columns are counted up by at most one for each character. -/
theorem Location.behind_le (file : String) (before : List Char) :
    (behind file before).line ≤ before.length + 1 ∧
      (behind file before).column ≤ before.length + 1 := by
  have hline : before.count '\n' ≤ before.length := List.count_le_length
  have hcolumn := (List.takeWhile_sublist (p := (· != '\n')) (l := before.reverse)).length_le
  rw [List.length_reverse] at hcolumn
  simp only [behind]
  omega

namespace Cursor

/-! ## One reading -/

/-- How a reading ends, and with which cursor, if it starts `here`, behind the gap: a token and a
string that broke off are passed, a stray character and the end of the text are not. -/
inductive Moves (here : Cursor) : Except LexError Token → Cursor → Prop
  | token {kind : TokenKind} {rest : List Char} (hkind : kind ≠ .endOfFile)
      (hrest : here.rest = kind.text.toList ++ rest) (hne : kind.text.toList ≠ []) :
    Moves here (.ok ⟨kind, here.location⟩) (here.moveOver kind.text.toList rest)
  | brokenString {read rest : List Char} (hrest : here.rest = read ++ rest) (hne : read ≠ []) :
    Moves here (.error ⟨.unterminatedString, here.location⟩) (here.moveOver read rest)
  | stray {ch : Char} (hhead : here.rest.head? = some ch) :
    Moves here (.error ⟨.strayCharacter ch, here.location⟩) here
  | nothing (hrest : here.rest = []) : Moves here (.ok ⟨.endOfFile, here.location⟩) here

theorem readHere_moves (here : Cursor) : Moves here here.readHere.1 here.readHere.2 := by
  unfold readHere
  cases hfront : Lexeme.front here.rest with
  | token kind rest =>
    obtain ⟨hfits, hrest⟩ := Lexeme.front_eq_token_iff.1 hfront
    exact .token hfits.ne_endOfFile hrest (Lexeme.text_ne_nil_of_front hfront)
  | brokenString read rest =>
    obtain ⟨hrest, hne⟩ := Lexeme.append_of_brokenString hfront
    exact .brokenString hrest.symm hne
  | stray ch => exact .stray (Lexeme.front_eq_stray hfront).2.1
  | nothing => exact .nothing (Lexeme.front_eq_nothing hfront)

section
variable {c c' : Cursor} {outcome : Except LexError Token}

theorem next_moves (h : c.next = (outcome, c')) : Moves c.skip outcome c' := by
  have hmoves := readHere_moves c.skip
  rwa [show c.skip.readHere = (outcome, c') from h] at hmoves

/-- A cursor comes from another one by going over some of the text. -/
def Passes (c c' : Cursor) : Prop :=
  ∃ passed, c.rest = passed ++ c'.rest ∧ c'.location = c.location.advance passed

theorem Passes.trans {c'' : Cursor} (h : c.Passes c') (h' : c'.Passes c'') : c.Passes c'' := by
  obtain ⟨passed, hrest, hlocation⟩ := h
  obtain ⟨passed', hrest', hlocation'⟩ := h'
  refine ⟨passed ++ passed', ?_, ?_⟩
  · rw [hrest, hrest', List.append_assoc]
  · rw [hlocation', hlocation, Location.advance_append]

theorem Passes.length_le (h : c.Passes c') : c'.rest.length ≤ c.rest.length := by
  obtain ⟨passed, hrest, -⟩ := h
  rw [hrest, List.length_append]
  exact Nat.le_add_left _ _

theorem skip_passes (c : Cursor) : c.Passes c.skip := by
  obtain ⟨gap, behind, hrest, -, hskip⟩ := c.skip_gap
  rw [hskip]
  exact ⟨gap, hrest, rfl⟩

theorem Moves.passes (h : Moves c outcome c') : c.Passes c' := by
  cases h with
  | token _ hrest _ => exact ⟨_, hrest, rfl⟩
  | brokenString hrest _ => exact ⟨_, hrest, rfl⟩
  | stray | nothing => exact ⟨[], rfl, rfl⟩

theorem next_passes (c : Cursor) : c.Passes c.next.2 :=
  c.skip_passes.trans (next_moves rfl).passes

/-- A string that broke off is passed. A token is too, by `length_next_lt`. -/
theorem length_next_lt_of_unterminated {l : Location}
    (h : c.next = (.error ⟨.unterminatedString, l⟩, c')) : c'.rest.length < c.rest.length := by
  cases next_moves h with
  | @brokenString read rest hrest hne =>
    refine Nat.lt_of_lt_of_le ?_ c.length_skip_le
    rw [hrest, List.length_append]
    exact Nat.lt_add_of_pos_left (List.length_pos_iff.2 hne)

theorem next_stray {ch : Char} {l : Location} (h : c.next = (.error ⟨.strayCharacter ch, l⟩, c')) :
    c' = c.skip ∧ c'.rest.head? = some ch ∧ l = c'.location := by
  cases next_moves h with
  | stray hhead => exact ⟨rfl, hhead, rfl⟩

theorem next_ended {t : Token} (h : c.next = (.ok t, c')) (hend : t.kind = .endOfFile) :
    c' = c.skip ∧ c'.rest = [] := by
  cases next_moves h with
  | token hkind => exact absurd hend hkind
  | nothing hrest => exact ⟨rfl, hrest⟩

/-- Behind a gap there is no other one. -/
theorem skip_skip (c : Cursor) : c.skip.skip = c.skip := by
  obtain ⟨gap, behind, -, hgap, hskip⟩ := c.skip_gap
  rw [hskip]
  exact skipFrom_behind hgap.noBlank hgap.noComment _

/-- If a reading passes nothing but a gap, the next one is the same. -/
theorem next_next (h : c.next.2 = c.skip) : c.next.2.next = c.next := by
  rw [h, next, skip_skip]
  rfl

end

/-! ## Many readings -/

/-- The cursor after some readings. -/
def after (c : Cursor) : Nat → Cursor
  | 0 => c
  | n + 1 => (c.after n).next.2

theorem after_add (c : Cursor) (m n : Nat) : c.after (m + n) = (c.after m).after n := by
  induction n with
  | zero => rfl
  | succ n ih => exact congrArg (fun c => c.next.2) ih

theorem after_succ {c c' : Cursor} {outcome : Except LexError Token} (h : c.next = (outcome, c'))
    (n : Nat) : c.after (n + 1) = c'.after n := by
  rw [Nat.add_comm, after_add]
  exact congrArg (fun x => x.2.after n) h

theorem after_passes (c : Cursor) (n : Nat) : c.Passes (c.after n) := by
  induction n with
  | zero => exact ⟨[], rfl, rfl⟩
  | succ n ih => exact ih.trans (next_passes _)

/-- Where a reading passes nothing but a gap, all readings that follow are the same. -/
theorem next_after {c : Cursor} (h : c.next.2 = c.skip) (n : Nat) : (c.after n).next = c.next := by
  induction n with
  | zero => rfl
  | succ n ih => rw [after, ih, next_next h]

/-- A result is what `k` readings that give tokens and one more come to, which ends with an error or
with the end token. -/
structure Ends (c : Cursor) (result : Except LexError (List Token)) (k : Nat) : Prop where
  tokens : ∀ i < k, ∃ t, (c.after i).next.1 = .ok t ∧ t.kind ≠ .endOfFile
  last : (∃ e, (c.after k).next.1 = .error e ∧ result = .error e) ∨
    ∃ t ts, (c.after k).next.1 = .ok t ∧ t.kind = .endOfFile ∧ result = .ok ts ∧
      ts.map .ok = (List.range (k + 1)).map fun i => (c.after i).next.1

theorem Ends.cons {c c' : Cursor} {t : Token} {result : Except LexError (List Token)} {k : Nat}
    (h : c.next = (.ok t, c')) (hend : t.kind ≠ .endOfFile) (hothers : c'.Ends result k) :
    c.Ends (result.map (t :: ·)) (k + 1) := by
  -- Reading number `i + 1` is reading number `i` from behind the token.
  constructor
  · intro i hi
    cases i with
    | zero => exact ⟨t, congrArg Prod.fst h, hend⟩
    | succ i =>
      rw [after_succ h]
      exact hothers.tokens i (Nat.lt_of_succ_lt_succ hi)
  · rw [after_succ h]
    rcases hothers.last with ⟨e, he, rfl⟩ | ⟨u, ts, hu, hkind, rfl, hts⟩
    · exact .inl ⟨e, he, rfl⟩
    · refine .inr ⟨u, t :: ts, hu, hkind, rfl, ?_⟩
      rw [List.range_succ_eq_map, List.map_cons, List.map_cons, hts, List.map_map]
      refine congrArg₂ _ (congrArg Prod.fst h).symm (List.map_congr_left fun i _ => ?_)
      exact congrArg (fun c => c.next.1) (after_succ h i).symm

/-- Reading all tokens ends, for each of them takes something from the text. -/
theorem tokens_ends (c : Cursor) : ∃ k ≤ c.rest.length, c.Ends c.tokens k := by
  fun_induction Cursor.tokens c with
  | case1 c e c' hnext =>
    exact ⟨0, Nat.zero_le _, by simp, .inl ⟨e, congrArg Prod.fst hnext, rfl⟩⟩
  | case2 c t c' hnext hend =>
    refine ⟨0, Nat.zero_le _, by simp, .inr ⟨t, [t], congrArg Prod.fst hnext, hend, rfl, ?_⟩⟩
    simp [after, hnext]
  | case3 c t c' hnext hend e herror ih =>
    obtain ⟨k, hk, hothers⟩ := ih
    rw [herror] at hothers
    exact ⟨k + 1, Nat.lt_of_le_of_lt hk (length_next_lt hnext hend), hothers.cons hnext hend⟩
  | case4 c t c' hnext hend ts hts ih =>
    obtain ⟨k, hk, hothers⟩ := ih
    rw [hts] at hothers
    exact ⟨k + 1, Nat.lt_of_le_of_lt hk (length_next_lt hnext hend), hothers.cons hnext hend⟩

theorem Ends.length_tokens {c : Cursor} {k : Nat} {ts : List Token} (h : c.Ends (.ok ts) k) :
    ts.length = k + 1 := by
  rcases h.last with ⟨e, -, he⟩ | ⟨t, us, -, -, hus, hmap⟩
  · cases he
  · cases hus
    simpa using congrArg List.length hmap

/-! ## Positions -/

/-- How many characters of a text a cursor has passed. -/
def position (source : String) (c : Cursor) : Nat := source.length - c.rest.length

/-- A cursor stands in a text: it has before it what follows its position, and its location is the
one behind what precedes it, with counters that go at most one beyond the position. -/
structure Within (file source : String) (c : Cursor) : Prop where
  position_le : c.position source ≤ source.length
  rest : c.rest = source.toList.drop (c.position source)
  location : c.location = .behind file (source.toList.take (c.position source))
  line_le : c.location.line ≤ c.position source + 1
  column_le : c.location.column ≤ c.position source + 1

theorem Passes.within {file source : String} {c : Cursor} (h : (start file source).Passes c) :
    c.Within file source := by
  obtain ⟨passed, hsource, hlocation⟩ := h
  have hsource : source.toList = passed ++ c.rest := hsource
  have hlocation : c.location = .behind file passed :=
    hlocation.trans (Location.advance_start file passed)
  have hposition : c.position source = passed.length := by
    rw [position, ← String.length_toList, hsource, List.length_append, Nat.add_sub_cancel]
  constructor
  · exact Nat.sub_le _ _
  · rw [hposition, hsource, List.drop_left]
  · rw [hposition, hsource, List.take_left, hlocation]
  · rw [hposition, hlocation]
    exact (Location.behind_le file passed).1
  · rw [hposition, hlocation]
    exact (Location.behind_le file passed).2

/-- The cursor that has read `n` times from the beginning of a text on. -/
def reader (file source : String) (n : Nat) : Cursor := (start file source).after n

section
variable {file source : String} {m n : Nat}

theorem reader_within (file source : String) (n : Nat) :
    (reader file source n).Within file source :=
  (after_passes _ n).within

theorem reader_passes (h : m ≤ n) : (reader file source m).Passes (reader file source n) := by
  obtain ⟨k, rfl⟩ := Nat.exists_eq_add_of_le h
  rw [reader, reader, after_add]
  exact after_passes _ k

theorem position_mono (h : m ≤ n) :
    (reader file source m).position source ≤ (reader file source n).position source :=
  Nat.sub_le_sub_left (reader_passes h).length_le _

/-- A cursor with less before it stands further behind. -/
theorem position_lt (h : (reader file source n).rest.length < (reader file source m).rest.length) :
    (reader file source m).position source < (reader file source n).position source := by
  have hle := congrArg List.length (reader_within file source m).rest
  rw [List.length_drop, String.length_toList] at hle
  unfold position at *
  omega

/-- If reading number `n` passes nothing but a gap, all readings that follow are the same. -/
theorem next_reader (h : (reader file source n).next.2 = (reader file source n).skip) (hm : n ≤ m) :
    (reader file source m).next = (reader file source n).next := by
  obtain ⟨k, rfl⟩ := Nat.exists_eq_add_of_le hm
  rw [reader, after_add]
  exact next_after h k

end

/-- What reading number `n` of a text finds and does. The first one has number zero. -/
structure Steady (file source : String) (n : Nat) : Prop where
  within : (reader file source n).Within file source
  /-- No reading goes back. -/
  position_le : ∀ m ≤ n,
    (reader file source m).position source ≤ (reader file source n).position source
  /-- A token is passed. -/
  token : ∀ t, (reader file source n).next.1 = .ok t → t.kind ≠ .endOfFile →
    (reader file source n).position source < (reader file source (n + 1)).position source
  /-- A string that broke off is passed. -/
  brokenString : ∀ l, (reader file source n).next.1 = .error ⟨.unterminatedString, l⟩ →
    (reader file source n).position source < (reader file source (n + 1)).position source
  /-- At a stray character the cursor stays, and it is met again and again. -/
  stray : ∀ ch l, (reader file source n).next.1 = .error ⟨.strayCharacter ch, l⟩ →
    source.toList[(reader file source (n + 1)).position source]? = some ch ∧
    l = (reader file source (n + 1)).location ∧
    ∀ m, n ≤ m → (reader file source m).next = (reader file source n).next
  /-- At the end of the text the cursor stays, and it is met again and again. -/
  ended : ∀ t, (reader file source n).next.1 = .ok t → t.kind = .endOfFile →
    (reader file source (n + 1)).position source = source.length ∧
    ∀ m, n ≤ m → (reader file source m).next = (reader file source n).next

theorem steady (file source : String) (n : Nat) : Steady file source n where
  within := reader_within file source n
  position_le m hm := position_mono hm
  token t ht hend := position_lt (length_next_lt (Prod.ext ht rfl) hend)
  brokenString l hl := position_lt (length_next_lt_of_unterminated (Prod.ext hl rfl))
  stray ch l hl := by
    obtain ⟨hskip, hhead, hlocation⟩ := next_stray (Prod.ext hl rfl)
    refine ⟨?_, hlocation, fun m hm => next_reader hskip hm⟩
    rw [← List.head?_drop, ← (reader_within file source (n + 1)).rest]
    exact hhead
  ended t ht hend := by
    obtain ⟨hskip, hrest⟩ := next_ended (Prod.ext ht rfl) hend
    refine ⟨?_, fun m hm => next_reader hskip hm⟩
    exact congrArg (fun cs => source.length - cs.length) hrest

/-- However often a text is read from, the cursor stands in it and goes forward only: over a token
or a string that broke off, and not over a stray character or the end, which are met again by all
later readings. So all tokens are read within one reading more than the text has characters. -/
theorem readings_steady (file source : String) :
    (∀ n, Steady file source n) ∧
    (∃ k ≤ source.length, (start file source).Ends (tokenize file source) k) ∧
    ∀ ts, tokenize file source = .ok ts → ts.length ≤ source.length + 1 := by
  obtain ⟨k, hk, hends⟩ := (start file source).tokens_ends
  have hk : k ≤ source.length := String.length_toList ▸ hk
  refine ⟨steady file source, ⟨k, hk, hends⟩, fun ts hts => ?_⟩
  rw [show (start file source).tokens = .ok ts from hts] at hends
  rw [hends.length_tokens]
  exact Nat.succ_le_succ hk

/-- A string that broke off at the end of its line, a number, and a character that starts no token;
and a text that is read to its end. -/
theorem readings_steady_faults :
    let text := "\"a\n1 ?"
    ((reader "f" text 0).next.1 = .error ⟨.unterminatedString, ⟨"f", 1, 1⟩⟩ ∧
      (reader "f" text 0).position text < (reader "f" text 1).position text) ∧
    ((reader "f" text 1).next.1 = .ok ⟨.literal "1", ⟨"f", 2, 1⟩⟩ ∧
      (reader "f" text 1).position text < (reader "f" text 2).position text) ∧
    (∀ m, 2 ≤ m → (reader "f" text m).next.1 = .error ⟨.strayCharacter '?', ⟨"f", 2, 3⟩⟩) ∧
    (∀ m, 1 ≤ m → (reader "f" "x\n" m).next.1 = .ok ⟨.endOfFile, ⟨"f", 2, 1⟩⟩) ∧
    ∃ ts, tokenize "f" "x\n" = .ok ts ∧ ts.length ≤ 3 := by
  intro text
  have hstring : (reader "f" text 0).next.1 = .error ⟨.unterminatedString, ⟨"f", 1, 1⟩⟩ := by
    decide +kernel
  have hnumber : (reader "f" text 1).next.1 = .ok ⟨.literal "1", ⟨"f", 2, 1⟩⟩ := by
    decide +kernel
  have hstray : (reader "f" text 2).next.1 = .error ⟨.strayCharacter '?', ⟨"f", 2, 3⟩⟩ := by
    decide +kernel
  have hend : (reader "f" "x\n" 1).next.1 = .ok ⟨.endOfFile, ⟨"f", 2, 1⟩⟩ := by
    decide +kernel
  obtain ⟨hsteady, -⟩ := readings_steady "f" text
  obtain ⟨hsteady', -, hlength⟩ := readings_steady "f" "x\n"
  refine ⟨⟨hstring, (hsteady 0).brokenString _ hstring⟩,
    ⟨hnumber, (hsteady 1).token _ hnumber (by decide)⟩, fun m hm => ?_, fun m hm => ?_, ?_⟩
  · rw [((hsteady 2).stray _ _ hstray).2.2 m hm, hstray]
  · rw [((hsteady' 1).ended _ hend rfl).2 m hm, hend]
  · have hts : tokenize "f" "x\n" =
        .ok [⟨.identifier "x", ⟨"f", 1, 1⟩⟩, ⟨.endOfFile, ⟨"f", 2, 1⟩⟩] := by decide +kernel
    exact ⟨_, hts, hlength _ hts⟩

end Cursor

end Ilang
