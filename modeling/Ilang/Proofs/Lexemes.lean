import Ilang.Token.Lexeme
/-!
# How tokens are spelled

`Fits kind rest` says that the text of a token is spelled as its kind asks for, and that the text
`rest` behind it does not make it longer. The token at the front of a text is the one that fits
there (`front_eq_token_iff`), so at a fault no token fits (`front_eq_stray`,
`front_eq_brokenString`).
-/
namespace Ilang.Lexeme

/-! ## Spelling -/

/-- A word: it starts as words do and goes on as they do. -/
def IsWord (w : List Char) : Prop :=
  ∃ c rest, w = c :: rest ∧ startsWord c = true ∧ ∀ d ∈ rest, continuesWord d = true

/-- ASCII digits, at least one. -/
def IsDigits (ds : List Char) : Prop := ds ≠ [] ∧ ∀ d ∈ ds, d.isDigit = true

/-- What can stand between the quotes of a string: there is no line feed, and a quote only with a
backslash before it. -/
inductive StringBody : List Char → Prop
  | nil : StringBody []
  | plain {c : Char} {cs : List Char} (hquote : c ≠ '"') (hescape : c ≠ '\\') (hline : c ≠ '\n')
    (h : StringBody cs) : StringBody (c :: cs)
  | escaped {c : Char} {cs : List Char} (hline : c ≠ '\n') (h : StringBody cs) :
    StringBody ('\\' :: c :: cs)

/-- A text does not begin with a character of some class. -/
def EndsBefore (p : Char → Bool) (rest : List Char) : Prop := ∀ c ∈ rest.head?, p c = false

/-- A token is spelled as its kind asks for, and what follows it does not make it longer. -/
inductive Fits : TokenKind → (rest : List Char) → Prop
  | keyword {k : TokenKind} {rest : List Char} (hk : k ∈ TokenKind.keywords)
    (hend : EndsBefore continuesWord rest) : Fits k rest
  | literalWord {w : String} {rest : List Char} (hw : w ∈ TokenKind.literalWords)
    (hend : EndsBefore continuesWord rest) : Fits (.literal w) rest
  | identifier {w : String} {rest : List Char} (hw : IsWord w.toList)
    (hkeyword : w ∉ TokenKind.keywords.map TokenKind.text) (hliteral : w ∉ TokenKind.literalWords)
    (hend : EndsBefore continuesWord rest) : Fits (.identifier w) rest
  | whole {ds rest : List Char} (hds : IsDigits ds) (hend : EndsBefore Char.isDigit rest)
    (hpoint : ∀ d cs, rest = '.' :: d :: cs → d.isDigit = false) :
    Fits (.literal (String.ofList ds)) rest
  | fraction {ds fs rest : List Char} (hds : IsDigits ds) (hfs : IsDigits fs)
    (hend : EndsBefore Char.isDigit rest) : Fits (.literal (String.ofList (ds ++ '.' :: fs))) rest
  | string {body rest : List Char} (h : StringBody body) :
    Fits (.literal (String.ofList ('"' :: (body ++ ['"'])))) rest
  | symbol {k : TokenKind} {rest : List Char} (hk : k ∈ TokenKind.symbols)
    (hlongest : ∀ k' ∈ TokenKind.symbols, k'.text.toList <+: k.text.toList ++ rest →
      k'.text.toList.length ≤ k.text.toList.length) : Fits k rest

theorem Fits.ne_endOfFile {kind : TokenKind} {rest : List Char} (h : Fits kind rest) :
    kind ≠ .endOfFile := by
  rintro rfl
  cases h with
  | keyword hk => exact absurd hk (by decide)
  | symbol hk => exact absurd hk (by decide)

/-! ## Runs of characters -/

theorem endsBefore_dropWhile (p : Char → Bool) (cs : List Char) :
    EndsBefore p (cs.dropWhile p) := by
  intro c hc
  have := List.head?_dropWhile_not p cs
  rw [Option.mem_def.1 hc] at this
  simpa using this

theorem of_mem_takeWhile {p : Char → Bool} {cs : List Char} : ∀ c ∈ cs.takeWhile p, p c = true :=
  List.all_eq_true.1 List.all_takeWhile

theorem takeWhile_append {p : Char → Bool} {cs rest : List Char} (hcs : ∀ c ∈ cs, p c = true)
    (hrest : EndsBefore p rest) : (cs ++ rest).takeWhile p = cs := by
  rw [List.takeWhile_append_of_pos hcs]
  cases rest with
  | nil => simp
  | cons c rest => simp [hrest c rfl]

theorem dropWhile_append {p : Char → Bool} {cs rest : List Char} (hcs : ∀ c ∈ cs, p c = true)
    (hrest : EndsBefore p rest) : (cs ++ rest).dropWhile p = rest := by
  rw [List.dropWhile_append_of_pos hcs]
  cases rest with
  | nil => simp
  | cons c rest => simp [hrest c rfl]

/-! ## Words -/

theorem ofWord_keyword : ∀ k ∈ TokenKind.keywords, TokenKind.ofWord k.text = k := by decide

theorem ofWord_literalWord : ∀ w ∈ TokenKind.literalWords, TokenKind.ofWord w = .literal w := by
  decide

theorem ofWord_identifier {w : String} (hkeyword : w ∉ TokenKind.keywords.map TokenKind.text)
    (hliteral : w ∉ TokenKind.literalWords) : TokenKind.ofWord w = .identifier w := by
  have hfind : TokenKind.keywords.find? (·.text = w) = none := by
    rw [List.find?_eq_none]
    intro k hk heq
    exact hkeyword (of_decide_eq_true heq ▸ List.mem_map_of_mem hk)
  simp only [TokenKind.ofWord, hfind, if_neg hliteral]

/-- The word that a reserved word is. -/
theorem isWord_reserved : ∀ w ∈ TokenKind.keywords.map TokenKind.text ++ TokenKind.literalWords,
    IsWord w.toList := by
  have hall : ∀ w ∈ TokenKind.keywords.map TokenKind.text ++ TokenKind.literalWords,
      w.toList.head?.any startsWord ∧ w.toList.tail.all continuesWord := by decide
  intro w hw
  obtain ⟨hhead, htail⟩ := hall w hw
  obtain ⟨c, hc, hstart⟩ := (Option.any_eq_true ..).1 hhead
  obtain ⟨rest, hrest⟩ : ∃ rest, w.toList = c :: rest := List.head?_eq_some_iff.1 hc
  rw [hrest, List.tail_cons, List.all_eq_true] at htail
  exact ⟨c, rest, hrest, hstart, htail⟩

theorem IsWord.all {w : List Char} (h : IsWord w) : ∀ c ∈ w, continuesWord c = true := by
  obtain ⟨c, rest, rfl, hc, hrest⟩ := h
  exact List.forall_mem_cons.2 ⟨continuesWord_of_startsWord hc, hrest⟩

/-- A word is the token at the front of a text if it does not go on. -/
theorem front_word {w rest : List Char} (hw : IsWord w) (hend : EndsBefore continuesWord rest) :
    front (w ++ rest) = .token (.ofWord (String.ofList w)) rest := by
  have htake := takeWhile_append hw.all hend
  have hdrop := dropWhile_append hw.all hend
  obtain ⟨c, cs, rfl, hc, -⟩ := hw
  rw [List.cons_append] at *
  simp only [front, hc, if_true, htake, hdrop]

/-- The token that a word makes fits where the word ends. -/
theorem fits_ofWord {w : String} {rest : List Char} (hw : IsWord w.toList)
    (hend : EndsBefore continuesWord rest) : Fits (.ofWord w) rest := by
  by_cases hkeyword : w ∈ TokenKind.keywords.map TokenKind.text
  · obtain ⟨k, hk, rfl⟩ := List.mem_map.1 hkeyword
    rw [ofWord_keyword k hk]
    exact .keyword hk hend
  · by_cases hliteral : w ∈ TokenKind.literalWords
    · rw [ofWord_literalWord w hliteral]
      exact .literalWord hliteral hend
    · rw [ofWord_identifier hkeyword hliteral]
      exact .identifier hw hkeyword hliteral hend

/-! ## Numbers -/

theorem startsWord_of_isDigit {c : Char} (h : c.isDigit = true) : startsWord c = false := by
  simp only [Char.isDigit, Bool.and_eq_true, decide_eq_true_eq, ge_iff_le, UInt32.le_iff_toNat_le,
    Char.reduceVal, UInt32.reduceToNat] at h
  have hval : c.toNat = c.val.toNat := rfl
  have hletter : Text.isLetter c = false := by
    unfold Text.isLetter Char.isAlpha Char.isUpper Char.isLower
    simp only [Bool.or_eq_false_iff, Bool.and_eq_false_iff, decide_eq_false_iff_not, ge_iff_le,
      UInt32.le_iff_toNat_le, Char.reduceVal, UInt32.reduceToNat]
    omega
  have hunderscore : c ≠ '_' := by
    rintro rfl
    simp at h
  simp [startsWord, hletter, hunderscore]

/-- A number without a fraction ends before what is neither a digit nor a fraction. -/
theorem splitNumber_whole {ds rest : List Char} (hds : IsDigits ds)
    (hend : EndsBefore Char.isDigit rest)
    (hpoint : ∀ d cs, rest = '.' :: d :: cs → d.isDigit = false) :
    splitNumber (ds ++ rest) = (ds, rest) := by
  unfold splitNumber
  rw [takeWhile_append hds.2 hend, dropWhile_append hds.2 hend]
  dsimp only
  split
  · rw [hpoint _ _ rfl]
    rfl
  · rfl

theorem splitNumber_fraction {ds fs rest : List Char} (hds : IsDigits ds) (hfs : IsDigits fs)
    (hend : EndsBefore Char.isDigit rest) :
    splitNumber (ds ++ '.' :: (fs ++ rest)) = (ds ++ '.' :: fs, rest) := by
  have hpoint : EndsBefore Char.isDigit ('.' :: (fs ++ rest)) := by
    rintro c ⟨⟩
    decide
  have htake := takeWhile_append hfs.2 hend
  have hdrop := dropWhile_append hfs.2 hend
  obtain ⟨f, fs, rfl⟩ := List.exists_cons_of_ne_nil hfs.1
  unfold splitNumber
  rw [takeWhile_append hds.2 hpoint, dropWhile_append hds.2 hpoint]
  rw [List.cons_append] at htake hdrop ⊢
  simp only [hfs.2 f List.mem_cons_self, if_true, htake, hdrop]

/-- What `splitNumber` takes is spelled as a number and could not be longer. -/
theorem fits_splitNumber {c : Char} (hc : c.isDigit = true) (cs : List Char) :
    Fits (.literal (String.ofList (splitNumber (c :: cs)).1)) (splitNumber (c :: cs)).2 := by
  have hds : IsDigits ((c :: cs).takeWhile Char.isDigit) :=
    ⟨by simp [hc], of_mem_takeWhile⟩
  have hend := endsBefore_dropWhile Char.isDigit (c :: cs)
  unfold splitNumber
  split
  · rename_i d rest heq
    split
    · rename_i hd
      have hfs : IsDigits ((d :: rest).takeWhile Char.isDigit) :=
        ⟨by simp [hd], of_mem_takeWhile⟩
      exact .fraction hds hfs (endsBefore_dropWhile _ _)
    · rename_i hd
      refine .whole hds (heq ▸ hend) ?_
      rintro _ _ ⟨⟩
      simpa using hd
  · rename_i hno
    refine .whole hds hend ?_
    intro d rest heq
    exact absurd heq (hno d rest)

theorem front_number {ds rest behind : List Char} {c : Char} (hc : c.isDigit = true)
    (h : splitNumber (c :: ds) = (rest, behind)) :
    front (c :: ds) = .token (.literal (String.ofList rest)) behind := by
  simp only [front, startsWord_of_isDigit hc, hc, h, if_true, Bool.false_eq_true, if_false]

/-! ## Strings -/

theorem stringTail_of_body {body rest : List Char} (h : StringBody body) :
    stringTail (body ++ '"' :: rest) = ⟨true, body ++ ['"'], rest⟩ := by
  induction h with
  | nil => simp [stringTail]
  | plain hquote hescape hline _ ih =>
    rw [List.cons_append, stringTail.eq_3 _ _ (fun _ _ heq _ => hescape heq)]
    simp [hquote, hline, ih]
  | escaped hline _ ih => simp [stringTail, hline, ih]

/-- A string that was closed holds what a string can hold. -/
theorem body_of_stringTail {cs : List Char} (h : (stringTail cs).closed = true) :
    ∃ body, StringBody body ∧ (stringTail cs).body = body ++ ['"'] := by
  fun_induction stringTail cs with
  | case1 => cases h
  | case2 => cases h
  | case3 c rest hline t ih =>
    obtain ⟨body, hbody, heq⟩ := ih h
    exact ⟨'\\' :: c :: body, .escaped hline hbody, by simp [t, heq]⟩
  | case4 => exact ⟨[], .nil, rfl⟩
  | case5 => cases h
  | case6 c rest hescape hquote hline t ih =>
    obtain ⟨body, hbody, heq⟩ := ih h
    refine ⟨c :: body, .plain hquote ?_ hline hbody, by simp [t, heq]⟩
    rintro rfl
    -- A backslash that takes no character with it stands at the end, where nothing is closed.
    cases rest with
    | nil => cases h
    | cons d rest => exact hescape d rest rfl rfl

theorem front_quote (cs : List Char) :
    front ('"' :: cs) =
      if (stringTail cs).closed then
        .token (.literal (String.ofList ('"' :: (stringTail cs).body))) (stringTail cs).rest
      else .brokenString ('"' :: (stringTail cs).body) (stringTail cs).rest := by
  have hword : startsWord '"' = false := by decide
  have hdigit : '"'.isDigit = false := by decide
  simp only [front, hword, hdigit, Bool.false_eq_true, if_false, if_true]

/-! ## Symbols -/

/-- A symbol stands before those that it begins with. -/
theorem symbols_pairwise :
    TokenKind.symbols.Pairwise fun k k' => ¬ k.text.toList <+: k'.text.toList := by
  decide

theorem symbols_text_injective :
    ∀ k ∈ TokenKind.symbols, ∀ k' ∈ TokenKind.symbols, k.text.toList = k'.text.toList → k = k' := by
  decide

/-- No symbol looks like a word, a number or a string. -/
theorem symbols_head : ∀ k ∈ TokenKind.symbols, ∀ c ∈ k.text.toList.head?,
    startsWord c = false ∧ c.isDigit = false ∧ c ≠ '"' := by
  have hall : ∀ k ∈ TokenKind.symbols, k.text.toList.head?.all fun c =>
      !startsWord c && !c.isDigit && c != '"' := by
    decide
  intro k hk c hc
  have hhead := hall k hk
  rw [Option.mem_def.1 hc] at hhead
  simpa [and_assoc] using hhead

/-- The first symbol that a text begins with is the longest. -/
theorem length_le_of_symbol? {cs rest : List Char} {k : TokenKind}
    (h : symbol? cs = some (k, rest)) {k' : TokenKind} (hk' : k' ∈ TokenKind.symbols)
    (hfront : k'.text.toList <+: cs) : k'.text.toList.length ≤ k.text.toList.length := by
  obtain ⟨before, k₀, behind, hsymbols, hk₀, hbefore⟩ := List.findSome?_eq_some_iff.1 h
  obtain ⟨r, hr, heq⟩ := Option.map_eq_some_iff.1 hk₀
  cases heq
  have hpairwise := symbols_pairwise
  rw [hsymbols, List.pairwise_append, List.pairwise_cons] at hpairwise
  rw [hsymbols] at hk'
  have hk : k.text.toList <+: cs := ⟨rest, behind?_eq_some_iff.1 hr⟩
  rcases List.mem_append.1 hk' with hk' | hk'
  · obtain ⟨r', hr'⟩ := hfront
    have hnone := hbefore k' hk'
    rw [behind?_eq_some_iff.2 hr'] at hnone
    cases hnone
  · rcases List.mem_cons.1 hk' with rfl | hk'
    · exact Nat.le_refl _
    · refine Nat.le_of_not_lt fun hlt => ?_
      exact hpairwise.2.1.1 k' hk' (List.prefix_of_prefix_length_le hk hfront (by omega))

theorem fits_symbol? {cs rest : List Char} {k : TokenKind} (h : symbol? cs = some (k, rest)) :
    Fits k rest := by
  refine .symbol (mem_symbols_of_symbol? h) fun k' hk' hfront => ?_
  rw [symbol?_append h] at hfront
  exact length_le_of_symbol? h hk' hfront

theorem symbol?_of_longest {k : TokenKind} {rest : List Char} (hk : k ∈ TokenKind.symbols)
    (hlongest : ∀ k' ∈ TokenKind.symbols, k'.text.toList <+: k.text.toList ++ rest →
      k'.text.toList.length ≤ k.text.toList.length) :
    symbol? (k.text.toList ++ rest) = some (k, rest) := by
  have hsome : (symbol? (k.text.toList ++ rest)).isSome := by
    rw [symbol?, List.findSome?_isSome_iff]
    exact ⟨k, hk, by rw [behind?_eq_some_iff.2 rfl]; rfl⟩
  obtain ⟨⟨k₀, rest₀⟩, h₀⟩ := Option.isSome_iff_exists.1 hsome
  have happ := symbol?_append h₀
  have hk₀ := mem_symbols_of_symbol? h₀
  -- Both are the longest that the text begins with, so they have the same text.
  have hle := length_le_of_symbol? h₀ hk (List.prefix_append _ _)
  have hge := hlongest k₀ hk₀ ⟨rest₀, happ⟩
  obtain ⟨htext, hrest⟩ := List.append_inj happ (Nat.le_antisymm hge hle)
  rw [h₀, symbols_text_injective k₀ hk₀ k hk htext, hrest]

/-! ## The front of a text -/

theorem fits_of_front {cs rest : List Char} {kind : TokenKind} (h : front cs = .token kind rest) :
    Fits kind rest := by
  cases cs with
  | nil => cases h
  | cons c cs =>
    by_cases hword : startsWord c = true
    · simp only [front, hword, if_true] at h
      cases h
      refine fits_ofWord ?_ (endsBefore_dropWhile _ _)
      rw [String.toList_ofList, List.takeWhile_cons_of_pos (continuesWord_of_startsWord hword)]
      exact ⟨c, _, rfl, hword, of_mem_takeWhile⟩
    · by_cases hdigit : c.isDigit = true
      · rw [front_number hdigit rfl] at h
        cases h
        exact fits_splitNumber hdigit cs
      · by_cases hquote : c = '"'
        · rw [hquote, front_quote] at h
          split at h
          · rename_i hclosed
            cases h
            obtain ⟨body, hbody, heq⟩ := body_of_stringTail hclosed
            rw [heq]
            exact .string hbody
          · cases h
        · simp only [front, hword, hdigit, hquote, if_false, Bool.false_eq_true] at h
          split at h
          · rename_i hsymbol
            cases h
            exact fits_symbol? hsymbol
          · cases h

theorem front_of_fits {rest : List Char} {kind : TokenKind} (h : Fits kind rest) :
    front (kind.text.toList ++ rest) = .token kind rest := by
  cases h with
  | keyword hk hend =>
    have hword := isWord_reserved kind.text (List.mem_append_left _ (List.mem_map_of_mem hk))
    rw [front_word hword hend, String.ofList_toList, ofWord_keyword kind hk]
  | @literalWord w _ hw hend =>
    have hword := isWord_reserved w (List.mem_append_right _ hw)
    rw [TokenKind.text, front_word hword hend, String.ofList_toList, ofWord_literalWord w hw]
  | identifier hw hkeyword hliteral hend =>
    rw [TokenKind.text, front_word hw hend, String.ofList_toList,
      ofWord_identifier hkeyword hliteral]
  | whole hds hend hpoint =>
    have hsplit := splitNumber_whole hds hend hpoint
    rw [TokenKind.text, String.toList_ofList]
    obtain ⟨d, ds, rfl⟩ := List.exists_cons_of_ne_nil hds.1
    exact front_number (hds.2 d List.mem_cons_self) hsplit
  | fraction hds hfs hend =>
    have hsplit := splitNumber_fraction hds hfs hend
    rw [TokenKind.text, String.toList_ofList, List.append_assoc, List.cons_append]
    obtain ⟨d, ds, rfl⟩ := List.exists_cons_of_ne_nil hds.1
    exact front_number (hds.2 d List.mem_cons_self) hsplit
  | string hbody =>
    rw [TokenKind.text, String.toList_ofList, List.cons_append, List.append_assoc,
      List.singleton_append, front_quote, stringTail_of_body hbody]
    rfl
  | symbol hk hlongest =>
    have hsymbol := symbol?_of_longest hk hlongest
    obtain ⟨c, cs, htext⟩ := List.exists_cons_of_ne_nil (symbol_text_ne_nil kind hk)
    obtain ⟨hword, hdigit, hquote⟩ := symbols_head kind hk c (by rw [htext]; rfl)
    rw [htext, List.cons_append] at hsymbol ⊢
    simp only [front, hword, hdigit, hquote, hsymbol, Bool.false_eq_true, if_false]

/-- The token at the front of a text is the one that fits there. -/
theorem front_eq_token_iff {cs rest : List Char} {kind : TokenKind} :
    front cs = .token kind rest ↔ Fits kind rest ∧ cs = kind.text.toList ++ rest := by
  constructor
  · intro h
    exact ⟨fits_of_front h, (text_append_of_front h).symm⟩
  · rintro ⟨hfits, rfl⟩
    exact front_of_fits hfits

/-- No token fits at the front of a text. -/
def Unfit (cs : List Char) : Prop := ∀ kind rest, Fits kind rest → cs ≠ kind.text.toList ++ rest

theorem unfit_of_front {cs : List Char} (h : ∀ kind rest, front cs ≠ .token kind rest) : Unfit cs :=
  fun kind rest hfits heq => h kind rest (front_eq_token_iff.2 ⟨hfits, heq⟩)

/-- Where a stray character stands, no token fits, and it does not begin a string. -/
theorem front_eq_stray {cs : List Char} {c : Char} (h : front cs = .stray c) :
    Unfit cs ∧ cs.head? = some c ∧ c ≠ '"' := by
  refine ⟨unfit_of_front (by simp [h]), ?_⟩
  cases cs with
  | nil => cases h
  | cons d cs =>
    by_cases hquote : d = '"'
    · rw [hquote, front_quote] at h
      split at h <;> cases h
    · simp only [front, hquote, if_false] at h
      repeat' split at h
      all_goals cases h
      exact ⟨rfl, hquote⟩

/-- Where a string that breaks off starts, no token fits. -/
theorem front_eq_brokenString {cs read rest : List Char} (h : front cs = .brokenString read rest) :
    Unfit cs ∧ cs.head? = some '"' := by
  refine ⟨unfit_of_front (by simp [h]), ?_⟩
  cases cs with
  | nil => cases h
  | cons d cs =>
    by_cases hquote : d = '"'
    · rw [hquote]
      rfl
    · simp only [front, hquote, if_false] at h
      repeat' split at h
      all_goals cases h

theorem front_eq_nothing {cs : List Char} (h : front cs = .nothing) : cs = [] := by
  cases cs with
  | nil => rfl
  | cons d cs =>
    simp only [front] at h
    repeat' split at h
    all_goals cases h

end Ilang.Lexeme
