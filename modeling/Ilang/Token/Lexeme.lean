import Ilang.Token
import Ilang.Text.Blank
import Ilang.Text.Letter
import Ilang.Text.Number
/-!
# The token at the front of a text

Decides which token a text begins with, without regard to where it stands. A word or a number goes
on as long as its characters do, a symbol is the longest one that fits, and a string ends at the
first quote without a backslash before it.
-/
namespace Ilang.Lexeme

/-- Whether a character can start a word. -/
def startsWord (c : Char) : Bool := Text.isLetter c || c = '_'

/-- Whether a character can stand inside a word. -/
def continuesWord (c : Char) : Bool := Text.isLetter c || Text.isNumeral c || c = '_'

/-- Splits a text behind its number: a run of ASCII digits and, if a digit follows the point, a
fraction. -/
def splitNumber (cs : List Char) : List Char × List Char :=
  let whole := cs.takeWhile Char.isDigit
  match cs.dropWhile Char.isDigit with
  | '.' :: d :: rest =>
    if d.isDigit then
      (whole ++ '.' :: (d :: rest).takeWhile Char.isDigit, (d :: rest).dropWhile Char.isDigit)
    else
      (whole, '.' :: d :: rest)
  | rest => (whole, rest)

/-- The part of a text that a string takes behind its opening quote. -/
structure StringTail where
  /-- Whether the closing quote was found. -/
  closed : Bool
  /-- What was read: up to the closing quote, or up to where the string broke off. -/
  body : List Char
  rest : List Char
deriving DecidableEq, Repr

/-- Reads a string behind its opening quote. A backslash takes the next character with it. A line
feed or the end of the text breaks the string off. -/
def stringTail : List Char → StringTail
  | [] => ⟨false, [], []⟩
  | '\\' :: e :: rest =>
    if e = '\n' then ⟨false, ['\\', '\n'], rest⟩
    else
      let t := stringTail rest
      ⟨t.closed, '\\' :: e :: t.body, t.rest⟩
  | c :: rest =>
    if c = '"' then ⟨true, ['"'], rest⟩
    else if c = '\n' then ⟨false, ['\n'], rest⟩
    else
      let t := stringTail rest
      ⟨t.closed, c :: t.body, t.rest⟩

/-- What follows `start` in a text that begins with it. -/
def behind? : (start text : List Char) → Option (List Char)
  | [], cs => some cs
  | s :: start, c :: cs => if s = c then behind? start cs else none
  | _ :: _, [] => none

/-- The first symbol that a text begins with, and the text behind it. -/
def symbol? (cs : List Char) : Option (TokenKind × List Char) :=
  TokenKind.symbols.findSome? fun k => (behind? k.text.toList cs).map (k, ·)

/-- What a text begins with. -/
inductive Front where
  /-- A token; its text is followed by `rest`. -/
  | token (kind : TokenKind) (rest : List Char)
  /-- A string that broke off behind the characters `read`. -/
  | brokenString (read rest : List Char)
  /-- A character that starts no token. -/
  | stray (c : Char)
  /-- Nothing: the text is empty. -/
  | nothing
deriving DecidableEq, Repr

/-- What a text begins with, if it does not begin with blanks or a comment. -/
def front : List Char → Front
  | [] => .nothing
  | c :: rest =>
    if startsWord c then
      let word := (c :: rest).takeWhile continuesWord
      .token (.ofWord (String.ofList word)) ((c :: rest).dropWhile continuesWord)
    else if c.isDigit then
      let (number, behind) := splitNumber (c :: rest)
      .token (.literal (String.ofList number)) behind
    else if c = '"' then
      let tail := stringTail rest
      if tail.closed then .token (.literal (String.ofList ('"' :: tail.body))) tail.rest
      else .brokenString ('"' :: tail.body) tail.rest
    else
      match symbol? (c :: rest) with
      | some (kind, behind) => .token kind behind
      | none => .stray c

/-! ## A token takes something from the text -/

theorem splitNumber_append (cs : List Char) :
    (splitNumber cs).1 ++ (splitNumber cs).2 = cs := by
  have h := List.takeWhile_append_dropWhile (p := Char.isDigit) (l := cs)
  unfold splitNumber
  split
  · rename_i d rest heq
    rw [heq] at h
    split
    · simp only [List.append_assoc, List.cons_append, List.takeWhile_append_dropWhile]
      exact h
    · exact h
  · exact h

theorem stringTail_append (cs : List Char) :
    (stringTail cs).body ++ (stringTail cs).rest = cs := by
  fun_induction stringTail cs <;> simp_all +zetaDelta

theorem behind?_eq_some_iff {start cs rest : List Char} :
    behind? start cs = some rest ↔ start ++ rest = cs := by
  fun_induction behind? start cs <;> simp_all [eq_comm]

theorem symbol?_append {cs : List Char} {kind : TokenKind} {rest : List Char}
    (h : symbol? cs = some (kind, rest)) : kind.text.toList ++ rest = cs := by
  obtain ⟨k, -, hk⟩ := List.exists_of_findSome?_eq_some h
  obtain ⟨r, hr, heq⟩ := Option.map_eq_some_iff.1 hk
  cases heq
  exact behind?_eq_some_iff.1 hr

theorem ofWord_text (w : String) : (TokenKind.ofWord w).text = w := by
  unfold TokenKind.ofWord
  split
  · rename_i k hk
    simpa using List.find?_some hk
  · split <;> rfl

theorem continuesWord_of_startsWord {c : Char} (h : startsWord c = true) :
    continuesWord c = true := by
  simp only [startsWord, continuesWord, Bool.or_eq_true] at h ⊢
  exact h.imp Or.inl id

theorem splitNumber_ne_nil {c : Char} (h : c.isDigit = true) (cs : List Char) :
    (splitNumber (c :: cs)).1 ≠ [] := by
  simp only [splitNumber, List.takeWhile_cons_of_pos h]
  split
  · split <;> simp
  · simp

theorem symbol_text_ne_nil : ∀ k ∈ TokenKind.symbols, k.text.toList ≠ [] := by
  decide

theorem mem_symbols_of_symbol? {cs : List Char} {kind : TokenKind} {rest : List Char}
    (h : symbol? cs = some (kind, rest)) : kind ∈ TokenKind.symbols := by
  obtain ⟨k, hmem, hk⟩ := List.exists_of_findSome?_eq_some h
  obtain ⟨r, -, heq⟩ := Option.map_eq_some_iff.1 hk
  cases heq
  exact hmem

/-- The token at the front of a text is the text up to the rest. -/
theorem text_append_of_front {cs : List Char} {kind : TokenKind} {rest : List Char}
    (h : front cs = .token kind rest) : kind.text.toList ++ rest = cs := by
  unfold front at h
  split at h
  · cases h
  · rename_i c tail
    split at h
    · cases h
      rw [ofWord_text, String.toList_ofList, List.takeWhile_append_dropWhile]
    · split at h
      · cases h
        simp only [TokenKind.text, String.toList_ofList]
        exact splitNumber_append _
      · split at h
        · rename_i hq
          simp only at h
          split at h
          · cases h
            simp only [TokenKind.text, String.toList_ofList, List.cons_append, stringTail_append,
              hq]
          · cases h
        · split at h
          · rename_i hs
            cases h
            exact symbol?_append hs
          · cases h

/-- No token is empty. -/
theorem text_ne_nil_of_front {cs : List Char} {kind : TokenKind} {rest : List Char}
    (h : front cs = .token kind rest) : kind.text.toList ≠ [] := by
  unfold front at h
  split at h
  · cases h
  · rename_i c tail
    split at h
    · rename_i hw
      cases h
      rw [ofWord_text, String.toList_ofList,
        List.takeWhile_cons_of_pos (continuesWord_of_startsWord hw)]
      simp
    · split at h
      · rename_i hd
        cases h
        simp only [TokenKind.text, String.toList_ofList]
        exact splitNumber_ne_nil hd _
      · split at h
        · simp only at h
          split at h
          · cases h
            simp [TokenKind.text, String.toList_ofList]
          · cases h
        · split at h
          · rename_i hs
            cases h
            exact symbol_text_ne_nil _ (mem_symbols_of_symbol? hs)
          · cases h

/-- Every token shortens the text. -/
theorem length_rest_of_front {cs : List Char} {kind : TokenKind} {rest : List Char}
    (h : front cs = .token kind rest) : rest.length < cs.length := by
  have happ := congrArg List.length (text_append_of_front h)
  have hpos := List.length_pos_iff.2 (text_ne_nil_of_front h)
  rw [List.length_append] at happ
  omega

end Ilang.Lexeme
