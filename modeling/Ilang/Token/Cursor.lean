import Ilang.Token.Lexeme
/-!
# Reading tokens one after another

A cursor stands at a location of a source text, with the rest of the text before it. Each call of
`next` skips blanks and comments, reads one token and moves on. An error leaves a cursor too, so
reading can go on: a stray character is not passed, a string that broke off is.
-/
namespace Ilang

/-- What can be wrong with a source text. -/
inductive LexFault where
  | strayCharacter (c : Char)
  | unterminatedString
deriving DecidableEq, Repr

/-- The text of a fault. -/
def LexFault.message : LexFault → String
  | strayCharacter c => "Unexpected character: " ++ String.singleton c
  | unterminatedString => "Unterminated string literal"

/-- A fault and where the token that has it starts. -/
structure LexError where
  fault : LexFault
  location : Location
deriving DecidableEq, Repr

/-- A place in a source text and what is still to be read. -/
structure Cursor where
  location : Location
  rest : List Char
deriving DecidableEq, Repr

namespace Cursor

/-- The beginning of a source text. -/
def start (file source : String) : Cursor := ⟨.start file, source.toList⟩

/-- Moves behind `read`, with `rest` still to come. -/
def moveOver (c : Cursor) (read rest : List Char) : Cursor := ⟨c.location.advance read, rest⟩

/-- Skips blanks and comments from a location on. A comment goes from two slashes to the end of the
line; `inComment` says that one has begun. -/
def skipFrom : (inComment : Bool) → Location → List Char → Cursor
  | _, l, [] => ⟨l, []⟩
  | true, l, c :: rest => skipFrom (c != '\n') (l.step c) rest
  | false, l, c :: rest =>
    if Text.isBlank c then skipFrom false (l.step c) rest
    else if c = '/' && rest.head? = some '/' then skipFrom true (l.step c) rest
    else ⟨l, c :: rest⟩

/-- Moves to the next character that is neither blank nor in a comment. -/
def skip (c : Cursor) : Cursor := skipFrom false c.location c.rest

/-- Reads the token that starts here. -/
def readHere (here : Cursor) : Except LexError Token × Cursor :=
  match Lexeme.front here.rest with
  | .token kind rest => (.ok ⟨kind, here.location⟩, here.moveOver kind.text.toList rest)
  | .brokenString read rest =>
    (.error ⟨.unterminatedString, here.location⟩, here.moveOver read rest)
  | .stray ch => (.error ⟨.strayCharacter ch, here.location⟩, here)
  | .nothing => (.ok ⟨.endOfFile, here.location⟩, here)

/-- Reads the next token. At the end of the text this is the end token, again and again. -/
def next (c : Cursor) : Except LexError Token × Cursor := c.skip.readHere

theorem length_skipFrom_le (inComment : Bool) (l : Location) (cs : List Char) :
    (skipFrom inComment l cs).rest.length ≤ cs.length := by
  induction cs generalizing inComment l with
  | nil => simp [skipFrom]
  | cons c rest ih =>
    cases inComment with
    | true =>
      rw [skipFrom]
      exact Nat.le_trans (ih _ _) (by simp)
    | false =>
      rw [skipFrom]
      split
      · exact Nat.le_trans (ih _ _) (by simp)
      · split
        · exact Nat.le_trans (ih _ _) (by simp)
        · exact Nat.le_refl _

theorem length_skip_le (c : Cursor) : c.skip.rest.length ≤ c.rest.length :=
  length_skipFrom_le _ _ _

/-- Every token but the end token takes something from the text. -/
theorem length_next_lt {c c' : Cursor} {t : Token} (h : c.next = (.ok t, c'))
    (ht : t.kind ≠ .endOfFile) : c'.rest.length < c.rest.length := by
  unfold next readHere at h
  split at h
  · rename_i hf
    cases h
    exact Nat.lt_of_lt_of_le (Lexeme.length_rest_of_front hf) c.length_skip_le
  · cases h
  · cases h
  · cases h
    exact absurd rfl ht

/-- Reads all tokens up to and including the end token, or up to the first error. -/
def tokens (c : Cursor) : Except LexError (List Token) :=
  match _h : c.next with
  | (.error e, _) => .error e
  | (.ok t, c') =>
    if _ht : t.kind = .endOfFile then .ok [t]
    else
      match c'.tokens with
      | .error e => .error e
      | .ok ts => .ok (t :: ts)
termination_by c.rest.length
decreasing_by exact length_next_lt _h _ht

end Cursor

/-- The tokens of a source text, the end token last. -/
def tokenize (file source : String) : Except LexError (List Token) :=
  (Cursor.start file source).tokens

end Ilang
