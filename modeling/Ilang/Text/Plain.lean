/-!
# Text without terminal controls

What is left of a text when everything that is meant for a terminal is taken out: control characters
other than blanks, and escape sequences as a whole. The forms of the sequences are those that
terminals know: an escape character with one or more characters behind it, control sequences, device
control strings, application strings and operating system commands.

A blank inside a sequence is shown and pauses it: what follows is shown until the next control
character, where the sequence goes on.
-/
namespace Ilang.Text

/-- How far an escape sequence has been read. -/
inductive Sequence where
  /-- The escape character alone. -/
  | escape
  /-- The escape character and intermediate characters. -/
  | intermediate
  /-- A control sequence, which ends with a character from `@` to `~`. -/
  | control
  /-- The beginning of a device control string. -/
  | device
  /-- A device control string, up to some of its parameters. -/
  | deviceParams
  /-- A device control string, up to some of its intermediate characters. -/
  | deviceIntermediate
  /-- The inside of a device control string, or of an application string. -/
  | string
  /-- An operating system command, which ends with a bell. -/
  | command
deriving DecidableEq, Repr

namespace Sequence

/-- What the character behind an escape character begins, if that is not all of the sequence. -/
def ofIntroducer? (c : Char) : Option Sequence :=
  match c with
  | '[' => some control
  | ']' => some command
  | 'P' => some device
  | 'X' | '^' | '_' => some string
  | _ => none

/-- The byte that ends a string. It counts inside the encoding of a character too. -/
def stringEnd : UInt8 := 0x9c

/-- A sequence with one more character, or nothing if the character ends it. -/
def next (s : Sequence) (c : Char) : Option Sequence :=
  match s with
  | escape =>
    if ' ' ≤ c ∧ c ≤ '/' then some intermediate
    else if '0' ≤ c ∧ c ≤ '~' then ofIntroducer? c
    else some escape
  | intermediate => if '0' ≤ c ∧ c ≤ '~' then none else some intermediate
  | control => if '@' ≤ c ∧ c ≤ '~' then none else some control
  | device =>
    if ' ' ≤ c ∧ c ≤ '/' then some deviceIntermediate
    else if '0' ≤ c ∧ c ≤ '?' then some deviceParams
    else if '@' ≤ c ∧ c ≤ '~' then some string
    else some device
  | deviceParams =>
    if ' ' ≤ c ∧ c ≤ '/' then some deviceIntermediate
    else if '<' ≤ c ∧ c ≤ '~' then some string
    else some deviceParams
  | deviceIntermediate => if '0' ≤ c ∧ c ≤ '~' then some string else some deviceIntermediate
  | string => if stringEnd ∈ String.utf8EncodeChar c then none else some string
  | command => if c = '\x07' then none else some command

/-- Whether blanks inside a sequence are shown. -/
def showsBlanks : Sequence → Bool
  | escape | intermediate | control => true
  | _ => false

end Sequence

/-- Where a terminal stands in a text. -/
structure Terminal where
  /-- The sequence that has begun. -/
  sequence : Option Sequence := none
  /-- Whether a blank has paused the sequence. -/
  paused : Bool := false
deriving DecidableEq, Repr

/-- Whether a character is a blank among the control characters. -/
def isControlBlank (c : Char) : Bool := c = '\t' || c = '\n' || c = '\x0c' || c = '\r'

/-- Whether a character is shown where no sequence has begun. -/
def isShown (c : Char) : Bool := if c < ' ' then isControlBlank c else c ≠ '\x7f'

namespace Terminal

/-- Whether a character is shown, and where the terminal stands behind it. -/
def step (t : Terminal) (c : Char) : Bool × Terminal :=
  if c = '\x1b' then (false, ⟨some .escape, false⟩)
  else if c = '\x18' ∨ c = '\x1a' then (false, {})
  else
    match t.sequence with
    | none => (isShown c, {})
    | some s =>
      if t.paused then
        if isShown c then (true, if c.toNat < 0x80 then t else {}) else (false, ⟨some s, false⟩)
      else if isControlBlank c && s.showsBlanks then (true, ⟨some s, true⟩)
      else (false, ⟨s.next c, false⟩)

/-- The characters that are shown of a text. -/
def shown : Terminal → List Char → List Char
  | _, [] => []
  | t, c :: cs =>
    let (visible, after) := t.step c
    if visible then c :: after.shown cs else after.shown cs

end Terminal

/-- A text without anything that is meant for a terminal. -/
def plain (s : String) : String := String.ofList (Terminal.shown {} s.toList)

end Ilang.Text
