/-!
# JSON values

A value keeps its strings and numbers as they are written, so that reading a text and writing it
again loses nothing. `Json.ofText` writes a string, `Json.text?` reads one. The fields of an object
stand in the order in which they were given.
-/
namespace Ilang

/-- A JSON value. -/
inductive Json where
  | null
  | bool (b : Bool)
  /-- A number, by its digits. -/
  | number (literal : String)
  /-- A string, by what stands between its quotes. -/
  | string (literal : String)
  | array (items : List Json)
  /-- Fields, each with what stands between the quotes of its key. -/
  | object (fields : List (String × Json))
deriving Repr, Inhabited

namespace Json

/-! ## Strings -/

/-- One character inside a string. -/
def escapeChar (c : Char) : List Char :=
  if c = '"' then ['\\', '"']
  else if c = '\\' then ['\\', '\\']
  else if c = '\x08' then ['\\', 'b']
  else if c = '\x0c' then ['\\', 'f']
  else if c = '\n' then ['\\', 'n']
  else if c = '\r' then ['\\', 'r']
  else if c = '\t' then ['\\', 't']
  else if c.toNat < 0x20 then
    ['\\', 'u', '0', '0', Nat.digitChar (c.toNat / 16), Nat.digitChar (c.toNat % 16)]
  else [c]

/-- A text as it stands between quotes. -/
def escape (s : String) : String := String.ofList (s.toList.flatMap escapeChar)

/-- The value of a hexadecimal digit. -/
def hexDigit? (c : Char) : Option Nat :=
  if c.isDigit then some (c.toNat - '0'.toNat)
  else if 'a' ≤ c ∧ c ≤ 'f' then some (c.toNat - 'a'.toNat + 10)
  else if 'A' ≤ c ∧ c ≤ 'F' then some (c.toNat - 'A'.toNat + 10)
  else none

/-- The value of four hexadecimal digits. -/
def hexUnit? (a b c d : Char) : Option Nat := do
  return (((← hexDigit? a) * 16 + (← hexDigit? b)) * 16 + (← hexDigit? c)) * 16 + (← hexDigit? d)

/-- The character that a letter behind a backslash stands for. -/
def simpleEscape? : Char → Option Char
  | '"' => some '"'
  | '\\' => some '\\'
  | '/' => some '/'
  | 'b' => some '\x08'
  | 'f' => some '\x0c'
  | 'n' => some '\n'
  | 'r' => some '\r'
  | 't' => some '\t'
  | _ => none

/-- The text that the inside of a string stands for. Two escapes that are the halves of a surrogate
pair make one character; there is none for half a pair. -/
def unescapeChars : List Char → Option (List Char)
  | [] => some []
  | '\\' :: 'u' :: a :: b :: c :: d :: rest => do
    let unit ← hexUnit? a b c d
    if unit < 0xd800 ∨ 0xdfff < unit then
      return Char.ofNat unit :: (← unescapeChars rest)
    else if 0xdbff < unit then
      none
    else
      match rest with
      | '\\' :: 'u' :: e :: f :: g :: h :: rest' =>
        let low ← hexUnit? e f g h
        if 0xdc00 ≤ low ∧ low ≤ 0xdfff then
          let code := 0x10000 + (unit - 0xd800) * 0x400 + (low - 0xdc00)
          return Char.ofNat code :: (← unescapeChars rest')
        else
          none
      | _ => none
  | '\\' :: c :: rest => do return (← simpleEscape? c) :: (← unescapeChars rest)
  | c :: rest => do return c :: (← unescapeChars rest)

/-- The text that the inside of a string stands for. -/
def unescape? (literal : String) : Option String :=
  (unescapeChars literal.toList).map String.ofList

/-- The string with a given text. -/
def ofText (s : String) : Json := string (escape s)

/-- The text of a string. -/
def text? : Json → Option String
  | string literal => unescape? literal
  | _ => none

/-- The number with a given value. -/
def ofNat (n : Nat) : Json := number (toString n)

/-- A value that may be missing. -/
def ofOption {α : Type} (f : α → Json) : Option α → Json
  | none => null
  | some a => f a

/-- An object with the given keys. -/
def ofFields (fields : List (String × Json)) : Json :=
  object (fields.map fun (key, value) => (escape key, value))

/-! ## Indented text -/

/-- A new line with an indentation of two blanks a level. -/
def newLine (level : Nat) : String := "\n" ++ String.ofList (List.replicate (2 * level) ' ')

mutual

/-- Appends the indented text of a value. Items and fields have a line each, empty arrays and
objects none. -/
def prettyOnto (acc : String) (level : Nat) : Json → String
  | null => acc ++ "null"
  | bool true => acc ++ "true"
  | bool false => acc ++ "false"
  | number literal => acc ++ literal
  | string literal => acc ++ "\"" ++ literal ++ "\""
  | array [] => acc ++ "[]"
  | array (first :: others) =>
    let acc := prettyOnto (acc ++ "[" ++ newLine (level + 1)) (level + 1) first
    prettyItems acc (level + 1) others ++ newLine level ++ "]"
  | object [] => acc ++ "\x7b\x7d"
  | object ((key, value) :: others) =>
    let acc := acc ++ "\x7b" ++ newLine (level + 1) ++ "\"" ++ key ++ "\": "
    prettyFields (prettyOnto acc (level + 1) value) (level + 1) others ++ newLine level ++ "\x7d"

/-- Appends items, each behind a comma. -/
def prettyItems (acc : String) (level : Nat) : List Json → String
  | [] => acc
  | item :: others => prettyItems (prettyOnto (acc ++ "," ++ newLine level) level item) level others

/-- Appends fields, each behind a comma. -/
def prettyFields (acc : String) (level : Nat) : List (String × Json) → String
  | [] => acc
  | (key, value) :: others =>
    let acc := acc ++ "," ++ newLine level ++ "\"" ++ key ++ "\": "
    prettyFields (prettyOnto acc level value) level others

end

/-- The indented text of a value. -/
def pretty (j : Json) : String := prettyOnto "" 0 j

end Json

end Ilang
