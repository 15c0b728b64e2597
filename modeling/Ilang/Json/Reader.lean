import Ilang.Json
/-!
# Reading JSON

Accepts exactly the texts of the JSON grammar: blanks are space, tab, line feed and carriage return,
strings hold no control characters, and nothing but blanks surrounds the value.
-/
namespace Ilang.Json

/-- Whether a character separates the parts of a JSON text. -/
def isSpace (c : Char) : Bool := c = ' ' || c = '\t' || c = '\n' || c = '\r'

/-- A text without the blanks at its beginning. -/
def skipSpace (cs : List Char) : List Char := cs.dropWhile isSpace

/-- Splits a text behind the closing quote of a string. -/
def stringBody : List Char → Option (List Char × List Char)
  | [] => none
  | '"' :: rest => some ([], rest)
  | '\\' :: 'u' :: a :: b :: c :: d :: rest => do
    let _ ← hexUnit? a b c d
    let (body, behind) ← stringBody rest
    return ('\\' :: 'u' :: a :: b :: c :: d :: body, behind)
  | '\\' :: c :: rest => do
    let _ ← simpleEscape? c
    let (body, behind) ← stringBody rest
    return ('\\' :: c :: body, behind)
  | c :: rest =>
    if c.toNat < 0x20 ∨ c = '\\' then none
    else do
      let (body, behind) ← stringBody rest
      return (c :: body, behind)

/-- Splits a text behind its digits, of which there must be one. -/
def digits (cs : List Char) : Option (List Char × List Char) :=
  let ds := cs.takeWhile Char.isDigit
  if ds.isEmpty then none else some (ds, cs.dropWhile Char.isDigit)

/-- Splits a text behind the digits before the point. They begin with zero only if that is all. -/
def wholePart : List Char → Option (List Char × List Char)
  | '0' :: rest => if (rest.head?.map Char.isDigit).getD false then none else some (['0'], rest)
  | cs => digits cs

/-- Splits a text behind a fraction, which may be missing. -/
def fractionPart : List Char → Option (List Char × List Char)
  | '.' :: rest => do
    let (ds, behind) ← digits rest
    return ('.' :: ds, behind)
  | cs => some ([], cs)

/-- Splits a text behind an exponent, which may be missing. -/
def exponentPart : List Char → Option (List Char × List Char)
  | [] => some ([], [])
  | e :: rest =>
    if e = 'e' ∨ e = 'E' then
      match rest with
      | '+' :: cs => do
        let (ds, behind) ← digits cs
        return (e :: '+' :: ds, behind)
      | '-' :: cs => do
        let (ds, behind) ← digits cs
        return (e :: '-' :: ds, behind)
      | cs => do
        let (ds, behind) ← digits cs
        return (e :: ds, behind)
    else
      some ([], e :: rest)

/-- Splits a text behind a number without a sign. -/
def unsignedNumber (cs : List Char) : Option (List Char × List Char) := do
  let (whole, rest) ← wholePart cs
  let (fraction, rest) ← fractionPart rest
  let (exponent, rest) ← exponentPart rest
  return (whole ++ fraction ++ exponent, rest)

/-- Splits a text behind a number. -/
def numberText : List Char → Option (List Char × List Char)
  | '-' :: cs => do
    let (ds, rest) ← unsignedNumber cs
    return ('-' :: ds, rest)
  | cs => unsignedNumber cs

mutual

/-- Reads a value. The budget bounds the depth of the recursion. -/
def readValue : Nat → List Char → Option (Json × List Char)
  | 0, _ => none
  | n + 1, cs =>
    match skipSpace cs with
    | 'n' :: 'u' :: 'l' :: 'l' :: rest => some (.null, rest)
    | 't' :: 'r' :: 'u' :: 'e' :: rest => some (.bool true, rest)
    | 'f' :: 'a' :: 'l' :: 's' :: 'e' :: rest => some (.bool false, rest)
    | '"' :: rest => do
      let (body, behind) ← stringBody rest
      return (.string (String.ofList body), behind)
    | '[' :: rest =>
      match skipSpace rest with
      | ']' :: behind => some (.array [], behind)
      | _ => do
        let (items, behind) ← readItems n rest
        return (.array items, behind)
    | '\x7b' :: rest =>
      match skipSpace rest with
      | '\x7d' :: behind => some (.object [], behind)
      | _ => do
        let (fields, behind) ← readFields n rest
        return (.object fields, behind)
    | rest => do
      let (literal, behind) ← numberText rest
      return (.number (String.ofList literal), behind)

/-- Reads the items of an array and its closing bracket. -/
def readItems : Nat → List Char → Option (List Json × List Char)
  | 0, _ => none
  | n + 1, cs => do
    let (item, rest) ← readValue n cs
    match skipSpace rest with
    | ',' :: rest =>
      let (items, behind) ← readItems n rest
      return (item :: items, behind)
    | ']' :: behind => return ([item], behind)
    | _ => none

/-- Reads the fields of an object and its closing brace. -/
def readFields : Nat → List Char → Option (List (String × Json) × List Char)
  | 0, _ => none
  | n + 1, cs =>
    match skipSpace cs with
    | '"' :: rest => do
      let (key, rest) ← stringBody rest
      match skipSpace rest with
      | ':' :: rest =>
        let (value, rest) ← readValue n rest
        match skipSpace rest with
        | ',' :: rest =>
          let (fields, behind) ← readFields n rest
          return ((String.ofList key, value) :: fields, behind)
        | '\x7d' :: behind => return ([(String.ofList key, value)], behind)
        | _ => none
      | _ => none
    | _ => none

end

/-- The value that a text writes. -/
def parse? (s : String) : Option Json := do
  let cs := s.toList
  let (value, rest) ← readValue (2 * (cs.length + 1)) cs
  if (skipSpace rest).isEmpty then some value else none

end Ilang.Json
