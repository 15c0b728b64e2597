/-!
# Decimal fractions as text

The texts that write a floating point number: a sign that may be missing, digits with a point
anywhere among them or none, at least one digit, and an exponent that may be missing. The words
`inf`, `infinity` and `nan` count too, in any case.
-/
namespace Ilang.Text

/-- A text without its sign. -/
def withoutSign : List Char → List Char
  | '+' :: cs => cs
  | '-' :: cs => cs
  | cs => cs

/-- Whether a text is an exponent or empty. -/
def isExponent : List Char → Bool
  | [] => true
  | e :: cs =>
    let ds := withoutSign cs
    (e = 'e' || e = 'E') && !ds.isEmpty && ds.all Char.isDigit

/-- Whether a text is digits, a point that may be missing, and an exponent that may be missing. -/
def isUnsignedDecimal (cs : List Char) : Bool :=
  let whole := cs.takeWhile Char.isDigit
  match cs.dropWhile Char.isDigit with
  | '.' :: rest =>
    let fraction := rest.takeWhile Char.isDigit
    !(whole.isEmpty && fraction.isEmpty) && isExponent (rest.dropWhile Char.isDigit)
  | rest => !whole.isEmpty && isExponent rest

/-- Whether a text names a number that has no digits. -/
def isNumberWord (cs : List Char) : Bool :=
  let word := String.ofList (cs.map Char.toLower)
  word = "inf" || word = "infinity" || word = "nan"

/-- Whether a text writes a floating point number. -/
def isDecimal (s : String) : Bool :=
  let cs := withoutSign s.toList
  isUnsignedDecimal cs || isNumberWord cs

end Ilang.Text
