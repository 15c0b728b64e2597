/-!
# Integers as text

A sign that may be missing, and decimal digits. The value has to fit 64 bits in two's complement.
-/
namespace Ilang.Text

/-- The value of a row of decimal digits. -/
def digitsValue (ds : List Char) : Nat :=
  ds.foldl (fun n d => 10 * n + (d.toNat - '0'.toNat)) 0

/-- The number that a row of decimal digits writes, if it is one and not empty. -/
def natural? (ds : List Char) : Option Nat :=
  if ds.isEmpty then none
  else if ds.all Char.isDigit then some (digitsValue ds)
  else none

/-- The least 64-bit integer. -/
def int64Min : Int := -0x8000000000000000

/-- The greatest 64-bit integer. -/
def int64Max : Int := 0x7fffffffffffffff

/-- The 64-bit integer that a text writes. -/
def int64? (s : String) : Option Int :=
  let value? : Option Int :=
    match s.toList with
    | '-' :: ds => (natural? ds).map fun n => -(n : Int)
    | '+' :: ds => (natural? ds).map fun n => (n : Int)
    | ds => (natural? ds).map fun n => (n : Int)
  value?.filter fun n => int64Min ≤ n && n ≤ int64Max

end Ilang.Text
