import Ilang.Ty
import Ilang.Text.Decimal
import Ilang.Text.Integer
/-!
# The type of a literal

A literal's type shows in its text. Digits that fit no 64-bit integer make a floating point number.
-/
namespace Ilang.Literal

/-- The type that the text of a literal stands for. -/
def type? (text : String) : Option Ty :=
  if text = "unit" then some .unit
  else if text = "true" || text = "false" then some .bool
  else if text.toList.head? = some '"' then some .string
  else if (Text.int64? text).isSome then some .int
  else if Text.isDecimal text then some .float
  else none

end Ilang.Literal
