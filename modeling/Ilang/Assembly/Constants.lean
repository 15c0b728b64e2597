import Ilang.Assembly.Error
import Ilang.Assembly.Instr
import Ilang.Assembly.Label
/-!
# Constants

The data that code refers to by labels. Equal texts are not merged: every literal has a constant of
its own.
-/
namespace Ilang

/-- A labelled piece of data. Its text is a literal as it was written, quotes included. -/
structure Constant where
  label : String
  ty : Ty
  text : String
deriving DecidableEq, Repr, Inhabited

/-- The constants of a program, in the order in which they were added. -/
structure Constants where
  entries : Array Constant := #[]
deriving DecidableEq, Repr, Inhabited

namespace Constants

/-- The labels of constants. -/
def labels : LabelSupply := { stem := ".constant" }

/-- Adds a constant under a new label. -/
def allocate (c : Constants) (text : String) (ty : Ty) : String × Constants :=
  let label := labels.label c.entries.size
  (label, ⟨c.entries.push ⟨label, ty, text⟩⟩)

/-- The lines for one constant. Only strings can be written. -/
def entryLines (c : Constant) : Except GenError (List Instr) :=
  if c.ty = .string then .ok [.label c.label, .asciz c.text]
  else .error (.unsupportedConstant c.label c.ty)

/-- The lines for constants one after another. -/
def entriesLines : List Constant → Except GenError (List Instr)
  | [] => .ok []
  | c :: cs => do return (← entryLines c) ++ (← entriesLines cs)

/-- The data section. -/
def dataLines (c : Constants) : Except GenError (List Instr) := do
  return .directive ".data" :: (← entriesLines c.entries.toList)

end Constants

end Ilang
