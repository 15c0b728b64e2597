import Ilang.Assembly.Instr
/-!
# Pieces of code

Instructions in pieces, so that two pieces are joined in one step however long they are. What counts
is the list of instructions that a piece stands for.
-/
namespace Ilang

/-- A piece of code. -/
inductive Code where
  | instrs (is : List Instr)
  | seq (first second : Code)
deriving Repr, Inhabited

namespace Code

instance : Append Code := ⟨seq⟩

instance : Coe (List Instr) Code := ⟨instrs⟩

/-- The instructions of a piece of code, before others. -/
def onto : Code → List Instr → List Instr
  | instrs is, rest => is ++ rest
  | seq first second, rest => first.onto (second.onto rest)

/-- The instructions of a piece of code. -/
def toList (c : Code) : List Instr := c.onto []

theorem onto_eq (c : Code) (rest : List Instr) : c.onto rest = c.toList ++ rest := by
  induction c generalizing rest with
  | instrs is => simp [toList, onto]
  | seq first second ih₁ ih₂ =>
    simp only [toList, onto]
    rw [ih₁, ih₂, ih₁ (second.onto []), ih₂ [], List.append_assoc, List.append_nil]

@[simp] theorem toList_instrs (is : List Instr) : (instrs is).toList = is := by
  simp [toList, onto]

@[simp] theorem toList_append (a b : Code) : (a ++ b).toList = a.toList ++ b.toList := by
  show a.onto (b.onto []) = _
  rw [onto_eq]
  rfl

end Code

end Ilang
