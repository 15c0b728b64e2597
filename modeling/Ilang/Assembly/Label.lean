/-!
# Labels

A supply of labels that share a stem and are numbered from zero.
-/
namespace Ilang

/-- Labels of one stem, of which some have been issued. -/
structure LabelSupply where
  stem : String
  issued : Nat := 0
deriving DecidableEq, Repr, Inhabited

namespace LabelSupply

/-- The label with a number. -/
def label (s : LabelSupply) (n : Nat) : String := s.stem ++ "_" ++ toString n

/-- A label that has not been issued before, and the supply without it. -/
def fresh (s : LabelSupply) : String × LabelSupply :=
  (s.label s.issued, { s with issued := s.issued + 1 })

end LabelSupply

end Ilang
