import Ilang.Ty
import Ilang.Token
/-!
# Operators

The binary and unary operators, how they are written, and the types they apply to. Both operands of
a binary operator have the same type.
-/
namespace Ilang

/-- An operator between two operands. Both operands are always evaluated. -/
inductive BinaryOp where
  | add
  | sub
  | mul
  | div
  | eq
  | ne
  | lt
  | gt
  | le
  | ge
  | shl
  | shr
  | and
  | or
deriving DecidableEq, Repr, Inhabited

namespace BinaryOp

/-- The token that writes an operator. -/
def token : BinaryOp → TokenKind
  | add => .plus
  | sub => .minus
  | mul => .star
  | div => .slash
  | eq => .eq
  | ne => .ne
  | lt => .lt
  | gt => .gt
  | le => .le
  | ge => .ge
  | shl => .shl
  | shr => .shr
  | and => .andAnd
  | or => .orOr

/-- The operator that a token writes between two operands. -/
def ofToken? : TokenKind → Option BinaryOp
  | .plus => some add
  | .minus => some sub
  | .star => some mul
  | .slash => some div
  | .eq => some eq
  | .ne => some ne
  | .lt => some lt
  | .gt => some gt
  | .le => some le
  | .ge => some ge
  | .shl => some shl
  | .shr => some shr
  | .andAnd => some and
  | .orOr => some or
  | _ => none

/-- An operator as messages write it. -/
def text (op : BinaryOp) : String := op.token.text

/-- Whether operands of a type may stand beside an operator. -/
def appliesTo (op : BinaryOp) (t : Ty) : Bool :=
  match op with
  | eq | ne | and | or => t = .int || t = .bool
  | _ => t = .int

theorem ofToken?_eq_some_iff {k : TokenKind} {op : BinaryOp} :
    ofToken? k = some op ↔ k = op.token := by
  constructor
  · intro h
    cases k <;> simp_all [ofToken?] <;> subst h <;> rfl
  · rintro rfl
    cases op <;> rfl

end BinaryOp

/-- An operator before its operand. -/
inductive UnaryOp where
  | not
  | neg
deriving DecidableEq, Repr, Inhabited

namespace UnaryOp

/-- The token that writes an operator. -/
def token : UnaryOp → TokenKind
  | not => .bang
  | neg => .minus

/-- The operator that a token writes before an operand. -/
def ofToken? : TokenKind → Option UnaryOp
  | .bang => some not
  | .minus => some neg
  | _ => none

/-- An operator as messages write it. -/
def text (op : UnaryOp) : String := op.token.text

/-- Whether an operand of a type may stand behind an operator. -/
def appliesTo (op : UnaryOp) (t : Ty) : Bool :=
  match op with
  | not => t = .bool
  | neg => t = .int

theorem ofToken?_eq_some_iff {k : TokenKind} {op : UnaryOp} :
    ofToken? k = some op ↔ k = op.token := by
  constructor
  · intro h
    cases k <;> simp_all [ofToken?] <;> subst h <;> rfl
  · rintro rfl
    cases op <;> rfl

end UnaryOp

end Ilang
