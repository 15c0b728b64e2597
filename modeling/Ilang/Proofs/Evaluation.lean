import Ilang.Literal
import Ilang.Program
import Ilang.Proofs.Scopes
/-!
# The meaning of programs

An evaluator over 64-bit words. Names are looked up in the scopes that are open when they are used,
`return` and `break` leave what they stand in, and a call is answered by the world. It does not use
what the passes note in a tree, but for the labels of strings, which the world gives addresses.

An expression that makes no word of its own, `unit` or `break`, leaves the word that was made last.
Therefore each evaluation is told that word.
-/
namespace Ilang

/-- What a register holds. All values of the language are words. -/
abbrev Word := BitVec 64

/-- A call that was made. -/
structure Call where
  callee : String
  arguments : List Word
deriving DecidableEq, Repr

/-- What a function does not know of itself. -/
structure World where
  /-- Where the constant of a label is. -/
  address : String → Word
  /-- What the latest of the calls that were made, which comes first, gives back. Nothing, if it
  never ends. -/
  answer : List Call → Option Word

/-! ## Words -/

/-- The word of a truth value. -/
def truth (b : Bool) : Word := if b then 1 else 0

/-- What an operator makes of its operands. Nothing, if the machine traps. -/
def BinaryOp.apply : BinaryOp → Word → Word → Option Word
  | add, a, b => some (a + b)
  | sub, a, b => some (a - b)
  | mul, a, b => some (a * b)
  | div, a, b => if b = 0 ∨ a = BitVec.intMin 64 ∧ b = -1 then none else some (a.sdiv b)
  | eq, a, b => some (truth (a = b))
  | ne, a, b => some (truth (a ≠ b))
  | lt, a, b => some (truth (a.slt b))
  | gt, a, b => some (truth (b.slt a))
  | le, a, b => some (truth (a.sle b))
  | ge, a, b => some (truth (b.sle a))
  | shl, a, b => some (a <<< (b.toNat % 64))
  | shr, a, b => some (a >>> (b.toNat % 64))
  | and, a, b => some (a &&& b)
  | or, a, b => some (a ||| b)

/-- What an operator makes of its operand. -/
def UnaryOp.apply : UnaryOp → Word → Word
  | not, a => truth (a = 0)
  | neg, a => -a

/-- The word that a literal stands for. There is none for a floating point number. -/
def Literal.word (world : World) (latest : Word) (text : String) (constant : Option String) :
    Option Word :=
  match Literal.type? text with
  | some .int => (Text.int64? text).map (BitVec.ofInt 64)
  | some .bool => some (truth (text = "true"))
  | some .string => constant.map world.address
  | some .unit => some latest
  | _ => none

/-! ## Evaluation -/

/-- The variables, and the calls that were made, the latest first. -/
structure Store where
  scopes : Scopes Word
  calls : List Call

/-- Why an evaluation did not go on to its end. -/
inductive Exit where
  /-- The innermost loop is left, with the word that was made last. -/
  | broke (latest : Word)
  | returned (w : Word)
  /-- The machine cannot divide. -/
  | trapped
  /-- A call never ends. -/
  | abandoned
  /-- There is no meaning: a name that is not visible, or a number that is no word. -/
  | stuck
deriving DecidableEq, Repr

/-- What comes of an evaluation. -/
inductive Evaluated (α : Type) where
  | done (a : α) (s : Store)
  | left (exit : Exit) (s : Store)
  /-- A loop was not done with as often as it may be repeated. -/
  | spent

/-- Something that is evaluated with the variables that there are. -/
def Eval (α : Type) : Type := Store → Evaluated α

namespace Eval

variable {α β : Type}

/-- Goes on with what was evaluated, unless it was left. -/
protected def bind (x : Eval α) (f : α → Eval β) : Eval β := fun s =>
  match x s with
  | .done a t => f a t
  | .left exit t => .left exit t
  | .spent => .spent

instance : Monad Eval where
  pure a := fun s => .done a s
  bind := Eval.bind

/-- Leaves what is evaluated. -/
def leave (exit : Exit) : Eval α := fun s => .left exit s

/-- Goes on with a value that may be missing. -/
def orLeave (exit : Exit) : Option α → Eval α
  | some a => pure a
  | none => leave exit

/-- The value of a name. -/
def read (name : String) : Eval Word := fun s => orLeave .stuck (s.scopes.lookup name) s

/-- Declares a name in the innermost scope. -/
def declare (name : String) (w : Word) : Eval Unit := fun s =>
  .done () { s with scopes := s.scopes.insert name w }

/-- Gives a name that is visible another value. -/
def assign (name : String) (w : Word) : Eval Unit := fun s =>
  if (s.scopes.lookup name).isSome then .done () { s with scopes := s.scopes.update name w }
  else .left .stuck s

/-- Makes a call. -/
def call (world : World) (callee : String) (arguments : List Word) : Eval Word := fun s =>
  let calls := ⟨callee, arguments⟩ :: s.calls
  orLeave .abandoned (world.answer calls) { s with calls := calls }

/-- Evaluates in a scope of its own, which is closed however it ends. -/
def inScope (x : Eval α) : Eval α := fun s =>
  match x { s with scopes := s.scopes.push } with
  | .done a t => .done a { t with scopes := t.scopes.pop }
  | .left exit t => .left exit { t with scopes := t.scopes.pop }
  | .spent => .spent

/-- One round of a loop: what the body makes, or nothing if the condition is zero. -/
def round (condition body : Word → Eval Word) (latest : Word) : Eval (Option Word) := do
  let c ← condition latest
  if c = 0 then return none else return some (← body c)

/-- A loop: the body follows the condition as long as that is not zero, but not more often than
given. A `break` in either ends it. -/
def repeatWhile (condition body : Word → Eval Word) : Nat → Word → Eval Word
  | 0, _ => fun _ => .spent
  | n + 1, latest => fun s =>
    match round condition body latest s with
    | .done none t => .done 0 t
    | .done (some w) t => repeatWhile condition body n w t
    | .left (.broke w) t => .done w t
    | .left exit t => .left exit t
    | .spent => .spent

end Eval

mutual

/-- The word that an expression makes, if no loop is repeated more often than `fuel`. -/
def Expr.eval (world : World) (fuel : Nat) (latest : Word) : Expr → Eval Word
  | .literal _ text constant => .orLeave .stuck (Literal.word world latest text constant)
  | .var _ ident => .read ident.name
  | .call _ callee arguments => do
    let words ← evalArguments world fuel latest arguments
    .call world callee.name words
  | .block _ body result => .inScope do
    let latest ← evalAll world fuel latest body
    evalOpt world fuel latest result
  | .bind _ ident _ value => do
    let w ← value.eval world fuel latest
    .declare ident.name w
    return w
  | .assign _ target value => do
    let w ← value.eval world fuel latest
    .assign target.name w
    return w
  | .binary _ op left right => do
    let r ← right.eval world fuel latest
    let l ← left.eval world fuel r
    .orLeave .trapped (op.apply l r)
  | .unary _ op operand => do
    let w ← operand.eval world fuel latest
    return op.apply w
  | .group _ inner => inner.eval world fuel latest
  | .branch _ condition onTrue onFalse => do
    let c ← condition.eval world fuel latest
    if c = 0 then evalOpt world fuel c onFalse else onTrue.eval world fuel c
  | .ret _ value => do
    let w ← value.eval world fuel latest
    .leave (.returned w)
  | .loop _ condition body =>
    .repeatWhile (fun w => condition.eval world fuel w) (fun w => body.eval world fuel w) fuel latest
  | .brk _ => .leave (.broke latest)

/-- Evaluates expressions one after another. -/
def evalAll (world : World) (fuel : Nat) (latest : Word) : List Expr → Eval Word
  | [] => return latest
  | e :: es => do
    let w ← e.eval world fuel latest
    evalAll world fuel w es

/-- The words of arguments, which are evaluated one after another. -/
def evalArguments (world : World) (fuel : Nat) (latest : Word) : List Expr → Eval (List Word)
  | [] => return []
  | e :: es => do
    let w ← e.eval world fuel latest
    let ws ← evalArguments world fuel w es
    return w :: ws

/-- The word of an expression that may be missing, which makes zero then. -/
def evalOpt (world : World) (fuel : Nat) (latest : Word) : Option Expr → Eval Word
  | none => return 0
  | some e => e.eval world fuel latest

end

/-- Parentheses make what is inside them. -/
theorem Expr.eval_group (world : World) (fuel : Nat) (latest : Word) (n : Node) (inner : Expr) :
    (Expr.group n inner).eval world fuel latest = inner.eval world fuel latest := by
  rw [Expr.eval]

/-- How a run of a function ends. -/
inductive Ending where
  | returned (w : Word)
  | trapped
  | abandoned
  | stuck
deriving DecidableEq, Repr

/-- The scope of parameters with the given values. -/
def paramScope (params : List Param) (arguments : List Word) : Scopes Word :=
  (params.zip arguments).foldl (fun s x => s.insert x.1.ident.name x.2) Scopes.empty.push

/-- How a function ends with the given arguments, and the calls that were made then, behind those
that had been made before. Nothing, if a loop is repeated more often than `fuel`. -/
def Function.eval (world : World) (fuel : Nat) (latest : Word) (calls : List Call)
    (arguments : List Word) (f : Function) : Option (Ending × List Call) :=
  match f.body.eval world fuel latest ⟨paramScope f.params arguments, calls⟩ with
  | .done w s => some (.returned w, s.calls)
  | .left (.returned w) s => some (.returned w, s.calls)
  | .left .trapped s => some (.trapped, s.calls)
  | .left .abandoned s => some (.abandoned, s.calls)
  | .left (.broke _) s => some (.stuck, s.calls)
  | .left .stuck s => some (.stuck, s.calls)
  | .spent => none

end Ilang
