/-!
# Nested scopes

A chain of scopes, each with names and what they stand for. A name is looked up from the innermost
scope outward, and declared in the innermost one, which may hold it only once.
-/
namespace Ilang

/-- Open scopes, the innermost first. -/
structure Scopes (α : Type) where
  chain : List (List (String × α))
deriving DecidableEq, Repr, Inhabited

namespace Scopes

variable {α : Type}

/-- No scope is open. -/
def empty : Scopes α := ⟨[]⟩

/-- Opens a scope. -/
def push (s : Scopes α) : Scopes α := ⟨[] :: s.chain⟩

/-- Closes the innermost scope, if one is open. -/
def pop (s : Scopes α) : Scopes α := ⟨s.chain.tail⟩

/-- Whether no scope is open. -/
def isEmpty (s : Scopes α) : Bool := s.chain.isEmpty

/-- What a name stands for in the innermost scope alone. -/
def innermost? (s : Scopes α) (name : String) : Option α :=
  s.chain.head?.bind (·.lookup name)

/-- What a name stands for: its meaning in the innermost scope that has it. -/
def lookup (s : Scopes α) (name : String) : Option α := s.chain.findSome? (·.lookup name)

/-- The scopes with a name added to the innermost one. If none is open, one is opened for it. -/
def insert (s : Scopes α) (name : String) (a : α) : Scopes α :=
  match s.chain with
  | [] => ⟨[[(name, a)]]⟩
  | scope :: outer => ⟨((name, a) :: scope) :: outer⟩

/-- The scopes with one more if none is open. -/
def opened (s : Scopes α) : Scopes α := if s.isEmpty then s.push else s

/-- Declares a name in the innermost scope, and opens one first if none is open. If that scope has
the name already, the meaning that it has is the error. The scopes are those behind either
outcome. -/
def declare (s : Scopes α) (name : String) (a : α) : Except α Unit × Scopes α :=
  let s := s.opened
  match s.innermost? name with
  | some existing => (.error existing, s)
  | none => (.ok (), s.insert name a)

@[simp] theorem pop_push (s : Scopes α) : s.push.pop = s := rfl

/-- A name that the innermost scope has is not declared again, and nothing changes. Any other is
added. -/
theorem declare_eq (s : Scopes α) (name : String) (a : α) : s.declare name a =
    match s.innermost? name with
    | some existing => (.error existing, s)
    | none => (.ok (), s.insert name a) := by
  obtain ⟨chain⟩ := s
  cases chain <;> rfl

end Scopes

end Ilang
