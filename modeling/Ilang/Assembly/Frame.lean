import Ilang.Assembly.Error
import Ilang.Scopes
/-!
# The frame of a function

Parameters and variables of a function live in its frame, eight bytes each, below the base pointer.
The frame also knows which of them are visible by which name, and the loops that are open.
-/
namespace Ilang

/-- A variable in a frame. -/
structure FrameVar where
  name : String
  ty : Ty
  /-- The distance from the base pointer, which is negative. -/
  offset : Int
  /-- The name with a number, which no other variable of the function has. -/
  uniqueName : String
deriving DecidableEq, Repr, Inhabited

/-- The frame of a function. -/
structure Frame where
  function : String
  vars : Array FrameVar := #[]
  scopes : Scopes Nat := .empty
  /-- The bytes that the variables take. -/
  size : Nat := 0
  /-- The labels at the ends of the open loops, the innermost first. -/
  loops : List String := []
deriving DecidableEq, Repr, Inhabited

namespace Frame

/-- The size of a variable. -/
def slotSize : Nat := 8

/-- Opens a scope. -/
def enter (f : Frame) : Frame := { f with scopes := f.scopes.push }

/-- Closes the innermost scope. -/
def leave (f : Frame) : Frame := { f with scopes := f.scopes.pop }

/-- Gives a new variable its place and makes it visible in the innermost scope, which must not have
the name yet. The frame is the one behind either outcome. -/
def register (f : Frame) (name : String) (ty : Ty) (location : Location) :
    Except GenError Nat × Frame :=
  let index := f.vars.size
  match f.scopes.declare name index with
  | (.error _, scopes) => (.error (.redefinedLocal name location), { f with scopes := scopes })
  | (.ok (), scopes) =>
    let size := f.size + slotSize
    let var := ⟨name, ty, -(size : Int), name ++ "#" ++ toString index⟩
    (.ok index, { f with vars := f.vars.push var, scopes := scopes, size := size })

/-- The variable that a name stands for. -/
def resolve (f : Frame) (name : String) (location : Location) : Except GenError Nat :=
  match f.scopes.lookup name with
  | some index => .ok index
  | none => .error (.unresolvedLocal name location)

/-- Opens a loop that ends at a label. -/
def pushLoop (f : Frame) (endLabel : String) : Frame := { f with loops := endLabel :: f.loops }

/-- Closes the innermost loop. -/
def popLoop (f : Frame) : Frame := { f with loops := f.loops.tail }

/-- The end of the innermost loop. -/
def currentLoop? (f : Frame) : Option String := f.loops.head?

end Frame

end Ilang
