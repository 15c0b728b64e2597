/-!
# Places in a source text

A location names a file, a line and a column. Lines and columns count from one, columns count
characters, and only a line feed starts a new line.
-/
namespace Ilang

/-- A place in a source text. -/
structure Location where
  file : String
  line : Nat
  column : Nat
deriving DecidableEq, Repr, Inhabited

namespace Location

/-- The first character of a file. -/
def start (file : String) : Location := ⟨file, 1, 1⟩

/-- The place of something that no source text holds. -/
def unknown : Location := ⟨"<unknown>", 0, 0⟩

/-- A location as messages show it: `file:line:column`. -/
def text (l : Location) : String :=
  l.file ++ ":" ++ toString l.line ++ ":" ++ toString l.column

/-- The location just behind one character. -/
def step (l : Location) (c : Char) : Location :=
  if c = '\n' then ⟨l.file, l.line + 1, 1⟩ else ⟨l.file, l.line, l.column + 1⟩

/-- The location just behind a text that starts here. -/
def advance (l : Location) (cs : List Char) : Location := cs.foldl step l

@[simp] theorem advance_nil (l : Location) : l.advance [] = l := rfl

@[simp] theorem advance_cons (l : Location) (c : Char) (cs : List Char) :
    l.advance (c :: cs) = (l.step c).advance cs := rfl

theorem advance_append (l : Location) (cs ds : List Char) :
    l.advance (cs ++ ds) = (l.advance cs).advance ds := by
  simp [advance]

end Location

end Ilang
