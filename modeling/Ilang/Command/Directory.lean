/-!
# Files

What can go wrong with a file, and a directory in memory that commands can work in.
-/
namespace Ilang

/-- Why a file could not be read or written. -/
inductive FileError where
  | notFound
  | notDirectory
  | isDirectory
  | nameTooLong
  | notText
  | other (message : String)
deriving DecidableEq, Repr

/-- An error in the words of the system. -/
def FileError.message : FileError → String
  | notFound => "No such file or directory (os error 2)"
  | notDirectory => "Not a directory (os error 20)"
  | isDirectory => "Is a directory (os error 21)"
  | nameTooLong => "File name too long (os error 36)"
  | notText => "stream did not contain valid UTF-8"
  | other message => message

/-- Where files are. -/
structure Disk (m : Type → Type) where
  /-- The text of a file. -/
  read : String → m (Except FileError String)
  /-- Makes a text all that a file holds. -/
  write : String → String → m (Except FileError Unit)

/-- The names on the way to a file. -/
abbrev Route := List String

/-- The way that a text with slashes writes. -/
def Route.ofText (s : String) : Route := (s.splitOn "/").filter fun part => part ≠ "" ∧ part ≠ "."

/-- A directory with files in it, and in the directories inside. -/
structure Directory where
  files : List (Route × ByteArray) := []

/-- Where a path can lead. Of what is outside of a directory only the directories above it are
known. -/
inductive Place where
  /-- The end of a way inside. -/
  | inside (route : Route)
  /-- A directory above. -/
  | above
  /-- A name in a directory above, which nothing has. -/
  | outside
deriving DecidableEq, Repr

namespace Directory

/-- The bytes of a file. -/
def file? (d : Directory) (route : Route) : Option ByteArray := d.files.lookup route

/-- Whether there is a directory at the end of a way. -/
def hasDirectory (d : Directory) (route : Route) : Bool :=
  route.isEmpty || d.files.any fun (r, _) => route.isPrefixOf r && route.length < r.length

/-- Whether a place is a directory. -/
def isDirectory (d : Directory) : Place → Bool
  | .inside route => d.hasDirectory route
  | .above => true
  | .outside => false

/-- The greatest number of bytes in a name. -/
def maxName : Nat := 255

/-- The greatest number of bytes in a path. -/
def maxPath : Nat := 4095

/-- A place that has to be a directory. -/
def enter (d : Directory) (place : Place) : Except FileError Place :=
  if d.isDirectory place then .ok place
  else
    match place with
    | .inside route => .error (if (d.file? route).isSome then .notDirectory else .notFound)
    | _ => .error .notFound

/-- The place one part of a path further. An empty part stays where it is. -/
def follow (d : Directory) (place : Place) (part : String) : Except FileError Place := do
  let here ← d.enter place
  if part = "" ∨ part = "." then return here
  else if part = ".." then
    match here with
    | .inside (name :: names) => return .inside (name :: names).dropLast
    | _ => return .above
  else if maxName < part.utf8ByteSize then throw .nameTooLong
  else
    match here with
    | .inside route => return .inside (route ++ [part])
    | _ => return .outside

/-- The place where a path starts, and its parts. -/
def split (path : String) : Except FileError (Place × List String) :=
  if path.isEmpty then .error .notFound
  else if maxPath < path.utf8ByteSize then .error .nameTooLong
  else .ok (if path.startsWith "/" then .above else .inside [], path.splitOn "/")

/-- The text of a file. -/
def read (d : Directory) (path : String) : Except FileError String := do
  let (start, parts) ← split path
  let place ← parts.foldlM d.follow start
  if d.isDirectory place then throw .isDirectory
  match place with
  | .inside route =>
    match d.file? route with
    | none => throw .notFound
    | some bytes =>
      match String.fromUTF8? bytes with
      | some text => return text
      | none => throw .notText
  | _ => throw .notFound

/-- Parts without the empty ones at the end. -/
def withoutEmptyEnd (parts : List String) : List String :=
  (parts.reverse.dropWhile (· = "")).reverse

/-- The directory with a text as all that a file holds. A path that ends in a slash can only be that
of a directory, whatever its last name is. What is written outside leaves no trace. -/
def write (d : Directory) (path text : String) : Except FileError Directory := do
  let (start, parts) ← split path
  let names := withoutEmptyEnd parts
  let parent ← names.dropLast.foldlM d.follow start
  let parent ← d.enter parent
  if path.endsWith "/" then throw .isDirectory
  let place ← d.follow parent (names.getLast?.getD "")
  if d.isDirectory place then throw .isDirectory
  match place with
  | .inside route => return ⟨(route, text.toUTF8) :: d.files.filter fun (r, _) => r ≠ route⟩
  | _ => return d

/-- A directory as a place for commands. -/
def disk : Disk (StateM Directory) where
  read path := do return (← get).read path
  write path text := do
    match (← get).write path text with
    | .ok d =>
      set d
      return .ok ()
    | .error e => return .error e

end Directory

end Ilang
