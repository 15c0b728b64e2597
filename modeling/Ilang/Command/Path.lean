/-!
# Paths
-/
namespace Ilang.Path

/-- Splits behind the last slash. -/
def splitName (cs : List Char) : List Char × List Char :=
  let name := (cs.reverse.takeWhile (· ≠ '/')).reverse
  (cs.take (cs.length - name.length), name)

/-- The part of a file name before its extension. A point at the beginning starts no extension. -/
def stem (name : List Char) : List Char :=
  match (name.reverse.dropWhile (· ≠ '.')).tail.reverse with
  | [] => name
  | before => before

/-- A file name without its extension, but with the point before it. -/
def withoutExtension (name : List Char) : List Char :=
  if stem name = name then name else stem name ++ ['.']

/-- Whether the last part of a path is a name and not a step to a directory. -/
def isName (part : List Char) : Bool := part ≠ [] && part ≠ ['.', '.']

/-- A path with the extension of its file name replaced. The old extension goes first; a path that
names no file without it gets no new one. -/
def withExtension (path extension : String) : String :=
  let (directory, last) := splitName path.toList
  let name := if isName last then withoutExtension last else last
  if isName name then String.ofList (directory ++ stem name ++ '.' :: extension.toList)
  else String.ofList (directory ++ name)

end Ilang.Path
