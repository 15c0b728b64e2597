import Ilang.Command
/-!
# The program `ilc`

Runs a command line on the files of the system. The environment variable `ILC_LOG` chooses the log
messages that are shown.
-/
namespace Ilang.Main

/-- What the system's number for a wrong kind of file says. -/
def wrongKind (code : UInt32) : FileError := if code = 20 then .notDirectory else .isDirectory

/-- An error of the system as the compiler tells it. -/
def fileError : IO.Error → FileError
  | .noFileOrDirectory .. | .noSuchThing .. => .notFound
  | .inappropriateType _ code _ => wrongKind code
  | .invalidArgument _ 36 _ => .nameTooLong
  | e => .other (toString e)

/-- Runs an operation on files. -/
def guarded {α : Type} (act : IO α) : IO (Except FileError α) := do
  try
    return .ok (← act)
  catch e =>
    return .error (fileError e)

/-- The files of the system. -/
def disk : Disk IO where
  read path := do
    match ← guarded (IO.FS.readBinFile path) with
    | .error e => return .error e
    | .ok bytes =>
      match String.fromUTF8? bytes with
      | some text => return .ok text
      | none => return .error .notText
  write path text := guarded (IO.FS.writeFile path text)

end Ilang.Main

/-- Does what the command line asks for. -/
def main (arguments : List String) : IO UInt32 := do
  let level := (← IO.getEnv "ILC_LOG").bind Ilang.LogLevel.ofName?
  let transcript ← (Ilang.Request.ofArguments arguments).fulfil Ilang.Main.disk
  (← IO.getStdout).putStr transcript.stdout
  (← IO.getStderr).putStr (transcript.stderr level)
  return transcript.exitCode.toUInt32
