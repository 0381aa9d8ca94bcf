import ShellTokens.CommandLine

/-!
# The program

Reads the file that the command asks for, runs the command and prints what it wrote.
-/

namespace ShellTokens

/-- Why the file system refused to read a file, from its error. Some operations report the number of
an error and some its negative, in 32 bits. -/
def ReadError.ofSystem : IO.Error → ReadError
  | .noFileOrDirectory .. => .notFound
  | .inappropriateType _ code _ => if code = 21 ∨ code = -21 then .isDirectory else .notDirectory
  | .invalidArgument _ code details =>
    if code = 36 ∨ code = -36 then .nameTooLong else .other details
  | .permissionDenied .. => .other "Permission denied (os error 13)"
  | e => .other (toString e)

/-- The contents of the file in the file system. -/
def readSystemFile (path : String) : IO (Except ReadError Bytes) := do
  if path.toList.contains '\x00' then return .error .nulInPath
  try
    return .ok (← IO.FS.readBinFile path).data
  catch e =>
    return .error (.ofSystem e)

end ShellTokens

open ShellTokens in
def main (args : List String) : IO UInt32 := do
  let command := Command.ofArgs args
  let contents ←
    match command.path? with
    | some path => readSystemFile path
    | none => pure (.error .notFound)
  let outcome := command.run Shell.grammar fun _ => contents
  (← IO.getStderr).putStr outcome.stderr
  (← IO.getStdout).write ⟨outcome.stdout⟩
  return outcome.status.toUInt32
