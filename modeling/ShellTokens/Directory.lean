import ShellTokens.Bytes

/-!
# Reading files

A file is read whole or not at all. `Directory` is a directory held in memory, in which paths are
looked up step by step.
-/

namespace ShellTokens

/-- Why a file cannot be read. -/
inductive ReadError where
  | notFound
  /-- A step of the path before the last leads to a file. -/
  | notDirectory
  | isDirectory
  /-- A step of the path is longer than a name may be. -/
  | nameTooLong
  /-- The path contains a NUL character. -/
  | nulInPath
  /-- Any other reason, in the words of the system. -/
  | other (reason : String)
deriving DecidableEq, Repr

namespace ReadError

def message : ReadError → String
  | notFound => "No such file or directory (os error 2)"
  | notDirectory => "Not a directory (os error 20)"
  | isDirectory => "Is a directory (os error 21)"
  | nameTooLong => "File name too long (os error 36)"
  | nulInPath => "file name contained an unexpected NUL byte"
  | other reason => reason

end ReadError

/-- The files of a directory, each with its name. -/
structure Directory where
  files : List (String × Bytes)

namespace Directory

/-- The greatest length of a name in bytes. -/
def maxNameLength : Nat := 255

/-- The greatest length of a path in bytes. -/
def maxPathLength : Nat := 4095

/-- Follows the remaining steps of a path from the file with the given contents. An empty step,
such as the one after a final slash, asks for a directory like any other. -/
def fromFile (contents : Bytes) : List String → Except ReadError Bytes
  | [] => .ok contents
  | _ :: _ => .error .notDirectory

/-- Follows the steps of a path from some place outside the directory, where there are directories
above but no names are known. -/
def fromOutside : List String → Except ReadError Bytes
  | [] => .error .isDirectory
  | step :: steps =>
    if step = "" ∨ step = "." ∨ step = ".." then fromOutside steps
    else if maxNameLength < step.utf8ByteSize then .error .nameTooLong
    else .error .notFound

/-- Follows the steps of a path from the directory itself. -/
def follow (d : Directory) : List String → Except ReadError Bytes
  | [] => .error .isDirectory
  | step :: steps =>
    if step = "" ∨ step = "." then d.follow steps
    else if step = ".." then fromOutside steps
    else if maxNameLength < step.utf8ByteSize then .error .nameTooLong
    else
      match d.files.lookup step with
      | some contents => fromFile contents steps
      | none => .error .notFound

/-- The contents of the file at the path. -/
def read (d : Directory) (path : String) : Except ReadError Bytes :=
  if path.toList.contains '\x00' then .error .nulInPath
  else if path = "" then .error .notFound
  else if maxPathLength < path.utf8ByteSize then .error .nameTooLong
  else
    match path.splitOn "/" with
    | "" :: steps => fromOutside steps
    | steps => d.follow steps

end Directory

end ShellTokens
