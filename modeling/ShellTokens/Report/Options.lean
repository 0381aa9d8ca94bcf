import ShellTokens.Mode
import ShellTokens.Report.CommandError
import ShellTokens.Text.Numeral

/-!
# Arguments of commands
-/

namespace ShellTokens

def readMode (name : String) : Except CommandError Mode :=
  (Mode.ofName name).mapError .query

def readStart (text : String) : Except CommandError Nat :=
  match Text.position? text with
  | some n => .ok n
  | none => .error (.invalidStart text)

/-- How a file is reported. -/
structure FileOptions where
  mode : Mode := .command
  /-- Whether the tokens of each category are counted. -/
  stats : Bool := false
  /-- Whether lines may be read at the same time. The report does not depend on it. -/
  parallel : Bool := false
deriving DecidableEq, Repr

namespace FileOptions

/-- The text after the mark, if it begins with the mark. -/
def afterMark? (mark text : List Char) : Option (List Char) :=
  if mark.isPrefixOf text then some (text.drop mark.length) else none

/-- Takes one more argument into account. -/
def add (o : FileOptions) (arg : String) : Except CommandError FileOptions :=
  match afterMark? "--mode=".toList arg.toList with
  | some name => do
    let mode ← readMode (String.ofList name)
    return { o with mode }
  | none =>
    if arg = "--stats" then .ok { o with stats := true }
    else if arg = "--parallel" then .ok { o with parallel := true }
    else .error (.unknownOption arg)

/-- The options that the arguments ask for, or the first fault among them. -/
def ofArgs (args : List String) : Except CommandError FileOptions :=
  args.foldlM add {}

end FileOptions

end ShellTokens
