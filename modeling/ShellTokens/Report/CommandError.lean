import ShellTokens.Directory
import ShellTokens.MatchError

/-!
# Why a command fails
-/

namespace ShellTokens

inductive CommandError where
  | query (e : MatchError)
  | unreadable (path : String) (reason : ReadError)
  /-- The output has no room for all that is written. -/
  | outputFull
  | invalidStart (text : String)
  | unknownOption (text : String)
deriving DecidableEq, Repr

namespace CommandError

def message : CommandError → String
  | query e => e.message
  | unreadable path reason => s!"cannot read '{path}': {reason.message}"
  | outputFull => "cannot write output: failed to write whole buffer"
  | invalidStart text => s!"invalid start position '{text}': expected a non-negative integer"
  | unknownOption text => s!"unknown option '{text}'"

end CommandError

end ShellTokens
