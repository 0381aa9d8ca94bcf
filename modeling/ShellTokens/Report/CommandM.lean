import ShellTokens.Report.CommandError
import ShellTokens.Report.Sink

/-!
# Commands that write

A command writes its report piece by piece to a sink and stops at the first write that fails. All
that can fail for another reason comes before the first write.
-/

namespace ShellTokens

/-- Writing to a sink, until a write or anything else fails. -/
abbrev CommandM := ExceptT CommandError (StateM Sink)

namespace CommandM

def write (text : String) : CommandM Unit := do
  if ← modifyGet fun sink => sink.write (Bytes.ofString text) then return
  throw .outputFull

/-- What the command came to, and the sink after it. -/
def runWith {α : Type} (command : CommandM α) (sink : Sink) : Except CommandError α × Sink :=
  (ExceptT.run command).run sink

end CommandM

end ShellTokens
