import ShellTokens.Line
import ShellTokens.Text.Quoted
import ShellTokens.Text.Utf8

/-!
# Sets and lines as text
-/

namespace ShellTokens

/-- The set in brackets. A set of more than half of all bytes is described by what it lacks. -/
def ByteSet.describe (s : ByteSet) : String :=
  if 128 < s.size then "[^" ++ String.ofList (s.compl.toList.flatMap Text.escapeByte) ++ "]"
  else "[" ++ String.ofList (s.toList.flatMap Text.escapeByte) ++ "]"

def Line.describe (l : Line) : String :=
  "SourceLine(" ++ Text.quoted (Text.decode l.bytes) ++ ")"

end ShellTokens
