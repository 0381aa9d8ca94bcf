/-!
# Refused queries

A query for a token is refused when its arguments make no sense. That no rule matches is no reason
to refuse it.
-/

namespace ShellTokens

inductive MatchError where
  /-- The position lies beyond the end of a line of `len` bytes. -/
  | startOutOfRange (start len : Nat)
  /-- The length claims more bytes than the buffer holds. -/
  | lengthExceedsBuffer (len capacity : Nat)
  | negativeStart (start : Int)
  /-- No mode has this tag. -/
  | invalidMode (tag : UInt8)
  /-- No mode has this name. -/
  | unknownModeName (name : String)
deriving DecidableEq, Repr

namespace MatchError

def message : MatchError → String
  | startOutOfRange start len =>
    s!"start position {start} is past the end of the line (length {len})"
  | lengthExceedsBuffer len capacity =>
    s!"length {len} exceeds the buffer capacity of {capacity} bytes"
  | negativeStart start => s!"start position {start} is negative"
  | invalidMode tag => s!"invalid lex mode tag {tag}"
  | unknownModeName name => s!"unknown lex mode `{name}`"

end MatchError

end ShellTokens
