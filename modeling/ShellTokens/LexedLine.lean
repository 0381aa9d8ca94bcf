import ShellTokens.Cursor

/-!
# Lines with their tokens
-/

namespace ShellTokens

/-- A line with its tokens in one mode. -/
structure LexedLine where
  line : Line
  tokens : List Token
  /-- Where no rule matched, if that was before the end of the line. -/
  stopped? : Option Nat
deriving DecidableEq, Repr

def Line.lex (g : Grammar) (mode : Mode) (line : Line) : LexedLine :=
  let (tokens, c) := (Cursor.atStart line).tokens g mode
  { line, tokens, stopped? := if c.atEnd then none else some c.pos }

end ShellTokens
