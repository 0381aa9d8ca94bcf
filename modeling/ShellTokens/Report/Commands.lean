import ShellTokens.Histogram
import ShellTokens.LexedLine
import ShellTokens.Report.CommandM
import ShellTokens.Report.Options
import ShellTokens.Text.Column
import ShellTokens.Text.Described

/-!
# Reports

The reports on one token, on the tokens of a line or of a file, and on the modes of a grammar.
-/

namespace ShellTokens

open CommandM

/-! ### One token -/

/-- Reports the token from `start` in the text. -/
def reportToken (g : Grammar) (mode : Mode) (text : String) (start : Nat) : CommandM Unit := do
  let found ← ofExcept ((g.tokenAt mode (.ofString text) start).mapError .query)
  write s!"id = {found.terminal.name}\n"
  write s!"end_pos = {found.stop}\n"

/-! ### One line -/

/-- The token's bytes as a quoted text. -/
def Token.quotedText (t : Token) (l : Line) : String :=
  Text.quoted (Text.decode (t.text l))

/-- Reports all tokens of the text in one mode. -/
def reportLine (g : Grammar) (mode : Mode) (text : String) : CommandM Unit := do
  let lexed := (Line.ofString text).lex g mode
  write s!"Tokens in mode {mode.name} ({lexed.tokens.length} tokens):\n"
  lexed.tokens.forM fun t =>
    write s!"  {t.terminal.name} @ {t.span.start}..{t.span.stop} {t.quotedText lexed.line}\n"
  match lexed.stopped? with
  | some pos => write s!"  stopped at byte {pos}: no rule matches\n"
  | none => return

/-! ### A file -/

def reportHistogram (tokens : List Token) : CommandM Unit := do
  write "Token kinds:\n"
  (histogram tokens).forM fun (c, n) => write s!"  {Text.padRight 12 c.name} {n}\n"

/-- Reports the tokens of one line of a file. -/
def reportLexedLine (number : Nat) (lexed : LexedLine) : CommandM Unit := do
  lexed.tokens.forM fun t =>
    write s!"  {number}:{t.span.start}..{t.span.stop} {t.terminal.name} {t.quotedText lexed.line}\n"
  match lexed.stopped? with
  | some pos => write s!"  {number}:{pos} stopped: no rule matches\n"
  | none => return

/-- Reports the tokens of each line of a file. -/
def reportFile (g : Grammar) (read : String → Except ReadError Bytes) (path : String)
    (options : FileOptions) : CommandM Unit := do
  let content ← ofExcept ((read path).mapError (.unreadable path))
  let lines := (Line.split content).map fun line => line.lex g options.mode
  let tokens := lines.flatMap fun lexed => lexed.tokens
  let counts := s!"{tokens.length} tokens, {lines.length} lines, mode {options.mode.name}"
  write s!"Tokens for '{path}' ({counts}):\n"
  (lines.zipIdx 1).forM fun (lexed, number) => reportLexedLine number lexed
  if options.stats then reportHistogram tokens

/-! ### The modes -/

/-- Reports the modes with the sizes and the fallbacks of their tables. -/
def reportModes (g : Grammar) : CommandM Unit := do
  write s!"Lex modes ({Mode.all.length}):\n"
  Mode.all.forM fun mode => do
    let table := g.table mode
    let index := Text.padLeft 2 (toString mode.index)
    let name := Text.padRight 16 mode.name
    let size := Text.padLeft 3 (toString table.size)
    write s!"  {index}  {name} {size} rules  fallback = {table.fallback.name}\n"

end ShellTokens
