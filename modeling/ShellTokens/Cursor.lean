import ShellTokens.Line

/-!
# Reading a line

A cursor is a position in a line. Reading returns the token at the cursor and moves past it; the
mode may differ from token to token.
-/

namespace ShellTokens

structure Cursor where
  line : Line
  pos : Nat
deriving DecidableEq, Repr

namespace Cursor

def atStart (line : Line) : Cursor :=
  ⟨line, 0⟩

def atEnd (c : Cursor) : Bool :=
  c.pos == c.line.size

variable (g : Grammar) (mode : Mode)

/-- The token at the cursor, and the cursor behind it. A fallback leaves the cursor in place. -/
def read (c : Cursor) : Token × Cursor :=
  let found := (g.table mode).bestMatch c.line.bytes c.pos
  (⟨found.terminal, ⟨c.pos, found.stop⟩⟩, { c with pos := found.stop })

/-- The terminal of the next token that is not white space. At the end of the line it is unknown. -/
def lookAhead (c : Cursor) : Terminal :=
  go (c.line.size - c.pos) c.pos
where
  /-- The same from position `i`, past at most `room` tokens of white space. -/
  go : Nat → Nat → Terminal
    | 0, _ => .unknownTok
    | room + 1, i =>
      if i = c.line.size then .unknownTok
      else
        let found := (g.table mode).bestMatch c.line.bytes i
        if found.terminal = .wsSpace ∧ found.stop ≠ i then go room found.stop
        else found.terminal

/-- One byte back, unless the cursor is at the start of the line. -/
def unread? (c : Cursor) : Option Cursor :=
  if c.pos = 0 then none else some { c with pos := c.pos - 1 }

/-- The next token, unless it is a fallback. -/
def next (c : Cursor) : Option Token × Cursor :=
  let (token, c') := c.read g mode
  (if token.isFallback then none else some token, c')

/-- The tokens up to the first fallback, and the cursor at that place. Each token has a byte at
least, so there are no more of them than bytes. -/
def tokens (c : Cursor) : List Token × Cursor :=
  go (c.line.size - c.pos) c
where
  /-- The same for at most `room` tokens. -/
  go : Nat → Cursor → List Token × Cursor
    | 0, c => ([], c)
    | room + 1, c =>
      match c.next g mode with
      | (none, c') => ([], c')
      | (some token, c') =>
        let (tokens, c'') := go room c'
        (token :: tokens, c'')

end Cursor

end ShellTokens
