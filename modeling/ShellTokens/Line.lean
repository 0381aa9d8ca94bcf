import ShellTokens.Grammar

/-!
# Lines and tokens

A line is a string of bytes, kept as given: its final newline, if it has one, is part of it. A token
is a terminal with the span of the line that it covers.
-/

namespace ShellTokens

/-- The positions from `start` up to, but not including, `stop`. -/
structure Span where
  start : Nat
  stop : Nat
deriving DecidableEq, Repr

namespace Span

def length (s : Span) : Nat :=
  s.stop - s.start

def isEmpty (s : Span) : Bool :=
  s.stop ≤ s.start

end Span

structure Line where
  bytes : Bytes
deriving DecidableEq, Repr

namespace Line

def ofString (text : String) : Line :=
  ⟨Bytes.ofString text⟩

def size (l : Line) : Nat :=
  l.bytes.size

def isEmpty (l : Line) : Bool :=
  l.bytes.isEmpty

/-- The bytes of the span, if it lies within the line. -/
def slice? (l : Line) (s : Span) : Option Bytes :=
  l.bytes.slice? s.start s.stop

/-- The positions of NUL bytes. No rule of the shell takes one, so each of them stops a reader. -/
def nulPositions (l : Line) : List Nat :=
  l.bytes.positionsOf 0

def hasNul (l : Line) : Bool :=
  l.bytes.contains 0

/-- The lines of a text, each with the newline that ends it. -/
def split (content : Bytes) : List Line :=
  (go content.toList).map fun bytes => ⟨bytes.toArray⟩
where
  go : List UInt8 → List (List UInt8)
    | [] => []
    | b :: rest =>
      if b = 0x0a then [b] :: go rest
      else
        match go rest with
        | [] => [[b]]
        | line :: lines => (b :: line) :: lines

end Line

structure Token where
  terminal : Terminal
  span : Span
deriving DecidableEq, Repr

namespace Token

/-- The bytes that the token covers in its line; none if its span lies outside the line. -/
def text (t : Token) (l : Line) : Bytes :=
  (l.slice? t.span).getD #[]

/-- A token of no width is a fallback: the end of the line, or a byte that no rule takes. -/
def isFallback (t : Token) : Bool :=
  t.span.isEmpty

end Token

/-- The token from `start` in the line. -/
def Grammar.tokenAt (g : Grammar) (mode : Mode) (line : Line) (start : Nat) :
    Except MatchError Match :=
  g.matchAt mode line.bytes line.size start

end ShellTokens
