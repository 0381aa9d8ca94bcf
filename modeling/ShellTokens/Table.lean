import ShellTokens.Pattern.Ends
import ShellTokens.Pattern.FirstBytes
import ShellTokens.Terminal

/-!
# Rule tables

A table is an ordered list of rules with a terminal to fall back on. Of the rules that match, the
one with the longest match wins, and of equally long matches the first one in the list.
-/

namespace ShellTokens

structure Rule where
  pattern : Pattern
  terminal : Terminal
  /-- The bytes with which a match can begin, worked out once. -/
  first : ByteSet := pattern.firstBytes
  first_eq : first = pattern.firstBytes := by rfl

namespace Rule

/-- The end of the longest match from `i` that is not empty. The pattern is only tried where the
next byte can begin a match. -/
def longest (r : Rule) (input : Bytes) (i : Nat) : Option Nat :=
  match input[i]? with
  | some b => if r.first.contains b then r.pattern.longest input i else none
  | none => none

/-- A barren rule never matches a byte. -/
def barren (r : Rule) : Bool :=
  r.first.isEmpty

end Rule

/-- What was found at a position: a terminal and the position just past its last byte. -/
structure Match where
  terminal : Terminal
  stop : Nat
deriving DecidableEq, Repr

structure Table where
  rules : List Rule
  /-- The terminal, of no width, where no rule matches. -/
  fallback : Terminal

namespace Table

def size (t : Table) : Nat :=
  t.rules.length

def isEmpty (t : Table) : Bool :=
  t.rules.isEmpty

/-- The better of the match so far and what the rule finds: only a longer match replaces it. -/
def improve (input : Bytes) (i : Nat) (best : Match) (r : Rule) : Match :=
  match r.longest input i with
  | some stop => if best.stop < stop then ⟨r.terminal, stop⟩ else best
  | none => best

/-- The longest match of the rules from `i`, or the fallback with no width. -/
def bestMatch (t : Table) (input : Bytes) (i : Nat) : Match :=
  t.rules.foldl (improve input i) ⟨t.fallback, i⟩

/-- The first rule, with its index, that never matches a byte. -/
def firstBarren? (t : Table) : Option (Nat × Rule) :=
  (t.rules.zipIdx.find? fun (r, _) => r.barren).map fun (r, k) => (k, r)

end Table

end ShellTokens
