import ShellTokens.ByteSet.Classes
import ShellTokens.Bytes

/-!
# Patterns

Patterns are small regular expressions over bytes. Runs of bytes from one set have a node of their
own, since they are what most of a line consists of.
-/

namespace ShellTokens

namespace ByteSet

/-- The bytes at which a run of members ends, if they are few enough to be looked for one by one:
from one to three. -/
def stops? (s : ByteSet) : Option (List UInt8) :=
  let outside := s.compl
  if 1 ≤ outside.size ∧ outside.size ≤ 3 then some outside.toList else none

end ByteSet

/-- At least `min` consecutive bytes from a set. -/
structure ByteRun where
  set : ByteSet
  min : Nat
  /-- The few bytes that end a run, worked out once. -/
  stops : Option (List UInt8) := set.stops?
  stops_eq : stops = set.stops? := by rfl
deriving DecidableEq

namespace ByteRun

/-- The number of bytes from `start` on that belong to the set. -/
def length (r : ByteRun) (input : Bytes) (start : Nat) : Nat :=
  match r.stops with
  | some stops => input.countWhile (fun b => !stops.contains b) start
  | none => input.countWhile r.set.contains start

end ByteRun

inductive Pattern where
  /-- Exactly these bytes. -/
  | literal (bytes : List UInt8)
  /-- One byte from the set. -/
  | oneOf (set : ByteSet)
  | run (r : ByteRun)
  /-- The parts one after the other. -/
  | seq (parts : List Pattern)
  /-- Any one of the choices; none is preferred. -/
  | alt (choices : List Pattern)
  /-- The inner pattern `min` to `max` times in a row; without `max`, any number of times from
  `min` on. -/
  | times (inner : Pattern) (min : Nat) (max : Option Nat)
deriving BEq

namespace Pattern

/-- The UTF-8 bytes of `text`. -/
def text (text : String) : Pattern :=
  literal text.toUTF8.data.toList

def byte (b : UInt8) : Pattern :=
  literal [b]

def runOf (set : ByteSet) (min : Nat) : Pattern :=
  run { set, min }

/-- One or more bytes from the set. -/
def plus (set : ByteSet) : Pattern :=
  runOf set 1

/-- Any number of bytes from the set. -/
def star (set : ByteSet) : Pattern :=
  runOf set 0

/-- The parts one after the other; a single part is itself the sequence. -/
def concat : List Pattern → Pattern
  | [p] => p
  | parts => seq parts

/-- The pattern or nothing. -/
def opt (p : Pattern) : Pattern :=
  times p 0 (some 1)

end Pattern

end ShellTokens
