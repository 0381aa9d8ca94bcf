import ShellTokens.Bytes

/-!
# Sinks

A sink collects what a command writes. It may be bounded: a write that does not fit leaves as many
bytes as there is room for, and counts as failed.
-/

namespace ShellTokens

structure Sink where
  written : Bytes
  /-- The number of bytes that fit; without it, all do. -/
  capacity : Option Nat
deriving DecidableEq, Repr

namespace Sink

def unbounded : Sink :=
  ⟨#[], none⟩

def ofCapacity (n : Nat) : Sink :=
  ⟨#[], some n⟩

/-- The sink after the write, and whether all bytes did fit. -/
def write (s : Sink) (bytes : Bytes) : Bool × Sink :=
  match s.capacity with
  | none => (true, { s with written := s.written ++ bytes })
  | some n =>
    let room := n - s.written.size
    (bytes.size ≤ room, { s with written := s.written ++ bytes.take room })

end Sink

end ShellTokens
