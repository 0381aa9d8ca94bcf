import ShellTokens.Positions.Basic

/-!
# Repetition as a sweep over positions

A repetition is worked off in rounds. Each round takes one step from every position of the frontier.
A sweep is the state between two rounds; it ends when the frontier is empty, when the greatest
number of repetitions is reached, or, without such a number, when a round finds nothing new.
-/

namespace ShellTokens

structure Sweep where
  /-- The positions to step from in the next round. -/
  frontier : Positions
  /-- The positions where the repetition may stop. -/
  reached : Positions
  /-- The number of rounds so far. -/
  rounds : Nat
deriving DecidableEq, Repr

namespace Sweep

variable (step : Nat → Positions)

def start (i : Nat) : Sweep where
  frontier := [i]
  reached := []
  rounds := 0

/-- A round below the least number of repetitions: nothing is reached yet. -/
def required (s : Sweep) : Sweep where
  frontier := Positions.advance step s.frontier
  reached := s.reached
  rounds := s.rounds + 1

/-- The least number of repetitions is done: the repetition may stop at the frontier. -/
def settle (s : Sweep) : Sweep :=
  { s with reached := s.frontier }

/-- A round that counts towards a greatest number of repetitions. -/
def bounded (s : Sweep) : Sweep :=
  let next := Positions.advance step s.frontier
  { frontier := next, reached := Positions.union next s.reached, rounds := s.rounds + 1 }

/-- A round with no greatest number in sight: positions reached before are not explored again. -/
def unbounded (s : Sweep) : Sweep :=
  let next := Positions.diff (Positions.advance step s.frontier) s.reached
  { frontier := next, reached := Positions.union next s.reached, rounds := s.rounds + 1 }

/-- At most `n` rounds, fewer if the frontier runs empty. -/
def iterate (round : Sweep → Sweep) : Nat → Sweep → Sweep
  | 0, s => s
  | n + 1, s => if s.frontier.isEmpty then s else iterate round n (round s)

/-- The sweep of `min` to `max` repetitions from position `i` in an input of length `size`. Without
`max`, the rounds after the required ones find a new position each, so there is one round for each
position from `i` to the end and one that finds nothing. -/
def run (min : Nat) (max : Option Nat) (size i : Nat) : Sweep :=
  match max with
  | none =>
    iterate (unbounded step) (size - i + 1) (iterate (required step) min (start i)).settle
  | some m =>
    if m < min then iterate (required step) m (start i)
    else iterate (bounded step) (m - min) (iterate (required step) min (start i)).settle

end Sweep

end ShellTokens
