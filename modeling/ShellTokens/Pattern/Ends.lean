import ShellTokens.Pattern.Basic
import ShellTokens.Pattern.Sweep

/-!
# Where matches end

`Pattern.ends` follows all alternatives at once and lists every position where a match can end, so
no choice has to be taken back. `Pattern.longest` is the last of them; patterns without inner parts
are answered without a list.
-/

namespace ShellTokens.Pattern

mutual

/-- The positions where a match from `i` can end, ascending. The match may be empty. -/
def ends (input : Bytes) : Pattern → Nat → Positions
  | literal bytes, i => if input.hasAt bytes i then [i + bytes.length] else []
  | oneOf set, i =>
    match input[i]? with
    | some b => if set.contains b then [i + 1] else []
    | none => []
  | run r, i =>
    let n := r.length input i
    if r.min ≤ n then Positions.interval (i + r.min) (i + n) else []
  | seq parts, i => endsSeq input parts [i]
  | alt choices, i => endsAlt input choices i
  | times inner min max, i => (Sweep.run (ends input inner) min max input.size i).reached

/-- The positions that the parts, one after the other, reach from some position of the frontier. -/
def endsSeq (input : Bytes) : List Pattern → Positions → Positions
  | [], frontier => frontier
  | p :: parts, frontier => endsSeq input parts (Positions.advance (ends input p) frontier)

/-- The positions where a match of any of the choices from `i` can end. -/
def endsAlt (input : Bytes) : List Pattern → Nat → Positions
  | [], _ => []
  | p :: choices, i => Positions.union (ends input p i) (endsAlt input choices i)

end

/-- The end of the longest match from `i` that is not empty. -/
def longest (p : Pattern) (input : Bytes) (i : Nat) : Option Nat :=
  match p with
  | literal bytes => if !bytes.isEmpty && input.hasAt bytes i then some (i + bytes.length) else none
  | oneOf set =>
    match input[i]? with
    | some b => if set.contains b then some (i + 1) else none
    | none => none
  | run r =>
    let n := r.length input i
    if 0 < n ∧ r.min ≤ n then some (i + n) else none
  | _ => (ends input p i).getLast?.filter (i < ·)

end ShellTokens.Pattern
