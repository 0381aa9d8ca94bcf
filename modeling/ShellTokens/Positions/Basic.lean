/-!
# Sets of positions

The places where a match can end are kept as strictly ascending lists, so that a set has one form
and union and difference take one pass. `Positions.Lemmas` says what each operation holds.
-/

namespace ShellTokens

abbrev Positions := List Nat

namespace Positions

/-- Each position is less than every later one. -/
abbrev Ascending (l : Positions) : Prop :=
  l.Pairwise (· < ·)

/-- The positions of either list. -/
def union : Positions → Positions → Positions
  | [], ys => ys
  | x :: xs, ys => ys.takeWhile (· < x) ++ x :: union xs (ys.dropWhile (· ≤ x))

/-- The positions of the first list that are not in the second. -/
def diff : Positions → Positions → Positions
  | [], _ => []
  | x :: xs, ys =>
    match ys.dropWhile (· < x) with
    | [] => x :: xs
    | y :: ys' => if x = y then diff xs ys' else x :: diff xs (y :: ys')

/-- The positions from `lo` to `hi`, both included. -/
def interval (lo hi : Nat) : Positions :=
  List.range' lo (hi + 1 - lo)

/-- The positions that one step reaches from some position of the list. -/
def advance (step : Nat → Positions) (frontier : Positions) : Positions :=
  frontier.foldr (fun i reached => union (step i) reached) []

end Positions

end ShellTokens
