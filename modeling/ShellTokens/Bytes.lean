/-!
# Byte strings

A line of source is a string of bytes with constant-time access. Positions count from zero; the
position just past the last byte is the end of the string.
-/

namespace ShellTokens

abbrev Bytes := Array UInt8

namespace Bytes

/-- The UTF-8 encoding of `text`. -/
def ofString (text : String) : Bytes :=
  text.toUTF8.data

/-- Whether `word` stands in `input` at position `i`. The empty word stands at every position up to
the end, and at none beyond it. -/
def hasAt (input : Bytes) : List UInt8 → Nat → Bool
  | [], i => decide (i ≤ input.size)
  | b :: word, i =>
    match input[i]? with
    | some c => c == b && hasAt input word (i + 1)
    | none => false

/-- The number of consecutive bytes from position `start` on that satisfy `p`. -/
def countWhile (input : Bytes) (p : UInt8 → Bool) (start : Nat) : Nat :=
  go (input.size - start) start - start
where
  /-- The first position from `i` on whose byte fails `p`, looking at no more than `room` bytes. -/
  go : Nat → Nat → Nat
    | 0, i => i
    | room + 1, i =>
      match input[i]? with
      | some b => if p b then go room (i + 1) else i
      | none => i

/-- The bytes before position `n`. -/
def take (input : Bytes) (n : Nat) : Bytes :=
  input.extract 0 n

/-- The bytes from `start` up to `stop`, if these are positions of the string in this order. -/
def slice? (input : Bytes) (start stop : Nat) : Option Bytes :=
  if start ≤ stop ∧ stop ≤ input.size then some (input.extract start stop) else none

/-- The positions that hold the byte `b`, ascending. -/
def positionsOf (input : Bytes) (b : UInt8) : List Nat :=
  (List.range input.size).filter fun i => input[i]? == some b

/-! ### The bytes as a list -/

variable {input : Bytes} {word : List UInt8} {p : UInt8 → Bool} {i start stop n : Nat} {b : UInt8}

theorem drop_toList_of_getElem? (h : input[i]? = some b) :
    input.toList.drop i = b :: input.toList.drop (i + 1) := by
  obtain ⟨hi, rfl⟩ := Array.getElem?_eq_some_iff.1 h
  rw [List.drop_eq_getElem_cons (by simpa using hi), Array.getElem_toList]

theorem drop_toList_of_getElem?_eq_none (h : input[i]? = none) : input.toList.drop i = [] := by
  rw [List.drop_eq_nil_iff]
  simpa using h

theorem hasAt_iff : input.hasAt word i ↔ i ≤ input.size ∧ word <+: input.toList.drop i := by
  induction word generalizing i with
  | nil => simp [hasAt]
  | cons b word ih =>
    rw [hasAt]
    split
    · next c hc =>
      have hi : i < input.size := (Array.getElem?_eq_some_iff.1 hc).1
      rw [drop_toList_of_getElem? hc, List.cons_prefix_cons, Bool.and_eq_true, beq_iff_eq, ih]
      exact ⟨fun ⟨hb, _, h⟩ => ⟨Nat.le_of_lt hi, hb.symm, h⟩, fun ⟨_, hb, h⟩ => ⟨hb.symm, hi, h⟩⟩
    · next hnone => simp [drop_toList_of_getElem?_eq_none hnone]

theorem countWhile_go {room : Nat} (h : input.size ≤ i + room) :
    countWhile.go input p room i = i + ((input.toList.drop i).takeWhile p).length := by
  induction room generalizing i with
  | zero =>
    have : input.toList.drop i = [] := List.drop_eq_nil_iff.2 (by simpa using h)
    simp [countWhile.go, this]
  | succ room ih =>
    rw [countWhile.go]
    split
    · next b hb =>
      rw [drop_toList_of_getElem? hb]
      by_cases hp : p b
      · rw [if_pos hp, ih (by omega), List.takeWhile_cons_of_pos hp, List.length_cons]
        omega
      · rw [if_neg hp, List.takeWhile_cons_of_neg hp, List.length_nil, Nat.add_zero]
    · next hnone => simp [drop_toList_of_getElem?_eq_none hnone]

theorem countWhile_eq (input : Bytes) (p : UInt8 → Bool) (start : Nat) :
    input.countWhile p start = ((input.toList.drop start).takeWhile p).length := by
  rw [countWhile, countWhile_go (by omega), Nat.add_sub_cancel_left]

@[simp]
theorem toList_take : (input.take n).toList = input.toList.take n := by
  simp [take]

@[simp]
theorem size_take : (input.take n).size = min n input.size := by
  simp [take]

theorem take_take {m : Nat} (h : n ≤ m) : (input.take m).take n = input.take n := by
  rw [← Array.toList_inj, toList_take, toList_take, toList_take, List.take_take, Nat.min_eq_left h]

theorem slice?_eq_some_iff {part : Bytes} :
    input.slice? start stop = some part ↔
      start ≤ stop ∧ stop ≤ input.size ∧
        part.toList = (input.toList.drop start).take (stop - start) := by
  rw [slice?]
  split
  · next h =>
    rw [Option.some_inj, ← Array.toList_inj, Array.toList_extract, List.extract_eq_take_drop]
    exact ⟨fun heq => ⟨h.1, h.2, heq.symm⟩, fun heq => heq.2.2.symm⟩
  · next h => exact ⟨nofun, fun heq => absurd ⟨heq.1, heq.2.1⟩ h⟩

theorem mem_positionsOf : i ∈ input.positionsOf b ↔ input[i]? = some b := by
  rw [positionsOf, List.mem_filter, List.mem_range, beq_iff_eq]
  exact ⟨And.right, fun h => ⟨(Array.getElem?_eq_some_iff.1 h).1, h⟩⟩

end Bytes

end ShellTokens
