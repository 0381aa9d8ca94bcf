import Mathlib.Data.Set.Card
import ShellTokens.ByteSet.Lemmas

/-!
# Expressions for sets of bytes

A set of bytes is written down with lists, ranges, single bytes, unions and complements. Such an
expression has a value, whose members are bits of four words, and it describes a set of bytes in the
mathematical sense. Whatever is asked of the value is answered as for that set: its members, their
order and number, whether there are any, and whether two sets are the same.
-/

namespace ShellTokens.ByteSet

/-! ### Ranges byte by byte -/

/-- Adds the bytes from `b` to `hi`, one after the other. Whether `hi` is reached is asked before the
next byte is looked for, since there is none behind the last one of all. -/
def insertUpTo (hi b : UInt8) (s : ByteSet) : ByteSet :=
  if b < hi then insertUpTo hi (b + 1) (s.insert b)
  else if b = hi then s.insert b
  else s
termination_by hi.toNat - b.toNat
decreasing_by
  have := hi.toNat_lt
  simp only [UInt8.lt_iff_toNat_lt, UInt8.toNat_add, UInt8.toNat_one] at *
  omega

theorem contains_insertUpTo (hi b : UInt8) (s : ByteSet) (c : UInt8) :
    (insertUpTo hi b s).contains c = true ↔ b ≤ c ∧ c ≤ hi ∨ s.contains c = true := by
  induction b, s using insertUpTo.induct hi with
  | case1 b s hlt ih =>
    rw [insertUpTo, if_pos hlt, ih, contains_insert]
    have := hi.toNat_lt
    simp only [Bool.or_eq_true, beq_iff_eq, ← UInt8.toNat_inj, UInt8.le_iff_toNat_le,
      UInt8.lt_iff_toNat_lt, UInt8.toNat_add, UInt8.toNat_one] at *
    grind
  | case2 s hle =>
    rw [insertUpTo, if_neg hle, if_pos rfl, contains_insert]
    simp only [Bool.or_eq_true, beq_iff_eq, ← UInt8.toNat_inj, UInt8.le_iff_toNat_le]
    grind
  | case3 b s hle hne =>
    rw [insertUpTo, if_neg hle, if_neg hne]
    simp only [← UInt8.toNat_inj, UInt8.le_iff_toNat_le, UInt8.lt_iff_toNat_lt] at *
    grind

/-- A range is what is added byte by byte; nothing is if its ends are the wrong way round. -/
theorem insertUpTo_empty (lo hi : UInt8) : insertUpTo hi lo ∅ = range lo hi := by
  apply ext_contains
  intro b
  rw [Bool.eq_iff_iff, contains_insertUpTo, contains_range]
  simp

/-! ### Expressions -/

/-- How a set of bytes is written down. -/
inductive Expr where
  | empty
  | full
  | ofList (l : List UInt8)
  | noneOf (l : List UInt8)
  | range (lo hi : UInt8)
  | insert (e : Expr) (b : UInt8)
  | union (e f : Expr)
  | compl (e : Expr)

namespace Expr

/-- The set in words of bits. -/
def eval : Expr → ByteSet
  | empty => .empty
  | full => .full
  | ofList l => .ofList l
  | noneOf l => .noneOf l
  | range lo hi => .range lo hi
  | insert e b => e.eval.insert b
  | union e f => e.eval ∪ f.eval
  | compl e => e.eval.compl

/-- The bytes that the expression describes. -/
def members : Expr → Set UInt8
  | empty => ∅
  | full => Set.univ
  | ofList l => {b | b ∈ l}
  | noneOf l => {b | b ∉ l}
  | range lo hi => {b | lo ≤ b ∧ b ≤ hi}
  | insert e b => Insert.insert b e.members
  | union e f => e.members ∪ f.members
  | compl e => e.membersᶜ

theorem contains_eval (e : Expr) (b : UInt8) : e.eval.contains b = true ↔ b ∈ e.members := by
  induction e with
  | empty => simp [eval, members]
  | full => simp [eval, members]
  | ofList l => simp [eval, members]
  | noneOf l => simp [eval, members]
  | range lo hi => simp [eval, members]
  | insert e a ih => simp [eval, members, ih]
  | union e f ihe ihf => simp [eval, members, ihe, ihf]
  | compl e ih =>
    rw [eval, members, contains_compl, Set.mem_compl_iff, ← ih]
    simp

/-- Every set of bytes can be written down. -/
theorem eval_ofList_toList (s : ByteSet) : (ofList s.toList).eval = s := by
  apply ext_contains
  intro b
  rw [Bool.eq_iff_iff, contains_eval]
  exact mem_toList

theorem mem_toList_eval (e : Expr) (b : UInt8) : b ∈ e.eval.toList ↔ b ∈ e.members := by
  rw [mem_toList, contains_eval]

theorem size_eval (e : Expr) : e.eval.size = e.members.ncard := by
  have hnodup : e.eval.toList.Nodup := (pairwise_toList e.eval).imp UInt8.ne_of_lt
  have hmembers : e.members = (e.eval.toList.toFinset : Set UInt8) := by
    ext b
    rw [Finset.mem_coe, List.mem_toFinset, mem_toList_eval]
  rw [hmembers, Set.ncard_coe_finset, List.toFinset_card_of_nodup hnodup, length_toList]

theorem isEmpty_eval (e : Expr) : e.eval.isEmpty = true ↔ e.members = ∅ := by
  rw [isEmpty_iff, Set.eq_empty_iff_forall_notMem]
  apply forall_congr'
  intro b
  rw [← contains_eval, Bool.not_eq_true]

theorem eval_eq_iff (e f : Expr) : e.eval = f.eval ↔ e.members = f.members := by
  constructor
  · intro h
    ext b
    rw [← contains_eval, ← contains_eval, h]
  · intro h
    apply ext_contains
    intro b
    rw [Bool.eq_iff_iff, contains_eval, contains_eval, h]

/-- The value of an expression is a faithful set of bytes: it contains the members that are
described, lists them in ascending order and counts them, is empty if there are none, and equals
the value of another expression just if that one describes the same members. A range is what adding
its bytes one by one makes of the empty set. -/
theorem eval_faithful (e : Expr) :
    (∀ b, e.eval.contains b = true ↔ b ∈ e.members) ∧
      (∀ b, b ∈ e.eval.toList ↔ b ∈ e.members) ∧ e.eval.toList.Pairwise (· < ·) ∧
      e.eval.size = e.members.ncard ∧
      (e.eval.isEmpty = true ↔ e.members = ∅) ∧
      (∀ f : Expr, (e.eval == f.eval) = true ↔ e.members = f.members) ∧
      ∀ lo hi, insertUpTo hi lo ∅ = ByteSet.range lo hi := by
  refine ⟨contains_eval e, mem_toList_eval e, pairwise_toList e.eval, size_eval e, isEmpty_eval e,
    ?_, insertUpTo_empty⟩
  intro f
  rw [beq_iff_eq, eval_eq_iff]

example : (insert (range 0xfe 0xff) 0x61).eval.toList = [0x61, 0xfe, 0xff] := by
  decide +kernel

end Expr

end ShellTokens.ByteSet
