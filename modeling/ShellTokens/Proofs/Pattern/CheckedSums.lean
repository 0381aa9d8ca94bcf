import ShellTokens.Proofs.Pattern.Exactness
import ShellTokens.Proofs.Pattern.RoundCounts

/-!
# Sums that fit

Positions are numbers of 64 bits, and a repetition counts its rounds in 32 bits. `checkedEnds` and
`checkedLongest` evaluate a pattern with a check of every sum: the ends of literals, classes and runs
are added up from their starts, and every round of a loop adds one to its counter.

Within any input and from any start, the checked evaluation finds the same match ends as the
unchecked one or has to count too many rounds. The counter of a repetition has room for its rounds if
the input behind the start is shorter than 4 GiB and if fewer than 4294967295 rounds are required
where the inner pattern may be empty; with that many, the next round is one too many. A sum of
positions is too great in one place only: for the longest match of a class, the position behind the
start is added up before the byte there is looked at, and the last of all positions has none behind
it.
-/

namespace ShellTokens

open Positions

/-- The kinds of sums that can be too great. -/
inductive Overflow where
  /-- A position does not fit into 64 bits. -/
  | position
  /-- The number of rounds of a repetition does not fit into 32 bits. -/
  | counter
deriving DecidableEq, Repr

/-- The position `n` bytes behind `i`. -/
def addPosition (i n : Nat) : Except Overflow Nat :=
  if i + n < UInt64.size then .ok (i + n) else .error .position

section Yields

variable {α β : Type} {excused : Overflow → Prop} {x : Except Overflow α} {f : α → Except Overflow β}
  {a : α} {b : β} {i n : Nat}

/-- The evaluation comes to `a`, or stops at a sum of a kind that is excused. -/
def Yields (excused : Overflow → Prop) (x : Except Overflow α) (a : α) : Prop :=
  match x with
  | .ok b => b = a
  | .error o => excused o

theorem Yields.bind (hx : Yields excused x a) (hf : Yields excused (f a) b) :
    Yields excused (x >>= f) b := by
  cases x with
  | ok a' =>
    obtain rfl : a' = a := hx
    exact hf
  | error o => exact hx

theorem yields_ok (a : α) : Yields excused (.ok a) a :=
  rfl

theorem eq_ok_of_yields (h : Yields (fun _ => False) x a) : x = .ok a := by
  cases x with
  | ok a' => exact congrArg Except.ok h
  | error o => exact h.elim

theorem Yields.ne_error {o : Overflow} (h : Yields excused x a) (ho : ¬ excused o) :
    x ≠ .error o := by
  rintro rfl
  exact ho h

theorem yields_addPosition (h : i + n < UInt64.size) :
    Yields excused (addPosition i n) (i + n) := by
  rw [addPosition, if_pos h]
  exact yields_ok _

end Yields

/-! ### Checked loops -/

namespace Sweep

variable {s last : Sweep} {min size i : Nat} {max : Option Nat} {excused : Overflow → Prop}
  {step : Nat → Positions} {checked : Nat → Except Overflow Positions} {frontier : Positions}

instance : Decidable (s.Continues max) :=
  inferInstanceAs (Decidable (s.frontier ≠ [] ∧ ∀ m ∈ max, s.rounds < m))

/-- The state after a round that leads to the positions `next`. -/
def roundTo (min : Nat) (max : Option Nat) (next : Positions) (s : Sweep) : Sweep :=
  if s.rounds + 1 < min then
    { s with frontier := next, rounds := s.rounds + 1 }
  else
    let found := if max.isNone then diff next s.reached else next
    { frontier := found, reached := union found s.reached, rounds := s.rounds + 1 }

theorem round_eq_roundTo (step : Nat → Positions) (min : Nat) (max : Option Nat) (s : Sweep) :
    s.round step min max = s.roundTo min max (advance step s.frontier) :=
  rfl

theorem rounds_roundTo (next : Positions) : (s.roundTo min max next).rounds = s.rounds + 1 := by
  unfold roundTo
  dsimp only
  split
  · rfl
  · rfl

/-- One checked step from each position of the frontier. -/
def checkedAdvance (step : Nat → Except Overflow Positions) :
    Positions → Except Overflow Positions
  | [] => .ok []
  | i :: frontier => do
    let found ← step i
    let others ← checkedAdvance step frontier
    return union found others

/-- The loop with checked steps and a checked counter. -/
def checkedLoop (step : Nat → Except Overflow Positions) (min : Nat) (max : Option Nat)
    (s : Sweep) : Except Overflow Sweep :=
  if s.Continues max then do
    let next ← checkedAdvance step s.frontier
    if s.rounds + 1 < UInt32.size then checkedLoop step min max (s.roundTo min max next)
    else .error .counter
  else .ok s
termination_by UInt32.size - s.rounds
decreasing_by
  rw [rounds_roundTo]
  omega

theorem yields_checkedAdvance (h : ∀ j ∈ frontier, Yields excused (checked j) (step j)) :
    Yields excused (checkedAdvance checked frontier) (advance step frontier) := by
  induction frontier with
  | nil => exact yields_ok _
  | cons j frontier ih =>
    obtain ⟨hj, hfrontier⟩ := List.forall_mem_cons.1 h
    exact hj.bind ((ih hfrontier).bind (yields_ok _))

/-- A checked loop comes to the last state of the loop if the checked steps do as the steps do and
the counter has room. -/
theorem yields_checkedLoop (hfinishes : Finishes step min max s last)
    (hstep : ∀ t, Visits step min max s t → ∀ j ∈ t.frontier, Yields excused (checked j) (step j))
    (hcount : excused .counter ∨
      ∀ t, Visits step min max s t → t.Continues max → t.rounds + 1 < UInt32.size) :
    Yields excused (checkedLoop checked min max s) last := by
  obtain ⟨hvisits, hstops⟩ := hfinishes
  induction hvisits using Relation.ReflTransGen.head_induction_on with
  | refl =>
    rw [checkedLoop, if_neg hstops]
    exact yields_ok _
  | @head s t hnext _ ih =>
    have hfollows : ∀ u, Visits step min max t u → Visits step min max s u :=
      fun u hu => Relation.ReflTransGen.head hnext hu
    have hrest := ih (fun u hu => hstep u (hfollows u hu))
      (hcount.imp_right fun hroom u hu => hroom u (hfollows u hu))
    obtain ⟨hcontinues, rfl⟩ := hnext
    rw [round_eq_roundTo] at hrest
    rw [checkedLoop, if_pos hcontinues]
    refine (yields_checkedAdvance (hstep s Relation.ReflTransGen.refl)).bind ?_
    split
    · exact hrest
    · next hfull =>
      rcases hcount with hexcused | hroom
      · exact hexcused
      · exact absurd (hroom s Relation.ReflTransGen.refl hcontinues) hfull

/-- What the counter of a checked loop shows fits into 32 bits. -/
theorem rounds_lt_of_checkedLoop (h : checkedLoop checked min max s = .ok last)
    (hs : s.rounds < UInt32.size) : last.rounds < UInt32.size := by
  induction s using checkedLoop.induct min max with
  | case1 s hcontinues ih =>
    rw [checkedLoop, if_pos hcontinues] at h
    cases hnext : checkedAdvance checked s.frontier with
    | error o =>
      rw [hnext] at h
      contradiction
    | ok next =>
      rw [hnext] at h
      change (if _ then _ else _) = _ at h
      split at h
      · next hroom => exact ih next hroom h (by rwa [rounds_roundTo])
      · contradiction
  | case2 s hstops =>
    rw [checkedLoop, if_neg hstops] at h
    cases h
    exact hs

end Sweep

/-! ### Checked patterns -/

namespace Pattern

mutual

/-- The positions where a match from `i` can end, with a check of every sum. -/
def checkedEnds (input : Bytes) : Pattern → Nat → Except Overflow Positions
  | literal bytes, i =>
    if input.hasAt bytes i then do
      let stop ← addPosition i bytes.length
      return [stop]
    else .ok []
  | oneOf set, i =>
    match input[i]? with
    | some b =>
      if set.contains b then do
        let stop ← addPosition i 1
        return [stop]
      else .ok []
    | none => .ok []
  | run r, i =>
    let n := r.length input i
    if r.min ≤ n then do
      let first ← addPosition i r.min
      let last ← addPosition i n
      return interval first last
    else .ok []
  | seq parts, i => checkedEndsSeq input parts [i]
  | alt choices, i => checkedEndsAlt input choices i
  | times inner min max, i => do
    let last ← Sweep.checkedLoop (checkedEnds input inner) min max (.initial min i)
    return last.reached

def checkedEndsSeq (input : Bytes) : List Pattern → Positions → Except Overflow Positions
  | [], frontier => .ok frontier
  | p :: parts, frontier => do
    let next ← Sweep.checkedAdvance (checkedEnds input p) frontier
    checkedEndsSeq input parts next

def checkedEndsAlt (input : Bytes) : List Pattern → Nat → Except Overflow Positions
  | [], _ => .ok []
  | p :: choices, i => do
    let found ← checkedEnds input p i
    let others ← checkedEndsAlt input choices i
    return union found others

end

/-- The end of the longest match from `i` that is not empty, with a check of every sum. -/
def checkedLongest (p : Pattern) (input : Bytes) (i : Nat) : Except Overflow (Option Nat) :=
  match p with
  | literal bytes =>
    if !bytes.isEmpty && input.hasAt bytes i then do
      let stop ← addPosition i bytes.length
      return some stop
    else .ok none
  | oneOf set => do
    -- The sum comes before the look at the byte.
    let stop ← addPosition i 1
    match input[i]? with
    | some b => return if set.contains b then some stop else none
    | none => return none
  | run r => do
    let n := r.length input i
    let stop ← addPosition i n
    return if 0 < n ∧ r.min ≤ n then some stop else none
  | _ => do
    let stops ← checkedEnds input p i
    return stops.getLast?.filter (i < ·)

variable {excused : Overflow → Prop} {p inner : Pattern} {parts : List Pattern} {input : Bytes}
  {frontier : Positions} {i j e min : Nat} {max : Option Nat}

/-! ### Repetitions that can be counted -/

mutual

/-- Whether 32 bits are enough to count the rounds of each repetition, if the input is short enough:
the greatest number fits, and without one the round after the required ones does, unless every round
moves on. -/
def countable : Pattern → Bool
  | seq parts => countableAll parts
  | alt choices => countableAll choices
  | times inner min none => (!inner.nullable || min + 1 < UInt32.size) && countable inner
  | times inner _ (some m) => m < UInt32.size && countable inner
  | _ => true

def countableAll : List Pattern → Bool
  | [] => true
  | p :: parts => countable p && countableAll parts

end

theorem countableAll_iff : countableAll parts = true ↔ ∀ p ∈ parts, p.countable = true := by
  induction parts with
  | nil => simp [countableAll]
  | cons p parts ih => simp [countableAll, ih]

theorem countable_of_times (h : (times inner min max).countable = true) :
    inner.countable = true := by
  cases max with
  | none =>
    rw [countable, Bool.and_eq_true] at h
    exact h.2
  | some m =>
    rw [countable, Bool.and_eq_true] at h
    exact h.2

theorem bounds_of_mem_ends_max (he : e ∈ p.ends input j) : j ≤ e ∧ e ≤ j ⊔ input.size :=
  ⟨(spells_of_mem_ends he).le, (spells_of_mem_ends he).le_max_size⟩

/-- Matches from no farther than `i` or the end of the input end no farther. -/
theorem range_of_mem_ends (p : Pattern) (input : Bytes) (i : Nat) :
    ∀ j ≤ i ⊔ input.size, ∀ e ∈ p.ends input j, j ≤ e ∧ e ≤ i ⊔ input.size := by
  intro j hj e he
  have := bounds_of_mem_ends_max he
  omega

/-- From every start, also beyond the end of the input, the loop of a repetition comes to the state of
the sweep. -/
theorem finishes_run (inner : Pattern) (input : Bytes) (min : Nat) (max : Option Nat) (i : Nat) :
    Sweep.Finishes (inner.ends input) min max (.initial min i)
      (Sweep.run (inner.ends input) min max input.size i) := by
  cases max with
  | some m => exact Sweep.finishes_run_some _ min m input.size i
  | none =>
    have hfinishes := Sweep.finishes_run_none min (ascending_ends inner input)
      (range_of_mem_ends inner input i) le_sup_left
    have hrounds : i ⊔ input.size - i = input.size - i := by omega
    rwa [Sweep.run, hrounds] at hfinishes

/-- The counter of a repetition has room for each round that follows. -/
theorem rounds_succ_lt (hcountable : (times inner min max).countable = true)
    (hroom : input.size - i + 1 < UInt32.size) {s : Sweep}
    (hs : Sweep.Visits (inner.ends input) min max (.initial min i) s) (hcontinues : s.Continues max) :
    s.rounds + 1 < UInt32.size := by
  have hascending := ascending_ends inner input
  cases max with
  | some m =>
    rw [countable, Bool.and_eq_true, decide_eq_true_eq] at hcountable
    have := (Sweep.continues_some.1 hcontinues).2
    omega
  | none =>
    rw [countable, Bool.and_eq_true, Bool.or_eq_true, Bool.not_eq_true', decide_eq_true_eq]
      at hcountable
    have hrange := range_of_mem_ends inner input i
    have hne := Sweep.continues_none.1 hcontinues
    rcases hcountable.1 with hnullable | hmin
    · have hmove : ∀ j ≤ i ⊔ input.size, ∀ e ∈ inner.ends input j, j < e ∧ e ≤ i ⊔ input.size := by
        intro j hj e he
        obtain ⟨hje, hsize⟩ := hrange j hj e he
        refine ⟨Nat.lt_of_le_of_ne hje ?_, hsize⟩
        rintro rfl
        have hnil := Bytes.spells_self.1 (spells_of_mem_ends he)
        rw [nullable_of_nil_mem_language hnil] at hnullable
        contradiction
      have := hs.rounds_le_of_frontier hascending hmove le_sup_left hne
      omega
    · have := hs.rounds_le_or hascending hrange le_sup_left hne
      omega

/-! ### Checked match ends -/

theorem yields_checkedEndsSeq {P : Nat → Prop}
    (h : ∀ p ∈ parts, ∀ j, P j → Yields excused (checkedEnds input p j) (p.ends input j))
    (hP : ∀ p : Pattern, ∀ j, P j → ∀ e ∈ p.ends input j, P e) (hfrontier : ∀ j ∈ frontier, P j) :
    Yields excused (checkedEndsSeq input parts frontier) (endsSeq input parts frontier) := by
  induction parts generalizing frontier with
  | nil => exact yields_ok _
  | cons p parts ih =>
    obtain ⟨hp, hparts⟩ := List.forall_mem_cons.1 h
    have hnext : ∀ e ∈ advance (p.ends input) frontier, P e := by
      intro e he
      obtain ⟨j, hj, he⟩ := (mem_advance (ascending_ends p input)).1 he
      exact hP p j (hfrontier j hj) e he
    exact (Sweep.yields_checkedAdvance fun j hj => hp j (hfrontier j hj)).bind (ih hparts hnext)

theorem yields_checkedEndsAlt
    (h : ∀ p ∈ parts, Yields excused (checkedEnds input p i) (p.ends input i)) :
    Yields excused (checkedEndsAlt input parts i) (endsAlt input parts i) := by
  induction parts with
  | nil => exact yields_ok _
  | cons p parts ih =>
    obtain ⟨hp, hparts⟩ := List.forall_mem_cons.1 h
    exact hp.bind ((ih hparts).bind (yields_ok _))

theorem add_length_lt_size {bytes : List UInt8} (hsize : input.size < UInt64.size)
    (h : input.hasAt bytes i = true) : i + bytes.length < UInt64.size := by
  obtain ⟨hi, hprefix⟩ := Bytes.hasAt_iff.1 h
  have hlength := hprefix.length_le
  simp only [List.length_drop, Array.length_toList] at hlength
  omega

theorem add_runLength_lt_size (r : ByteRun) (hsize : input.size < UInt64.size)
    (hi : i < UInt64.size) : i + r.length input i < UInt64.size := by
  have hlength : r.length input i ≤ input.size - i := by
    rw [r.length_eq, Bytes.countWhile_eq]
    simpa using (List.takeWhile_sublist _ (l := input.toList.drop i)).length_le
  omega

/-- Within the positions from `i` on that 64 bits can show, matches stay. -/
theorem mem_range_of_mem_ends (hsize : input.size < UInt64.size) (i : Nat) (p : Pattern) :
    ∀ j, i ≤ j ∧ j < UInt64.size → ∀ e ∈ p.ends input j, i ≤ e ∧ e < UInt64.size := by
  intro j hj e he
  have := bounds_of_mem_ends_max he
  omega

/-- Apart from counters, no check of a sum fails, and neither does that of a counter where the rounds
can be counted. -/
theorem yields_checkedEnds (hsize : input.size < UInt64.size) (hi : i < UInt64.size)
    (hcount : excused .counter ∨ p.countable = true ∧ input.size - i + 1 < UInt32.size) :
    Yields excused (checkedEnds input p i) (p.ends input i) := by
  induction p generalizing i with
  | literal bytes =>
    rw [checkedEnds, ends]
    split
    · next hat => exact (yields_addPosition (add_length_lt_size hsize hat)).bind (yields_ok _)
    · exact yields_ok _
  | oneOf set =>
    rw [checkedEnds, ends]
    cases hb : input[i]? with
    | none => exact yields_ok _
    | some b =>
      have hlt := (Array.getElem?_eq_some_iff.1 hb).1
      dsimp only
      split
      · exact (yields_addPosition (by omega)).bind (yields_ok _)
      · exact yields_ok _
  | run r =>
    have hlast := add_runLength_lt_size r hsize hi
    rw [checkedEnds, ends]
    split
    · next hmin =>
      refine (yields_addPosition (by omega)).bind ?_
      exact (yields_addPosition hlast).bind (yields_ok _)
    · exact yields_ok _
  | seq parts ih =>
    rw [countable, countableAll_iff] at hcount
    rw [checkedEnds, ends]
    refine yields_checkedEndsSeq (P := fun j => i ≤ j ∧ j < UInt64.size) ?_
      (mem_range_of_mem_ends hsize i) ?_
    · intro q hq j hj
      exact ih q hq hj.2 (hcount.imp_right fun h => ⟨h.1 q hq, by omega⟩)
    · simpa using hi
  | alt choices ih =>
    rw [countable, countableAll_iff] at hcount
    rw [checkedEnds, ends]
    exact yields_checkedEndsAlt fun q hq => ih q hq hi (hcount.imp_right fun h => ⟨h.1 q hq, h.2⟩)
  | times inner min max ih =>
    rw [checkedEnds, ends]
    refine (Sweep.yields_checkedLoop (finishes_run inner input min max i) ?_ ?_).bind (yields_ok _)
    · intro s hs j hj
      have hj := hs.forall_frontier (ascending_ends inner input)
        (mem_range_of_mem_ends hsize i inner) ⟨Nat.le_refl i, hi⟩ j hj
      exact ih hj.2 (hcount.imp_right fun h => ⟨countable_of_times h.1, by omega⟩)
    · exact hcount.imp_right fun h s hs hcontinues => rounds_succ_lt h.1 h.2 hs hcontinues

/-! ### Checked longest matches -/

theorem yields_checkedLongest (hsize : input.size < UInt64.size) (hi : i < UInt64.size)
    (hclass : i + 1 < UInt64.size ∨ ∀ set, p ≠ oneOf set)
    (hcount : excused .counter ∨ p.countable = true ∧ input.size - i + 1 < UInt32.size) :
    Yields excused (p.checkedLongest input i) (p.longest input i) := by
  have hends := yields_checkedEnds hsize hi hcount
  cases p with
  | literal bytes =>
    rw [checkedLongest, longest]
    split
    · next hat =>
      have hfits := add_length_lt_size hsize (Bool.and_eq_true_iff.1 hat).2
      exact (yields_addPosition hfits).bind (yields_ok _)
    · exact yields_ok _
  | oneOf set =>
    have hfits := hclass.resolve_right fun h => h set rfl
    rw [checkedLongest, longest]
    refine (yields_addPosition hfits).bind ?_
    cases input[i]? with
    | none => exact yields_ok _
    | some b => exact yields_ok _
  | run r =>
    rw [checkedLongest, longest]
    exact (yields_addPosition (add_runLength_lt_size r hsize hi)).bind (yields_ok _)
  | seq parts => exact hends.bind (yields_ok _)
  | alt choices => exact hends.bind (yields_ok _)
  | times inner min max => exact hends.bind (yields_ok _)

/-- A class has no sum for the longest match from the last position of all. -/
theorem checkedLongest_oneOf_last (set : ByteSet) (input : Bytes) (hi : i + 1 = UInt64.size) :
    (oneOf set).checkedLongest input i = .error .position := by
  rw [checkedLongest, addPosition, if_neg (by omega)]
  rfl

/-- Where as many rounds are required as the counter can show, and the inner pattern may be empty, the
counter is asked to show one more. -/
theorem checkedEnds_times_eq_error (hsize : input.size < UInt64.size) (hi : i ≤ input.size)
    (hinner : [] ∈ inner.language) (hmin : UInt32.size ≤ min + 1) :
    checkedEnds input (times inner min none) i = .error .counter := by
  have hascending := ascending_ends inner input
  have hfinishes := finishes_run inner input min none i
  have hloop : Yields (· = .counter) (Sweep.checkedLoop (checkedEnds input inner) min none
      (.initial min i)) (Sweep.run (inner.ends input) min none input.size i) := by
    refine Sweep.yields_checkedLoop hfinishes ?_ (Or.inl rfl)
    intro s hs j hj
    have hj := hs.forall_frontier hascending (mem_range_of_mem_ends hsize i inner)
      ⟨Nat.le_refl i, by omega⟩ j hj
    exact yields_checkedEnds hsize hj.2 (Or.inl rfl)
  rw [checkedEnds]
  cases h : Sweep.checkedLoop (checkedEnds input inner) min none (.initial min i) with
  | error o =>
    rw [h] at hloop
    obtain rfl : o = .counter := hloop
    rfl
  | ok last =>
    -- the loop would have come past the required rounds, where its counter has no room left
    rw [h] at hloop
    obtain rfl : last = _ := hloop
    have hlt := hfinishes.lt_rounds hascending ((self_mem_ends_iff hi).2 hinner)
    have hfits := Sweep.rounds_lt_of_checkedLoop h (show 0 < UInt32.size by decide)
    omega

/-! ### Sums in an evaluation -/

/-- In an input of less than 2^63 bytes and from any start of 64 bits, the positions in a search for
match ends are never too great, and in a search for the longest match they are only for a class at
the last position of all. Where the rounds of each repetition can be counted in 32 bits, the checked
evaluation succeeds and gives what the unchecked one gives. -/
theorem checked_sums_fit (p : Pattern) (input : Bytes) {i : Nat} (hsize : input.size < 2 ^ 63)
    (hi : i < UInt64.size) :
    checkedEnds input p i ≠ .error .position ∧
      (p.checkedLongest input i = .error .position ↔
        (∃ set, p = oneOf set) ∧ i + 1 = UInt64.size) ∧
      (p.countable = true → input.size - i + 1 < UInt32.size →
        checkedEnds input p i = .ok (p.ends input i) ∧
          (i + 1 < UInt64.size ∨ (∀ set, p ≠ oneOf set) →
            p.checkedLongest input i = .ok (p.longest input i))) := by
  have hsize : input.size < UInt64.size := hsize.trans (by decide)
  have hposition : ¬ Overflow.position = .counter := nofun
  refine ⟨?_, ?_, ?_⟩
  · have hends : Yields (· = .counter) (checkedEnds input p i) (p.ends input i) :=
      yields_checkedEnds hsize hi (Or.inl rfl)
    exact hends.ne_error hposition
  · constructor
    · intro herror
      by_contra hnot
      have hclass : i + 1 < UInt64.size ∨ ∀ set, p ≠ oneOf set := by
        by_cases hlast : i + 1 < UInt64.size
        · exact Or.inl hlast
        · exact Or.inr fun set hset => hnot ⟨⟨set, hset⟩, by omega⟩
      have hlongest : Yields (· = .counter) (p.checkedLongest input i) (p.longest input i) :=
        yields_checkedLongest hsize hi hclass (Or.inl rfl)
      exact hlongest.ne_error hposition herror
    · rintro ⟨⟨set, rfl⟩, hlast⟩
      exact checkedLongest_oneOf_last set input hlast
  · intro hcountable hroom
    have hcount : False ∨ p.countable = true ∧ input.size - i + 1 < UInt32.size :=
      Or.inr ⟨hcountable, hroom⟩
    exact ⟨eq_ok_of_yields (yields_checkedEnds hsize hi hcount), fun hclass =>
      eq_ok_of_yields (yields_checkedLongest hsize hi hclass hcount)⟩

/-- Digits before a sign, any number of times, from the last position of all. -/
theorem checked_sums_fit_signed :
    (Bytes.ofString "12+").size < 2 ^ 63 ∧ 18446744073709551615 < UInt64.size ∧
      (times (concat [star .digit, text "+"]) 0 none).countable = true ∧
      checkedEnds (Bytes.ofString "12+") (times (concat [star .digit, text "+"]) 0 none)
          18446744073709551615 =
        .ok ((times (concat [star .digit, text "+"]) 0 none).ends (Bytes.ofString "12+")
          18446744073709551615) := by
  have hsize : (Bytes.ofString "12+").size < 2 ^ 63 := by decide
  have hi : 18446744073709551615 < UInt64.size := by decide
  have hcountable : (times (concat [star .digit, text "+"]) 0 none).countable = true := by
    decide +kernel
  obtain ⟨_, _, hfits⟩ := checked_sums_fit (times (concat [star .digit, text "+"]) 0 none)
    (Bytes.ofString "12+") hsize hi
  exact ⟨hsize, hi, hcountable, (hfits hcountable (by decide)).1⟩

/-- A sum of positions and a counter that are too great: the position behind the last one of all, and
the round behind as many as 32 bits can count. -/
theorem checked_sums_too_great :
    (oneOf .digit).checkedLongest #[] 18446744073709551615 = .error .position ∧
      checkedEnds #[] (times (times (star .digit) 4294967295 none) 4294967295 none) 0 =
        .error .counter := by
  have hnil : [] ∈ (times (star .digit) 4294967295 none).language :=
    mem_language_times.2 ⟨4294967295, Nat.le_refl _, nofun,
      nil_mem_pow (mem_language_run.2 ⟨Nat.zero_le _, nofun⟩) _⟩
  exact ⟨checkedLongest_oneOf_last .digit #[] (by decide),
    checkedEnds_times_eq_error (by decide) (Nat.le_refl 0) hnil (by decide)⟩

end Pattern

end ShellTokens
