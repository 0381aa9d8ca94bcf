import Mathlib.Logic.Relation
import ShellTokens.Proofs.Pattern.MatchEnds

/-!
# How many rounds a repetition takes

A sweep is told how many rounds are enough. Here a repetition is a loop that sees nothing but its
own state: another round follows as long as there is a position to step from and the greatest number
of repetitions is not reached. The loop finishes in the state of the sweep.

Without a greatest number, the frontier runs empty after no more rounds than the required ones and
one for each position up to the end of the input. With a greatest number nothing is dropped from the
frontier. If the inner pattern matches the empty word, the frontier therefore never runs empty, and
the loop takes the greatest number of rounds, however short the input is; if it does not, each round
moves on and the input bounds their number.
-/

namespace ShellTokens.Sweep

open Positions

variable {step : Nat → Positions} {f : Sweep → Sweep} {s t last : Sweep} {min m size i n : Nat}
  {max : Option Nat}

/-! ### The loop -/

/-- The state before the first round. Where nothing is required, the repetition may stop there. -/
def initial (min i : Nat) : Sweep where
  frontier := [i]
  reached := if min = 0 then [i] else []
  rounds := 0

/-- Another round follows. -/
def Continues (max : Option Nat) (s : Sweep) : Prop :=
  s.frontier ≠ [] ∧ ∀ m ∈ max, s.rounds < m

/-- The next round, whatever its number. -/
def round (step : Nat → Positions) (min : Nat) (max : Option Nat) (s : Sweep) : Sweep :=
  let next := advance step s.frontier
  if s.rounds + 1 < min then
    { s with frontier := next, rounds := s.rounds + 1 }
  else
    -- Only without a greatest number are positions reached before not explored again.
    let found := if max.isNone then diff next s.reached else next
    { frontier := found, reached := union found s.reached, rounds := s.rounds + 1 }

def Next (step : Nat → Positions) (min : Nat) (max : Option Nat) (s t : Sweep) : Prop :=
  s.Continues max ∧ t = s.round step min max

/-- The loop comes from the first state to the second. -/
def Visits (step : Nat → Positions) (min : Nat) (max : Option Nat) : Sweep → Sweep → Prop :=
  Relation.ReflTransGen (Next step min max)

/-- The loop comes to its last state. -/
structure Finishes (step : Nat → Positions) (min : Nat) (max : Option Nat) (s last : Sweep) :
    Prop where
  visits : Visits step min max s last
  stops : ¬ last.Continues max

@[simp] theorem continues_none : s.Continues none ↔ s.frontier ≠ [] := by
  simp [Continues]

@[simp] theorem continues_some : s.Continues (some m) ↔ s.frontier ≠ [] ∧ s.rounds < m := by
  simp [Continues]

theorem rounds_round (step : Nat → Positions) (min : Nat) (max : Option Nat) (s : Sweep) :
    (s.round step min max).rounds = s.rounds + 1 := by
  unfold round
  dsimp only
  split
  · rfl
  · rfl

theorem Visits.rounds_le (h : Visits step min max s t) : s.rounds ≤ t.rounds := by
  induction h with
  | refl => exact Nat.le_refl _
  | tail _ hnext ih =>
    obtain ⟨_, rfl⟩ := hnext
    rw [rounds_round]
    exact Nat.le_succ_of_le ih

/-- Whatever the loop visits lies on the way to its last state. -/
theorem Finishes.visits_last (h : Finishes step min max s last)
    (hvisits : Visits step min max s t) : Visits step min max t last := by
  have hunique : Relator.RightUnique (Next step min max) := by
    intro s t u ht hu
    rw [ht.2, hu.2]
  rcases Relation.ReflTransGen.total_of_right_unique hunique hvisits h.visits with htl | hlt
  · exact htl
  · rcases Relation.ReflTransGen.cases_head hlt with rfl | ⟨u, hnext, _⟩
    · exact Relation.ReflTransGen.refl
    · exact absurd hnext.1 h.stops

/-! ### Rounds by number -/

theorem iterate_succ' (f : Sweep → Sweep) (n : Nat) (s : Sweep) :
    iterate f (n + 1) s =
      if (iterate f n s).frontier.isEmpty then iterate f n s else f (iterate f n s) := by
  induction n generalizing s with
  | zero => rfl
  | succ n ih =>
    by_cases h : s.frontier = []
    · simp [iterate_of_frontier_eq_nil h, h]
    · have hround : ∀ k, iterate f (k + 1) s = iterate f k (f s) := fun k => by simp [iterate, h]
      rw [hround, hround, ih]

/-- As long as the frontier is not empty, every round has been done. -/
theorem rounds_iterate (hf : ∀ s, (f s).rounds = s.rounds + 1)
    (hne : (iterate f n s).frontier ≠ []) : (iterate f n s).rounds = s.rounds + n := by
  induction n with
  | zero => rfl
  | succ n ih =>
    rw [iterate_succ'] at hne ⊢
    split
    · next h =>
      rw [if_pos h] at hne
      exact absurd (List.isEmpty_iff.1 h) hne
    · next h =>
      rw [hf, ih (by simpa using h)]
      rfl

theorem rounds_iterate_le (hf : ∀ s, (f s).rounds = s.rounds + 1) (n : Nat) (s : Sweep) :
    (iterate f n s).rounds ≤ s.rounds + n := by
  induction n with
  | zero => exact Nat.le_refl _
  | succ n ih =>
    rw [iterate_succ']
    split
    · omega
    · rw [hf]
      omega

/-- Rounds of a kind that the loop does as well are rounds of the loop. -/
theorem visits_iterate
    (h : ∀ k < n, (iterate f k s).frontier ≠ [] →
      Next step min max (iterate f k s) (f (iterate f k s))) :
    Visits step min max s (iterate f n s) := by
  induction n with
  | zero => exact Relation.ReflTransGen.refl
  | succ n ih =>
    have hbefore := ih fun k hk => h k (Nat.lt_succ_of_lt hk)
    rw [iterate_succ']
    split
    · exact hbefore
    · next hne => exact hbefore.tail (h n (Nat.lt_succ_self n) (by simpa using hne))

/-! ### The loop and the sweep -/

theorem round_eq_required (h : s.rounds + 1 < min) : s.round step min max = s.required step := by
  rw [round, if_pos h]
  rfl

theorem round_eq_unbounded (h : min ≤ s.rounds) :
    s.round step min none = s.unbounded step := by
  rw [round, if_neg (by omega)]
  rfl

theorem round_eq_bounded (h : min ≤ s.rounds) :
    s.round step min (some m) = s.bounded step := by
  rw [round, if_neg (by omega)]
  rfl

/-- With the last required round the repetition may stop wherever it has come to. -/
theorem round_eq_settle (h : s.rounds + 1 = min) (hs : s.reached = []) :
    s.round step min max = (s.required step).settle := by
  rw [round, if_neg (by omega), hs]
  simp [required, settle]

theorem settle_of_frontier_eq (h : s.frontier = s.reached) : s.settle = s := by
  cases s
  cases h
  rfl

theorem visits_required (hn : n < min) (hmax : ∀ m ∈ max, n ≤ m) :
    Visits step min max (start i) (iterate (required step) n (start i)) := by
  apply visits_iterate
  intro k hk hne
  have hrounds : (iterate (required step) k (start i)).rounds = 0 + k :=
    rounds_iterate (fun _ => rfl) hne
  refine ⟨⟨hne, ?_⟩, (round_eq_required (by omega)).symm⟩
  intro m hm
  have := hmax m hm
  omega

theorem visits_settled (hmax : ∀ m ∈ max, min ≤ m) :
    Visits step min max (initial min i) (iterate (required step) min (start i)).settle := by
  cases min with
  | zero => exact Relation.ReflTransGen.refl
  | succ n =>
    have hbefore :
        Visits step (n + 1) max (initial (n + 1) i) (iterate (required step) n (start i)) :=
      visits_required (Nat.lt_succ_self n) fun m hm => Nat.le_of_succ_le (hmax m hm)
    have hreached : (iterate (required step) n (start i)).reached = [] :=
      reached_iterate_required n (start i)
    rw [iterate_succ']
    split
    · next hempty =>
      rwa [settle_of_frontier_eq ((List.isEmpty_iff.1 hempty).trans hreached.symm)]
    · next hne =>
      have hne : (iterate (required step) n (start i)).frontier ≠ [] := by simpa using hne
      have hrounds : (iterate (required step) n (start i)).rounds = 0 + n :=
        rounds_iterate (fun _ => rfl) hne
      refine hbefore.tail ⟨⟨hne, ?_⟩, (round_eq_settle (by omega) hreached).symm⟩
      intro m hm
      have := hmax m hm
      omega

/-- The number of a round that is not required. -/
theorem rounds_iterate_settled (hf : ∀ s, (f s).rounds = s.rounds + 1)
    (hne : (iterate f n (iterate (required step) min (start i)).settle).frontier ≠ []) :
    (iterate f n (iterate (required step) min (start i)).settle).rounds = min + n := by
  have hsettled : (iterate (required step) min (start i)).frontier ≠ [] := by
    intro hnil
    apply hne
    rw [iterate_of_frontier_eq_nil (s := (iterate (required step) min (start i)).settle) hnil]
    exact hnil
  have hrounds : (iterate (required step) min (start i)).rounds = 0 + min :=
    rounds_iterate (fun _ => rfl) hsettled
  rw [rounds_iterate hf hne, settle, hrounds, Nat.zero_add]

theorem visits_run (step : Nat → Positions) (min : Nat) (max : Option Nat) (size i : Nat) :
    Visits step min max (initial min i) (run step min max size i) := by
  cases max with
  | none =>
    refine (visits_settled (by simp)).trans (visits_iterate ?_)
    intro k _ hne
    have hrounds := rounds_iterate_settled (f := unbounded step) (fun _ => rfl) hne
    exact ⟨continues_none.2 hne, (round_eq_unbounded (by omega)).symm⟩
  | some m =>
    rw [run]
    split
    · next hlt =>
      have hinitial : initial min i = start i := by
        rw [initial, if_neg (by omega)]
        rfl
      rw [hinitial]
      exact visits_required hlt (by simp)
    · next hle =>
      refine (visits_settled (by simpa using hle)).trans (visits_iterate ?_)
      intro k hk hne
      have hrounds := rounds_iterate_settled (f := bounded step) (fun _ => rfl) hne
      exact ⟨continues_some.2 ⟨hne, by omega⟩, (round_eq_bounded (by omega)).symm⟩

theorem rounds_run_some (hne : (run step min (some m) size i).frontier ≠ []) :
    (run step min (some m) size i).rounds = m := by
  rw [run] at hne ⊢
  split at hne
  · next hlt =>
    rw [if_pos hlt, rounds_iterate (fun _ => rfl) hne]
    exact Nat.zero_add m
  · next hle =>
    rw [if_neg hle, rounds_iterate_settled (fun _ => rfl) hne]
    omega

theorem finishes_run_some (step : Nat → Positions) (min m size i : Nat) :
    Finishes step min (some m) (initial min i) (run step min (some m) size i) where
  visits := visits_run step min (some m) size i
  stops := by
    rw [continues_some]
    rintro ⟨hne, hlt⟩
    exact absurd (rounds_run_some hne) (Nat.ne_of_lt hlt)

theorem finishes_run_none (min : Nat) (hstep : ∀ j, Ascending (step j))
    (hrange : ∀ j ≤ size, ∀ e ∈ step j, j ≤ e ∧ e ≤ size) (hi : i ≤ size) :
    Finishes step min none (initial min i) (run step min none size i) where
  visits := visits_run step min none size i
  stops := by
    rw [continues_none, not_ne_iff]
    exact frontier_run_none_eq_nil min hstep hrange hi

/-! ### Counting rounds -/

theorem rounds_run_none_le (step : Nat → Positions) (min size i : Nat) :
    (run step min none size i).rounds ≤ min + (size - i) + 1 := by
  have hrequired : (iterate (required step) min (start i)).rounds ≤ 0 + min :=
    rounds_iterate_le (fun _ => rfl) min (start i)
  have hrun : (run step min none size i).rounds ≤
      (iterate (required step) min (start i)).rounds + (size - i + 1) :=
    rounds_iterate_le (fun _ => rfl) _ _
  omega

/-- With a greatest number, the frontier is what the rounds so far lead to. -/
theorem Visits.frontier_eq (h : Visits step min (some m) (initial min i) s) :
    s.frontier = (advance step)^[s.rounds] [i] := by
  induction h with
  | refl => rfl
  | tail _ hnext ih =>
    obtain ⟨_, rfl⟩ := hnext
    rw [rounds_round, Function.iterate_succ_apply', ← ih, round]
    dsimp only
    split
    · rfl
    · rfl

theorem Visits.rounds_le_greatest (h : Visits step min (some m) (initial min i) s) :
    s.rounds ≤ m := by
  cases h with
  | refl => exact Nat.zero_le m
  | tail _ hnext =>
    obtain ⟨hcontinues, rfl⟩ := hnext
    rw [rounds_round]
    exact (continues_some.1 hcontinues).2

theorem mem_advance_iterate_self (hstep : ∀ j, Ascending (step j)) (hi : i ∈ step i) (k : Nat) :
    i ∈ (advance step)^[k] [i] := by
  induction k with
  | zero => exact List.mem_cons_self
  | succ k ih =>
    rw [Function.iterate_succ_apply', mem_advance hstep]
    exact ⟨i, ih, hi⟩

/-- A step that can stay where it is uses up the greatest number. -/
theorem Finishes.rounds_eq (h : Finishes step min (some m) (initial min i) last)
    (hstep : ∀ j, Ascending (step j)) (hi : i ∈ step i) : last.rounds = m := by
  have hle := h.visits.rounds_le_greatest
  have hne : last.frontier ≠ [] := by
    rw [h.visits.frontier_eq]
    exact List.ne_nil_of_mem (mem_advance_iterate_self hstep hi _)
  have hnot : ¬ last.rounds < m := fun hlt => h.stops (continues_some.2 ⟨hne, hlt⟩)
  omega

/-- Steps that move on leave the input after as many rounds as it has positions. -/
theorem Visits.rounds_le_of_moves (h : Visits step min (some m) (initial min i) s)
    (hstep : ∀ j, Ascending (step j)) (hmove : ∀ j ≤ size, ∀ e ∈ step j, j < e ∧ e ≤ size)
    (hi : i ≤ size) : s.rounds ≤ size - i + 1 := by
  cases h with
  | refl => exact Nat.zero_le _
  | @tail s _ hvisits hnext =>
    obtain ⟨hcontinues, rfl⟩ := hnext
    obtain ⟨e, he⟩ := List.exists_mem_of_ne_nil _ hcontinues.1
    rw [Visits.frontier_eq hvisits] at he
    have := bounds_of_mem_advance_iterate (d := 1) hstep hmove hi he
    rw [rounds_round]
    omega

end ShellTokens.Sweep

namespace ShellTokens.Pattern

variable {p : Pattern} {input : Bytes} {i : Nat}

/-! ### Repeated patterns -/

theorem self_mem_ends_iff (hi : i ≤ input.size) : i ∈ p.ends input i ↔ [] ∈ p.language := by
  rw [mem_ends_iff hi, Bytes.spells_self]

theorem lt_of_mem_ends (hp : [] ∉ p.language) (input : Bytes) :
    ∀ j ≤ input.size, ∀ e ∈ p.ends input j, j < e ∧ e ≤ input.size := by
  intro j hj e he
  obtain ⟨hje, hsize⟩ := bounds_of_mem_ends p input j hj e he
  refine ⟨Nat.lt_of_le_of_ne hje ?_, hsize⟩
  rintro rfl
  exact hp ((self_mem_ends_iff hj).1 he)

/-- Without a greatest number, the loop runs out of positions to step from. It takes the required
rounds and at most one for each position from its start to the end of the input, and a counter of 32
bits that has room for so many never overflows. -/
theorem unbounded_loop_runs_dry (inner : Pattern) (min : Nat) (input : Bytes) {i : Nat}
    (hi : i ≤ input.size) :
    ∃ last, Sweep.Finishes (inner.ends input) min none (.initial min i) last ∧
      last.frontier = [] ∧
      last.rounds ≤ min + (input.size - i) + 1 ∧
      last.reached = (times inner min none).ends input i ∧
      (min + (input.size - i) + 1 < UInt32.size →
        ∀ s, Sweep.Visits (inner.ends input) min none (.initial min i) s →
          s.rounds < UInt32.size) := by
  have hascending := ascending_ends inner input
  have hrange := bounds_of_mem_ends inner input
  have hfinishes := Sweep.finishes_run_none min hascending hrange hi
  have hrounds := Sweep.rounds_run_none_le (inner.ends input) min input.size i
  refine ⟨_, hfinishes, ?_, hrounds, ?_, ?_⟩
  · exact Sweep.frontier_run_none_eq_nil min hascending hrange hi
  · rw [ends]
  · intro hroom s hs
    have := (hfinishes.visits_last hs).rounds_le
    omega

/-- Digits or nothing, at least twice, behind the first byte of `12`. -/
theorem unbounded_loop_runs_dry_digits :
    1 ≤ (Bytes.ofString "12").size ∧
      ∃ last, Sweep.Finishes ((star .digit).ends (Bytes.ofString "12")) 2 none (.initial 2 1) last ∧
        last.frontier = [] ∧ last.rounds ≤ 4 ∧
        last.reached = (times (star .digit) 2 none).ends (Bytes.ofString "12") 1 ∧
        ∀ s, Sweep.Visits ((star .digit).ends (Bytes.ofString "12")) 2 none (.initial 2 1) s →
          s.rounds < UInt32.size := by
  have hi : 1 ≤ (Bytes.ofString "12").size := by decide
  obtain ⟨last, hfinishes, hfrontier, hrounds, hreached, hroom⟩ :=
    unbounded_loop_runs_dry (star .digit) 2 (Bytes.ofString "12") hi
  exact ⟨hi, last, hfinishes, hfrontier, hrounds, hreached, hroom (by decide)⟩

/-- With a greatest number, the loop takes just that many rounds if the inner pattern matches the
empty word. If it does not, the positions from the start to the end of the input bound the number of
rounds as well. -/
theorem bounded_loop_rounds (inner : Pattern) (min m : Nat) (input : Bytes) {i : Nat}
    (hi : i ≤ input.size) :
    ∃ last, Sweep.Finishes (inner.ends input) min (some m) (.initial min i) last ∧
      last.reached = (times inner min (some m)).ends input i ∧
      ([] ∈ inner.language → last.rounds = m) ∧
      ([] ∉ inner.language → last.rounds ≤ m ∧ last.rounds ≤ input.size - i + 1) := by
  have hascending := ascending_ends inner input
  have hfinishes := Sweep.finishes_run_some (inner.ends input) min m input.size i
  refine ⟨_, hfinishes, ?_, ?_, ?_⟩
  · rw [ends]
  · intro hinner
    exact hfinishes.rounds_eq hascending ((self_mem_ends_iff hi).2 hinner)
  · intro hinner
    have hmove := lt_of_mem_ends hinner input
    exact ⟨hfinishes.visits.rounds_le_greatest,
      hfinishes.visits.rounds_le_of_moves hascending hmove hi⟩

/-- Up to four thousand million digits in `12`: the third round finds none. -/
theorem bounded_loop_rounds_digits :
    0 ≤ (Bytes.ofString "12").size ∧ [] ∉ (oneOf .digit).language ∧
      ∃ last, Sweep.Finishes ((oneOf .digit).ends (Bytes.ofString "12")) 0 (some 4000000000)
          (.initial 0 0) last ∧
        last.reached = (times (oneOf .digit) 0 (some 4000000000)).ends (Bytes.ofString "12") 0 ∧
        last.rounds ≤ 3 := by
  have hdigit : [] ∉ (oneOf .digit).language := by
    rintro ⟨b, _, hb⟩
    exact absurd hb (List.cons_ne_nil b []).symm
  obtain ⟨last, hfinishes, hreached, _, hrounds⟩ :=
    bounded_loop_rounds (oneOf .digit) 0 4000000000 (Bytes.ofString "12") (Nat.zero_le _)
  exact ⟨Nat.zero_le _, hdigit, last, hfinishes, hreached, (hrounds hdigit).2⟩

/-- In an empty input, which has a single position, a repetition of a repetition of digits goes on
for as many rounds as it may. -/
theorem bounded_loop_idles :
    ∃ last, Sweep.Finishes ((times (star .digit) 0 (some 4294967295)).ends #[]) 0 (some 4294967295)
        (.initial 0 0) last ∧
      0 + ((#[] : Bytes).size - 0) + 1 < last.rounds := by
  have hnil : [] ∈ (times (star .digit) 0 (some 4294967295)).language :=
    mem_language_times.2 ⟨0, Nat.zero_le 0, by simp, Language.nil_mem_one⟩
  have hself : 0 ∈ (times (star .digit) 0 (some 4294967295)).ends #[] 0 :=
    (self_mem_ends_iff (Nat.zero_le _)).2 hnil
  have hfinishes := Sweep.finishes_run_some
    ((times (star .digit) 0 (some 4294967295)).ends #[]) 0 4294967295 0 0
  refine ⟨_, hfinishes, ?_⟩
  rw [hfinishes.rounds_eq (ascending_ends _ _) hself]
  decide

end ShellTokens.Pattern
