import ShellTokens.Proofs.Pattern.Rounds

/-!
# How far the rounds of a loop go

A repetition without a greatest number goes on past its required rounds only as long as it finds a
position that it has not reached before. Such a position is as many steps away as there were rounds,
and since none of these steps can have stayed where it was, the position lies at least as far behind
the start. The rounds of the loop are therefore bounded by the required ones or by the length of the
input behind the start, whichever is more, and by that length alone if each step moves on.
-/

namespace ShellTokens.Sweep

open Positions

variable {step : Nat → Positions} {s : Sweep} {min size i e k : Nat} {max : Option Nat}

/-! ### Positions after a number of steps -/

/-- A position that `k + 1` steps reach and `k` steps do not is moved to by each of them. -/
theorem le_of_mem_of_not_mem_iterate (hstep : ∀ j, Ascending (step j))
    (hrange : ∀ j ≤ size, ∀ e ∈ step j, j ≤ e ∧ e ≤ size) (hi : i ≤ size)
    (he : e ∈ (advance step)^[k + 1] [i]) (hnew : e ∉ (advance step)^[k] [i]) :
    i + (k + 1) ≤ e := by
  induction k generalizing e with
  | zero =>
    have hie := (bounds_of_mem_advance_iterate (d := 0) hstep hrange hi he).1
    have hne : e ≠ i := fun h => hnew (List.mem_singleton.2 h)
    omega
  | succ k ih =>
    rw [Function.iterate_succ_apply', mem_advance hstep] at he
    obtain ⟨j, hj, he⟩ := he
    have hjold : j ∉ (advance step)^[k] [i] := by
      intro hj
      apply hnew
      rw [Function.iterate_succ_apply', mem_advance hstep]
      exact ⟨j, hj, he⟩
    have hij := ih hj hjold
    have hsize := (bounds_of_mem_advance_iterate (d := 0) hstep hrange hi hj).2
    have hje := (hrange j hsize e he).1
    have hne : e ≠ j := fun h => hnew (h ▸ hj)
    omega

/-! ### States that the loop visits -/

theorem frontier_round_subset (s : Sweep) :
    (s.round step min max).frontier ⊆ advance step s.frontier := by
  unfold round
  dsimp only
  split
  · exact List.Subset.refl _
  · split
    · exact (diff_sublist _ _).subset
    · exact List.Subset.refl _

theorem Visits.frontier_subset (h : Visits step min max (initial min i) s)
    (hstep : ∀ j, Ascending (step j)) : s.frontier ⊆ (advance step)^[s.rounds] [i] := by
  induction h with
  | refl => exact List.Subset.refl _
  | tail _ hnext ih =>
    obtain ⟨_, rfl⟩ := hnext
    intro e he
    obtain ⟨j, hj, he⟩ := (mem_advance hstep).1 (frontier_round_subset _ he)
    rw [rounds_round, Function.iterate_succ_apply', mem_advance hstep]
    exact ⟨j, ih hj, he⟩

/-- Before the last required round, nothing is reached and nothing is dropped. -/
theorem Visits.of_rounds_lt (h : Visits step min max (initial min i) s) (hlt : s.rounds < min) :
    s.reached = [] ∧ s.frontier = (advance step)^[s.rounds] [i] := by
  induction h with
  | refl =>
    have hmin : min ≠ 0 := Nat.ne_of_gt hlt
    exact ⟨if_neg hmin, rfl⟩
  | tail _ hnext ih =>
    obtain ⟨_, rfl⟩ := hnext
    rw [rounds_round] at hlt
    obtain ⟨hreached, hfrontier⟩ := ih (Nat.lt_of_succ_lt hlt)
    rw [rounds_round, round_eq_required hlt, Function.iterate_succ_apply', ← hfrontier]
    exact ⟨hreached, rfl⟩

theorem Visits.frontier_eq_of_le (h : Visits step min max (initial min i) s)
    (hle : s.rounds ≤ min) : s.frontier = (advance step)^[s.rounds] [i] := by
  cases h with
  | refl => rfl
  | @tail t _ hvisits hnext =>
    obtain ⟨_, rfl⟩ := hnext
    rw [rounds_round] at hle
    obtain ⟨hreached, hfrontier⟩ := Visits.of_rounds_lt hvisits hle
    rw [rounds_round, Function.iterate_succ_apply', ← hfrontier]
    obtain hlt | heq := Nat.lt_or_eq_of_le hle
    · rw [round_eq_required hlt]
      rfl
    · rw [round_eq_settle heq hreached]
      rfl

/-- What an exploration from `i` has done after its rounds so far: nothing is missing that as many
steps reach. -/
structure Exploring (step : Nat → Positions) (i : Nat) (s : Sweep) : Prop where
  explored : Explored step s
  covers : (advance step)^[s.rounds] [i] ⊆ s.reached

theorem Exploring.unbounded (hstep : ∀ j, Ascending (step j)) (h : Exploring step i s) :
    Exploring step i (unbounded step s) where
  explored := h.explored.unbounded hstep
  covers := by
    intro e he
    have he : e ∈ (advance step)^[s.rounds + 1] [i] := he
    rw [Function.iterate_succ_apply', mem_advance hstep] at he
    obtain ⟨j, hj, he⟩ := he
    rw [mem_reached_unbounded hstep h.explored.ascending]
    by_cases hfrontier : j ∈ s.frontier
    · exact Or.inr ⟨j, hfrontier, he⟩
    · exact Or.inl (h.explored.closed j (h.covers hj) hfrontier he)

theorem Visits.exploring (h : Visits step min none (initial min i) s)
    (hstep : ∀ j, Ascending (step j)) (hmin : min ≤ s.rounds) : Exploring step i s := by
  induction h with
  | refl =>
    obtain rfl : min = 0 := Nat.le_zero.1 hmin
    exact ⟨explored_settle (s := start i) (List.pairwise_singleton _ i), List.Subset.refl _⟩
  | @tail t _ hvisits hnext ih =>
    obtain ⟨_, rfl⟩ := hnext
    obtain hlt | hle := Nat.lt_or_ge t.rounds min
    · rw [rounds_round] at hmin
      have heq : t.rounds + 1 = min := Nat.le_antisymm hlt hmin
      obtain ⟨hreached, hfrontier⟩ := Visits.of_rounds_lt hvisits hlt
      rw [round_eq_settle heq hreached]
      refine ⟨explored_settle (ascending_advance hstep _), ?_⟩
      change (advance step)^[t.rounds + 1] [i] ⊆ advance step t.frontier
      rw [Function.iterate_succ_apply', hfrontier]
      exact List.Subset.refl _
    · rw [round_eq_unbounded hle]
      exact (ih hle).unbounded hstep

/-! ### Counting rounds -/

/-- A loop without a greatest number that has come past its required rounds and still has a position
to step from has made no more rounds than there are positions behind the start. -/
theorem Visits.rounds_le_or (h : Visits step min none (initial min i) s)
    (hstep : ∀ j, Ascending (step j)) (hrange : ∀ j ≤ size, ∀ e ∈ step j, j ≤ e ∧ e ≤ size)
    (hi : i ≤ size) (hne : s.frontier ≠ []) : s.rounds ≤ min ∨ i + s.rounds ≤ size := by
  obtain ⟨e, he⟩ := List.exists_mem_of_ne_nil _ hne
  have hall := h.frontier_subset hstep he
  cases h with
  | refl => exact Or.inl (Nat.zero_le min)
  | @tail t _ hvisits hnext =>
    obtain ⟨_, rfl⟩ := hnext
    obtain hlt | hle := Nat.lt_or_ge t.rounds min
    · exact Or.inl (by rwa [rounds_round])
    · have hexploring := Visits.exploring hvisits hstep hle
      rw [round_eq_unbounded hle] at he
      have hnew := ((mem_frontier_unbounded hstep hexploring.explored.ascending).1 he).2
      rw [rounds_round] at hall ⊢
      have hmoved := le_of_mem_of_not_mem_iterate hstep hrange hi hall
        fun hold => hnew (hexploring.covers hold)
      have hsize := (bounds_of_mem_advance_iterate (d := 0) hstep hrange hi hall).2
      exact Or.inr (hmoved.trans hsize)

/-- Steps that move on leave behind as many positions as there were rounds. -/
theorem Visits.rounds_le_of_frontier (h : Visits step min max (initial min i) s)
    (hstep : ∀ j, Ascending (step j)) (hmove : ∀ j ≤ size, ∀ e ∈ step j, j < e ∧ e ≤ size)
    (hi : i ≤ size) (hne : s.frontier ≠ []) : i + s.rounds ≤ size := by
  obtain ⟨e, he⟩ := List.exists_mem_of_ne_nil _ hne
  have := bounds_of_mem_advance_iterate (d := 1) hstep hmove hi (h.frontier_subset hstep he)
  omega

/-- A step that can stay where it is takes the loop past the required rounds. -/
theorem Finishes.lt_rounds (h : Finishes step min none (initial min i) s)
    (hstep : ∀ j, Ascending (step j)) (hi : i ∈ step i) : min < s.rounds := by
  by_contra hle
  apply h.stops
  rw [continues_none, h.visits.frontier_eq_of_le (Nat.not_lt.1 hle)]
  exact List.ne_nil_of_mem (mem_advance_iterate_self hstep hi _)

/-- A property that steps keep holds of all positions to step from. -/
theorem Visits.forall_frontier (h : Visits step min max (initial min i) s)
    (hstep : ∀ j, Ascending (step j)) {P : Nat → Prop} (hP : ∀ j, P j → ∀ e ∈ step j, P e)
    (hi : P i) : ∀ j ∈ s.frontier, P j := by
  induction h with
  | refl => simpa [initial] using hi
  | tail _ hnext ih =>
    obtain ⟨_, rfl⟩ := hnext
    intro e he
    obtain ⟨j, hj, he⟩ := (mem_advance hstep).1 (frontier_round_subset _ he)
    exact hP j (ih j hj) e he

end ShellTokens.Sweep
