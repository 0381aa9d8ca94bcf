import Mathlib.Data.List.Perm.Subperm
import Mathlib.Logic.Function.Iterate
import ShellTokens.Pattern.Sweep
import ShellTokens.Positions.Lemmas

/-!
# What a repetition reaches

A sweep reaches the positions that some number of steps within its bounds reaches. With a greatest
number this is so by counting. Without one, positions reached before are dropped, so the sweep is an
exploration: it ends because each round finds a new position, and it misses nothing because what it
has reached is then closed under further steps.
-/

namespace ShellTokens.Sweep

open Positions

variable {step : Nat → Positions} {s : Sweep} {lo hi i e n : Nat}

/-! ### Rounds -/

theorem iterate_of_frontier_eq_nil {round : Sweep → Sweep} (h : s.frontier = []) (n : Nat) :
    iterate round n s = s := by
  cases n with
  | zero => rfl
  | succ n => simp [iterate, h]

/-- What every round keeps, a whole sweep keeps. -/
theorem iterate_induct {round : Sweep → Sweep} {P : Sweep → Prop} (hround : ∀ s, P s → P (round s))
    (n : Nat) (h : P s) : P (iterate round n s) := by
  induction n generalizing s with
  | zero => exact h
  | succ n ih =>
    rw [iterate]
    split
    · exact h
    · exact ih (hround s h)

theorem advance_iterate_nil (k : Nat) : (advance step)^[k] [] = [] :=
  Function.iterate_fixed rfl k

theorem ascending_advance_iterate (hstep : ∀ j, Ascending (step j)) {frontier : Positions}
    (h : Ascending frontier) (k : Nat) : Ascending ((advance step)^[k] frontier) := by
  cases k with
  | zero => exact h
  | succ k =>
    rw [Function.iterate_succ_apply']
    exact ascending_advance hstep _

/-! ### Required rounds -/

theorem frontier_iterate_required (n : Nat) (s : Sweep) :
    (iterate (required step) n s).frontier = (advance step)^[n] s.frontier := by
  induction n generalizing s with
  | zero => rfl
  | succ n ih =>
    rw [iterate]
    split
    · next h => rw [List.isEmpty_iff.1 h, advance_iterate_nil]
    · rw [ih, Function.iterate_succ_apply]
      rfl

theorem reached_iterate_required (n : Nat) (s : Sweep) :
    (iterate (required step) n s).reached = s.reached := by
  refine iterate_induct (P := fun t => t.reached = s.reached) ?_ n rfl
  intro t ht
  exact ht

/-! ### Rounds towards a greatest number -/

theorem mem_reached_iterate_bounded (hstep : ∀ j, Ascending (step j)) (hs : Ascending s.reached) :
    e ∈ (iterate (bounded step) n s).reached ↔
      e ∈ s.reached ∨ ∃ k, k < n ∧ e ∈ (advance step)^[k + 1] s.frontier := by
  induction n generalizing s with
  | zero => simp [iterate]
  | succ n ih =>
    rw [iterate]
    split
    · next h => simp [List.isEmpty_iff.1 h, advance_iterate_nil]
    · have hnext : Ascending (advance step s.frontier) := ascending_advance hstep _
      rw [ih (ascending_union hnext hs), bounded, mem_union hs]
      simp only [Function.iterate_succ_apply]
      constructor
      · intro h
        rcases h with (he | he) | ⟨k, hk, he⟩
        · exact Or.inr ⟨0, Nat.succ_pos n, he⟩
        · exact Or.inl he
        · exact Or.inr ⟨k + 1, Nat.succ_lt_succ hk, he⟩
      · intro h
        rcases h with he | ⟨k, hk, he⟩
        · exact Or.inl (Or.inr he)
        · cases k with
          | zero => exact Or.inl (Or.inl he)
          | succ k => exact Or.inr ⟨k, Nat.lt_of_succ_lt_succ hk, he⟩

/-! ### Rounds without a greatest number -/

/-- The invariant of an exploration: a step leads out of the positions reached only from the
frontier. -/
structure Explored (step : Nat → Positions) (s : Sweep) : Prop where
  ascending : Ascending s.reached
  frontier_subset : s.frontier ⊆ s.reached
  closed : ∀ j ∈ s.reached, j ∉ s.frontier → step j ⊆ s.reached

theorem explored_settle (hs : Ascending s.frontier) : Explored step s.settle where
  ascending := hs
  frontier_subset := List.Subset.refl _
  closed _ hj hjf := absurd hj hjf

theorem mem_frontier_unbounded (hstep : ∀ j, Ascending (step j)) (hs : Ascending s.reached) :
    e ∈ (unbounded step s).frontier ↔ (∃ j ∈ s.frontier, e ∈ step j) ∧ e ∉ s.reached := by
  rw [unbounded, mem_diff (ascending_advance hstep _) hs, mem_advance hstep]

theorem mem_reached_unbounded (hstep : ∀ j, Ascending (step j)) (hs : Ascending s.reached) :
    e ∈ (unbounded step s).reached ↔ e ∈ s.reached ∨ ∃ j ∈ s.frontier, e ∈ step j := by
  rw [unbounded, mem_union hs, mem_diff (ascending_advance hstep _) hs, mem_advance hstep]
  by_cases he : e ∈ s.reached <;> simp [he]

theorem Explored.unbounded (hstep : ∀ j, Ascending (step j)) (h : Explored step s) :
    Explored step (unbounded step s) where
  ascending := ascending_union (ascending_diff (ascending_advance hstep _)) h.ascending
  frontier_subset := by
    intro e he
    exact (mem_reached_unbounded hstep h.ascending).2
      (Or.inr ((mem_frontier_unbounded hstep h.ascending).1 he).1)
  closed := by
    intro j hj hjf e he
    have hj' : j ∈ s.reached := by
      by_contra hjr
      exact hjf ((mem_frontier_unbounded hstep h.ascending).2
        ⟨((mem_reached_unbounded hstep h.ascending).1 hj).resolve_left hjr, hjr⟩)
    rw [mem_reached_unbounded hstep h.ascending]
    by_cases hjo : j ∈ s.frontier
    · exact Or.inr ⟨j, hjo, he⟩
    · exact Or.inl (h.closed j hj' hjo he)

theorem Explored.iterate (hstep : ∀ j, Ascending (step j)) (h : Explored step s) (n : Nat) :
    Explored step (iterate (Sweep.unbounded step) n s) :=
  iterate_induct (fun _ ht => ht.unbounded hstep) n h

theorem Explored.forall_reached (hstep : ∀ j, Ascending (step j)) {P : Nat → Prop}
    (hP : ∀ j, P j → ∀ e ∈ step j, P e) (h : Explored step s) (hs : ∀ j ∈ s.reached, P j) :
    ∀ j ∈ (Sweep.unbounded step s).reached, P j := by
  intro e he
  rcases (mem_reached_unbounded hstep h.ascending).1 he with he | ⟨j, hj, he⟩
  · exact hs e he
  · exact hP j (hs j (h.frontier_subset hj)) e he

/-- A property that steps keep holds of whatever an exploration reaches. -/
theorem Explored.forall_reached_iterate (hstep : ∀ j, Ascending (step j)) {P : Nat → Prop}
    (hP : ∀ j, P j → ∀ e ∈ step j, P e) (h : Explored step s) (hs : ∀ j ∈ s.reached, P j) :
    ∀ j ∈ (Sweep.iterate (Sweep.unbounded step) n s).reached, P j := by
  refine (iterate_induct (P := fun t => Explored step t ∧ ∀ j ∈ t.reached, P j) ?_ n ⟨h, hs⟩).2
  intro t hinv
  obtain ⟨ht, htP⟩ := hinv
  exact ⟨ht.unbounded hstep, ht.forall_reached hstep hP htP⟩

theorem Explored.reached_subset_iterate (hstep : ∀ j, Ascending (step j)) (h : Explored step s) :
    s.reached ⊆ (Sweep.iterate (Sweep.unbounded step) n s).reached := by
  refine (iterate_induct (P := fun t => Explored step t ∧ s.reached ⊆ t.reached) ?_ n
    ⟨h, List.Subset.refl _⟩).2
  intro t hinv
  obtain ⟨ht, hst⟩ := hinv
  refine ⟨ht.unbounded hstep, ?_⟩
  intro e he
  exact (mem_reached_unbounded hstep ht.ascending).2 (Or.inl (hst he))

theorem length_le_of_bounds {l : Positions} (hl : Ascending l) (h : ∀ j ∈ l, lo ≤ j ∧ j ≤ hi) :
    l.length ≤ hi + 1 - lo := by
  have hsub : l ⊆ interval lo hi := fun j hj => mem_interval.2 (h j hj)
  have hlength := (List.subperm_of_subset (hl.imp Nat.ne_of_lt) hsub).length_le
  rwa [interval, List.length_range'] at hlength

theorem length_reached_lt_unbounded (hstep : ∀ j, Ascending (step j)) (h : Explored step s)
    (hne : (unbounded step s).frontier ≠ []) :
    s.reached.length < (unbounded step s).reached.length := by
  obtain ⟨e, he⟩ := List.exists_mem_of_ne_nil _ hne
  have hnew : e ∉ s.reached := ((mem_frontier_unbounded hstep h.ascending).1 he).2
  have hsub : e :: s.reached ⊆ (unbounded step s).reached := by
    refine List.cons_subset.2 ⟨(h.unbounded hstep).frontier_subset he, ?_⟩
    intro j hj
    exact (mem_reached_unbounded hstep h.ascending).2 (Or.inl hj)
  have hnodup : (e :: s.reached).Nodup :=
    List.nodup_cons.2 ⟨hnew, h.ascending.imp Nat.ne_of_lt⟩
  exact (List.subperm_of_subset hnodup hsub).length_le

/-- Each round finds a new position, so an exploration of `lo` to `hi` ends. -/
theorem frontier_iterate_unbounded_eq_nil (lo hi : Nat) (hstep : ∀ j, Ascending (step j))
    (hrange : ∀ j, lo ≤ j ∧ j ≤ hi → ∀ e ∈ step j, lo ≤ e ∧ e ≤ hi)
    (h : Explored step s) (hs : ∀ j ∈ s.reached, lo ≤ j ∧ j ≤ hi)
    (hn : hi + 1 - lo < n + s.reached.length) :
    (iterate (unbounded step) n s).frontier = [] := by
  induction n generalizing s with
  | zero =>
    have := length_le_of_bounds h.ascending hs
    omega
  | succ n ih =>
    rw [iterate]
    split
    · next hempty => exact List.isEmpty_iff.1 hempty
    · by_cases hnext : (unbounded step s).frontier = []
      · rw [iterate_of_frontier_eq_nil hnext, hnext]
      · have hlt := length_reached_lt_unbounded hstep h hnext
        exact ih (h.unbounded hstep) (h.forall_reached hstep hrange hs) (by omega)

/-- An exploration that has ended has reached what any number of steps reaches. -/
theorem Explored.advance_iterate_subset (hstep : ∀ j, Ascending (step j)) (h : Explored step s)
    (hnil : s.frontier = []) {frontier : Positions} (hsub : frontier ⊆ s.reached) (k : Nat) :
    (advance step)^[k] frontier ⊆ s.reached := by
  induction k with
  | zero => exact hsub
  | succ k ih =>
    intro e he
    rw [Function.iterate_succ_apply', mem_advance hstep] at he
    obtain ⟨j, hj, he⟩ := he
    exact h.closed j (ih hj) (by simp [hnil]) he

/-! ### Whole sweeps -/

/-- The state in which the rounds past the required ones begin. -/
theorem frontier_settled (n i : Nat) :
    (iterate (required step) n (start i)).settle.frontier = (advance step)^[n] [i] :=
  frontier_iterate_required n (start i)

theorem reached_settled (n i : Nat) :
    (iterate (required step) n (start i)).settle.reached = (advance step)^[n] [i] :=
  frontier_iterate_required n (start i)

theorem ascending_settled (hstep : ∀ j, Ascending (step j)) (n i : Nat) :
    Ascending ((advance step)^[n] [i]) :=
  ascending_advance_iterate hstep (List.pairwise_singleton _ i) n

theorem explored_settled (hstep : ∀ j, Ascending (step j)) (n i : Nat) :
    Explored step (iterate (required step) n (start i)).settle := by
  apply explored_settle
  rw [frontier_iterate_required]
  exact ascending_settled hstep n i

/-- What the required rounds lead to is reached. -/
theorem advance_iterate_subset_reached_run_none (hstep : ∀ j, Ascending (step j))
    (min size i : Nat) : (advance step)^[min] [i] ⊆ (run step min none size i).reached := by
  rw [← reached_settled]
  exact (explored_settled hstep min i).reached_subset_iterate hstep

theorem ascending_reached_run (hstep : ∀ j, Ascending (step j)) (min : Nat) (max : Option Nat)
    (size i : Nat) : Ascending (run step min max size i).reached := by
  cases max with
  | none => exact ((explored_settled hstep min i).iterate hstep _).ascending
  | some m =>
    rw [run]
    split
    · rw [reached_iterate_required]
      exact List.Pairwise.nil
    · refine iterate_induct (P := fun s => Ascending s.reached) ?_ _ ?_
      · intro s hs
        exact ascending_union (ascending_advance hstep _) hs
      · rw [reached_settled]
        exact ascending_settled hstep min i

/-- With a greatest number, a sweep reaches what the numbers of steps in between reach. -/
theorem mem_reached_run_some (hstep : ∀ j, Ascending (step j)) {min m size : Nat} :
    e ∈ (run step min (some m) size i).reached ↔
      ∃ k, min ≤ k ∧ k ≤ m ∧ e ∈ (advance step)^[k] [i] := by
  rw [run]
  split
  · next hlt =>
    rw [reached_iterate_required]
    constructor
    · intro he
      exact absurd he List.not_mem_nil
    · intro h
      obtain ⟨k, hmin, hmax, _⟩ := h
      omega
  · next hle =>
    have hsettled := ascending_settled hstep min i
    rw [mem_reached_iterate_bounded hstep (by rwa [reached_settled]), reached_settled,
      frontier_settled]
    simp only [← Function.iterate_add_apply]
    constructor
    · intro h
      rcases h with he | ⟨k, hk, he⟩
      · exact ⟨min, Nat.le_refl min, Nat.not_lt.1 hle, he⟩
      · exact ⟨k + 1 + min, by omega, by omega, he⟩
    · intro h
      obtain ⟨k, hmin, hmax, he⟩ := h
      obtain rfl | hlt := Nat.eq_or_lt_of_le hmin
      · exact Or.inl he
      · refine Or.inr ⟨k - min - 1, by omega, ?_⟩
        rwa [show k - min - 1 + 1 + min = k by omega]

theorem exists_of_mem_reached_run_none (hstep : ∀ j, Ascending (step j)) {min size : Nat}
    (he : e ∈ (run step min none size i).reached) :
    ∃ k, min ≤ k ∧ e ∈ (advance step)^[k] [i] := by
  refine (explored_settled hstep min i).forall_reached_iterate hstep
    (P := fun e => ∃ k, min ≤ k ∧ e ∈ (advance step)^[k] [i]) ?_ ?_ e he
  · intro j hreach e he
    obtain ⟨k, hk, hj⟩ := hreach
    refine ⟨k + 1, Nat.le_succ_of_le hk, ?_⟩
    rw [Function.iterate_succ_apply', mem_advance hstep]
    exact ⟨j, hj, he⟩
  · intro j hj
    rw [reached_settled] at hj
    exact ⟨min, Nat.le_refl min, hj⟩

/-- Steps that go on by `d` positions or more, and stay in the input, do so in any number. -/
theorem bounds_of_mem_advance_iterate (hstep : ∀ j, Ascending (step j)) {size k d : Nat}
    (hrange : ∀ j ≤ size, ∀ e ∈ step j, j + d ≤ e ∧ e ≤ size) (hi : i ≤ size)
    (he : e ∈ (advance step)^[k] [i]) : i + k * d ≤ e ∧ e ≤ size := by
  induction k generalizing e with
  | zero =>
    obtain rfl := List.mem_singleton.1 he
    exact ⟨by omega, hi⟩
  | succ k ih =>
    rw [Function.iterate_succ_apply', mem_advance hstep] at he
    obtain ⟨j, hj, he⟩ := he
    have hj := ih hj
    have he := hrange j hj.2 e he
    rw [Nat.succ_mul]
    omega

/-- One round for each position up to the end, and one that finds nothing, are enough. -/
theorem frontier_run_none_eq_nil (min : Nat) (hstep : ∀ j, Ascending (step j)) {size : Nat}
    (hrange : ∀ j ≤ size, ∀ e ∈ step j, j ≤ e ∧ e ≤ size) (hi : i ≤ size) :
    (run step min none size i).frontier = [] := by
  have hexplored := explored_settled hstep min i
  rw [run]
  by_cases hnil : (iterate (required step) min (start i)).settle.frontier = []
  · rw [iterate_of_frontier_eq_nil hnil, hnil]
  · have hlength := List.length_pos_iff.2 hnil
    rw [frontier_settled] at hlength
    refine frontier_iterate_unbounded_eq_nil i size hstep ?_ hexplored ?_ ?_
    · intro j hj e he
      have := hrange j hj.2 e he
      omega
    · intro j hj
      rw [reached_settled] at hj
      exact bounds_of_mem_advance_iterate (d := 0) hstep hrange hi hj
    · rw [reached_settled]
      omega

/-- Without a greatest number, and within an input that steps do not leave, a sweep reaches what any
number of steps from the least one on reaches. -/
theorem mem_reached_run_none (hstep : ∀ j, Ascending (step j)) {min size : Nat}
    (hrange : ∀ j ≤ size, ∀ e ∈ step j, j ≤ e ∧ e ≤ size) (hi : i ≤ size) :
    e ∈ (run step min none size i).reached ↔ ∃ k, min ≤ k ∧ e ∈ (advance step)^[k] [i] := by
  constructor
  · exact exists_of_mem_reached_run_none hstep
  · intro h
    obtain ⟨k, hk, he⟩ := h
    have hnil := frontier_run_none_eq_nil min hstep hrange hi
    have hexplored := (explored_settled hstep min i).iterate hstep (size - i + 1)
    have hsettled := advance_iterate_subset_reached_run_none hstep min size i
    apply hexplored.advance_iterate_subset hstep hnil hsettled (k - min)
    rwa [← Function.iterate_add_apply, Nat.sub_add_cancel hk]

theorem exists_of_mem_reached_run (hstep : ∀ j, Ascending (step j)) {min size : Nat}
    {max : Option Nat} (he : e ∈ (run step min max size i).reached) :
    ∃ k, min ≤ k ∧ (∀ m ∈ max, k ≤ m) ∧ e ∈ (advance step)^[k] [i] := by
  cases max with
  | none =>
    obtain ⟨k, hmin, he⟩ := exists_of_mem_reached_run_none hstep he
    exact ⟨k, hmin, nofun, he⟩
  | some m =>
    obtain ⟨k, hmin, hmax, he⟩ := (mem_reached_run_some hstep).1 he
    exact ⟨k, hmin, by simpa using hmax, he⟩

end ShellTokens.Sweep
