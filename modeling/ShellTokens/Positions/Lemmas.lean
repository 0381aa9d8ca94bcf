import ShellTokens.Positions.Basic

/-!
# What the operations on positions hold

Each operation is described by its members, and each keeps lists ascending. A list that is ascending
is cut by `takeWhile` and `dropWhile` where a filter would cut it, which is why one pass is enough.
-/

namespace ShellTokens.Positions

/-! ### Cutting an ascending list -/

variable {xs ys : Positions} {x i : Nat}

theorem takeWhile_lt_eq_filter (h : Ascending ys) (x : Nat) :
    ys.takeWhile (· < x) = ys.filter (· < x) := by
  induction ys with
  | nil => rfl
  | cons y ys ih =>
    obtain ⟨hy, hys⟩ := List.pairwise_cons.1 h
    by_cases hxy : y < x
    · simp [hxy, ih hys]
    · have : ∀ z ∈ ys, x ≤ z := fun z hz => by have := hy z hz; omega
      simpa [hxy] using this

theorem dropWhile_le_eq_filter (h : Ascending ys) (x : Nat) :
    ys.dropWhile (· ≤ x) = ys.filter (x < ·) := by
  induction ys with
  | nil => rfl
  | cons y ys ih =>
    obtain ⟨hy, hys⟩ := List.pairwise_cons.1 h
    by_cases hxy : y ≤ x
    · simp [hxy, ih hys]
    · have : ∀ z ∈ ys, x < z := fun z hz => by have := hy z hz; omega
      rw [List.dropWhile_cons_of_neg (by simpa using hxy), eq_comm, List.filter_eq_self]
      simpa using ⟨Nat.not_le.1 hxy, this⟩

theorem dropWhile_lt_eq_filter (h : Ascending ys) (x : Nat) :
    ys.dropWhile (· < x) = ys.filter (x ≤ ·) := by
  induction ys with
  | nil => rfl
  | cons y ys ih =>
    obtain ⟨hy, hys⟩ := List.pairwise_cons.1 h
    by_cases hxy : y < x
    · simp [hxy, ih hys]
    · have : ∀ z ∈ ys, x ≤ z := fun z hz => by have := hy z hz; omega
      rw [List.dropWhile_cons_of_neg (by simpa using hxy), eq_comm, List.filter_eq_self]
      simpa using ⟨Nat.not_lt.1 hxy, this⟩

/-! ### Union and difference -/

@[simp] theorem union_nil (xs : Positions) : union xs [] = xs := by
  induction xs with
  | nil => rfl
  | cons x xs ih => simp [union, ih]

@[simp] theorem diff_nil (xs : Positions) : diff xs [] = xs := by
  cases xs with
  | nil => rfl
  | cons x xs => simp [diff]

theorem union_cons (h : Ascending ys) :
    union (x :: xs) ys = ys.filter (· < x) ++ x :: union xs (ys.filter (x < ·)) := by
  rw [union, takeWhile_lt_eq_filter h, dropWhile_le_eq_filter h]

theorem mem_union (h : Ascending ys) : i ∈ union xs ys ↔ i ∈ xs ∨ i ∈ ys := by
  induction xs generalizing ys with
  | nil => simp [union]
  | cons x xs ih =>
    rw [union_cons h]
    simp only [List.mem_append, List.mem_cons, ih (h.filter _), List.mem_filter, decide_eq_true_eq]
    have := Nat.lt_trichotomy i x
    grind

theorem ascending_union (hxs : Ascending xs) (hys : Ascending ys) : Ascending (union xs ys) := by
  induction xs generalizing ys with
  | nil => exact hys
  | cons x xs ih =>
    obtain ⟨hx, hxs⟩ := List.pairwise_cons.1 hxs
    rw [union_cons hys]
    refine List.pairwise_append.2
      ⟨hys.filter _, List.pairwise_cons.2 ⟨?_, ih hxs (hys.filter _)⟩, ?_⟩
    · intro z hz
      rcases (mem_union (hys.filter _)).1 hz with hz | hz
      · exact hx z hz
      · simpa using (List.mem_filter.1 hz).2
    · intro y hy z hz
      have hyx : y < x := by simpa using (List.mem_filter.1 hy).2
      rcases List.mem_cons.1 hz with rfl | hz
      · exact hyx
      · rcases (mem_union (hys.filter _)).1 hz with hz | hz
        · exact Nat.lt_trans hyx (hx z hz)
        · exact Nat.lt_trans hyx (by simpa using (List.mem_filter.1 hz).2)

theorem mem_dropWhile_lt (h : Ascending ys) (x : Nat) :
    i ∈ ys.dropWhile (· < x) ↔ i ∈ ys ∧ x ≤ i := by
  rw [dropWhile_lt_eq_filter h, List.mem_filter, decide_eq_true_eq]

theorem mem_diff (hxs : Ascending xs) (hys : Ascending ys) :
    i ∈ diff xs ys ↔ i ∈ xs ∧ i ∉ ys := by
  induction xs generalizing ys with
  | nil => simp [diff]
  | cons x xs ih =>
    obtain ⟨hx, hxs⟩ := List.pairwise_cons.1 hxs
    have hmem : ∀ z, z ∈ ys.dropWhile (· < x) ↔ z ∈ ys ∧ x ≤ z := fun z => mem_dropWhile_lt hys x
    have hrest : Ascending (ys.dropWhile (· < x)) := hys.sublist (List.dropWhile_sublist _)
    rw [diff]
    generalize ys.dropWhile (· < x) = rest at hmem hrest
    cases rest with
    | nil => grind
    | cons y rest =>
      have hxle : ∀ z ∈ y :: rest, x ≤ z := fun z hz => ((hmem z).1 hz).2
      have hys' : ∀ z, x < z → (z ∈ ys ↔ z ∈ y :: rest) := fun z hz =>
        ⟨fun h => (hmem z).2 ⟨h, Nat.le_of_lt hz⟩, fun h => ((hmem z).1 h).1⟩
      obtain ⟨hy, hrest'⟩ := List.pairwise_cons.1 hrest
      by_cases hxy : x = y
      · subst hxy
        have hxys : x ∈ ys := ((hmem x).1 List.mem_cons_self).1
        simp only [if_true, ih hxs hrest', List.mem_cons]
        grind
      · have hxys : x ∉ ys := fun h => by
          have hlt : x < y := Nat.lt_of_le_of_ne (hxle y List.mem_cons_self) hxy
          rcases List.mem_cons.1 ((hmem x).2 ⟨h, Nat.le_refl x⟩) with rfl | hx
          · exact hxy rfl
          · exact Nat.lt_asymm hlt (hy x hx)
        simp only [hxy, if_false, List.mem_cons (b := x), ih hxs hrest]
        grind

theorem diff_sublist (xs ys : Positions) : (diff xs ys).Sublist xs := by
  induction xs generalizing ys with
  | nil => exact List.Sublist.refl _
  | cons x xs ih =>
    rw [diff]
    split
    · exact List.Sublist.refl _
    · split
      · exact (ih _).cons x
      · exact (ih _).cons_cons x

theorem ascending_diff (hxs : Ascending xs) : Ascending (diff xs ys) :=
  hxs.sublist (diff_sublist xs ys)

/-! ### Intervals and steps -/

theorem mem_interval {lo hi : Nat} : i ∈ interval lo hi ↔ lo ≤ i ∧ i ≤ hi := by
  rw [interval, List.mem_range'_1]
  omega

theorem ascending_interval (lo hi : Nat) : Ascending (interval lo hi) :=
  List.pairwise_lt_range'

variable {step : Nat → Positions} {frontier : Positions}

theorem ascending_advance (h : ∀ i, Ascending (step i)) (frontier : Positions) :
    Ascending (advance step frontier) := by
  induction frontier with
  | nil => exact List.Pairwise.nil
  | cons i frontier ih => exact ascending_union (h i) ih

theorem mem_advance (h : ∀ i, Ascending (step i)) :
    i ∈ advance step frontier ↔ ∃ j ∈ frontier, i ∈ step j := by
  induction frontier with
  | nil => simp [advance]
  | cons j frontier ih =>
    rw [show advance step (j :: frontier) = union (step j) (advance step frontier) from rfl,
      mem_union (ascending_advance h frontier), ih]
    simp

end ShellTokens.Positions
