import Mathlib.Data.List.Find
import Mathlib.Data.List.Sort
import ShellTokens.Line
import ShellTokens.Proofs.Table.LongestRule
import ShellTokens.Shell.Grammar

/-!
# What a match looks at

A match does not depend on the bytes before it. Of the bytes behind it, more may make it longer, but
as long as it stays where it ends, they do not change it. Both are first said about match ends:
those in a shorter view are the ones that lie in it, and those behind other bytes are shifted by
their number. As the longest match is determined by the match ends, it follows them.
-/

namespace ShellTokens

/-! ### Match ends -/

namespace Pattern

open Positions

variable {input : Bytes} {i n : Nat}

theorem ends_take (p : Pattern) (hi : i ≤ input.size) (hn : i ≤ n) :
    p.ends (input.take n) i = (p.ends input i).filter (· ≤ n) := by
  apply List.Pairwise.eq_of_mem_iff (ascending_ends p _ i) ((ascending_ends p input i).filter _)
  intro e
  have hview : i ≤ (input.take n).size := by
    rw [Bytes.size_take]
    exact Nat.le_min.2 ⟨hn, hi⟩
  rw [List.mem_filter, mem_ends_iff hview, mem_ends_iff hi, Bytes.spells_take hn, decide_eq_true_eq]

theorem ends_append (p : Pattern) (before : Bytes) (hi : i ≤ input.size) :
    p.ends (before ++ input) (before.size + i) = (p.ends input i).map (before.size + ·) := by
  have hascending : Ascending ((p.ends input i).map (before.size + ·)) :=
    (ascending_ends p input i).map _ fun _ _ h => Nat.add_lt_add_left h _
  apply List.Pairwise.eq_of_mem_iff (ascending_ends p _ _) hascending
  intro e
  have hsize : before.size + i ≤ (before ++ input).size := by
    rw [Array.size_append]
    exact Nat.add_le_add_left hi _
  rw [mem_ends_iff hsize, Bytes.spells_append, List.mem_map]
  constructor
  · rintro ⟨j, hj, rfl⟩
    exact ⟨j, mem_ends_of_spells hi hj, rfl⟩
  · rintro ⟨j, hj, rfl⟩
    exact ⟨j, spells_of_mem_ends hj, rfl⟩

end Pattern

/-! ### Longest matches -/

namespace Table

variable {t : Table} {input : Bytes} {i n : Nat} {found : Match}

/-- Where all match ends are shifted, the longest match is. -/
theorem IsBest.shift (h : t.IsBest input i found) {input' : Bytes} {d : Nat}
    (hends : ∀ r ∈ t.rules,
      r.pattern.ends input' (d + i) = (r.pattern.ends input i).map (d + ·)) :
    t.IsBest input' (d + i) ⟨found.terminal, d + found.stop⟩ := by
  have hmem : ∀ r ∈ t.rules, ∀ e, d + e ∈ r.pattern.ends input' (d + i) ↔
      e ∈ r.pattern.ends input i := by
    intro r hr e
    rw [hends r hr]
    exact List.mem_map_of_injective (add_right_injective d)
  have hmax : ∀ stop, (∀ r ∈ t.rules, ∀ e ∈ r.pattern.ends input i, e ≤ stop) →
      ∀ r ∈ t.rules, ∀ e ∈ r.pattern.ends input' (d + i), e ≤ d + stop := by
    intro stop hstop r hr e he
    rw [hends r hr] at he
    obtain ⟨j, hj, rfl⟩ := List.mem_map.1 he
    exact Nat.add_le_add_left (hstop r hr j hj) d
  cases h with
  | fallback hnone => exact IsBest.fallback (hmax i hnone)
  | @rule r e hie hfirst hle =>
    refine IsBest.rule (Nat.add_lt_add_left hie d) ?_ (hmax e hle)
    rw [← hfirst]
    exact List.find?_congr fun r hr => decide_eq_decide.2 (hmem r hr e)

theorem bestMatch_append (t : Table) (before : Bytes) (hi : i ≤ input.size) :
    t.bestMatch (before ++ input) (before.size + i) =
      ⟨(t.bestMatch input i).terminal, before.size + (t.bestMatch input i).stop⟩ := by
  apply (t.isBest_bestMatch _ _).unique
  exact (t.isBest_bestMatch input i).shift fun r _ => r.pattern.ends_append before hi

/-- The longest match is found in the bytes from its position on. -/
theorem bestMatch_eq_drop (t : Table) (hi : i ≤ input.size) :
    t.bestMatch input i = ⟨(t.bestMatch (input.toList.drop i).toArray 0).terminal,
      i + (t.bestMatch (input.toList.drop i).toArray 0).stop⟩ := by
  have hsplit : input.take i ++ (input.toList.drop i).toArray = input := by
    rw [← Array.toList_inj, Array.toList_append, Bytes.toList_take, List.take_append_drop]
  have happend := t.bestMatch_append (input.take i) (Nat.zero_le (input.toList.drop i).toArray.size)
  rwa [hsplit, Nat.add_zero, Bytes.size_take, Nat.min_eq_left hi] at happend

/-- A shorter view does not show longer matches. -/
theorem stop_bestMatch_take_le (t : Table) (hi : i ≤ input.size) (hn : i ≤ n) :
    (t.bestMatch (input.take n) i).stop ≤ (t.bestMatch input i).stop := by
  have hview := t.isBest_bestMatch (input.take n) i
  have hbest := t.isBest_bestMatch input i
  obtain heq | hlt := Nat.eq_or_lt_of_le hview.le_stop
  · rw [← heq]
    exact hbest.le_stop
  · obtain ⟨r, hr, _, he⟩ := hview.exists_rule hlt
    rw [r.pattern.ends_take hi hn] at he
    exact hbest.le_of_mem_ends hr (List.mem_of_mem_filter he)

/-- A match that ends within a shorter view is found there. -/
theorem bestMatch_take (t : Table) (hi : i ≤ input.size) (hn : i ≤ n)
    (hstop : (t.bestMatch input i).stop ≤ n) :
    t.bestMatch (input.take n) i = t.bestMatch input i := by
  have hbest := t.isBest_bestMatch input i
  apply (t.isBest_bestMatch _ _).unique
  have hends : ∀ r ∈ t.rules,
      r.pattern.ends (input.take n) (0 + i) = (r.pattern.ends input i).map (0 + ·) := by
    intro r hr
    have hall : ∀ e ∈ r.pattern.ends input i, decide (e ≤ n) = true :=
      fun e he => decide_eq_true (Nat.le_trans (hbest.le_of_mem_ends hr he) hstop)
    simp only [Nat.zero_add, List.map_id']
    rw [r.pattern.ends_take hi hn, List.filter_eq_self.2 hall]
  simpa using hbest.shift hends

end Table

/-! ### Queries -/

namespace Grammar

variable {start : Nat}

theorem matchAt_eq_ok (g : Grammar) (mode : Mode) {buffer : Bytes} {len : Nat}
    (hlen : len ≤ buffer.size) (hstart : start ≤ len) :
    g.matchAt mode buffer len start =
      .ok ((g.table mode).bestMatch (buffer.take len) start) := by
  rw [matchAt, if_neg (Nat.not_lt.2 hlen), if_neg (Nat.not_lt.2 hstart)]

theorem tokenAt_eq_ok (g : Grammar) (mode : Mode) {line : Line} (hstart : start ≤ line.size) :
    g.tokenAt mode line start = .ok ((g.table mode).bestMatch line.bytes start) := by
  have htake : line.bytes.take line.size = line.bytes := by
    rw [← Array.toList_inj, Bytes.toList_take, Line.size, ← Array.length_toList, List.take_length]
  have hall : line.size ≤ line.bytes.size := Nat.le_refl _
  rw [tokenAt, matchAt_eq_ok g mode hall hstart, htake]

/-- A longer view of a buffer can only make a match longer, and a match that ends within the shorter
view is the same in both. -/
theorem matchAt_view (g : Grammar) (mode : Mode) {buffer : Bytes} {len len' : Nat}
    (hstart : start ≤ len) (hle : len ≤ len') (hlen' : len' ≤ buffer.size) :
    ∃ found found', g.matchAt mode buffer len start = .ok found ∧
      g.matchAt mode buffer len' start = .ok found' ∧ found.stop ≤ found'.stop ∧
      (found'.stop ≤ len → found = found') := by
  have hsize : start ≤ (buffer.take len').size := by
    rw [Bytes.size_take]
    omega
  refine ⟨_, _, matchAt_eq_ok g mode (Nat.le_trans hle hlen') hstart,
    matchAt_eq_ok g mode hlen' (Nat.le_trans hstart hle), ?_, ?_⟩
  · rw [← Bytes.take_take hle]
    exact (g.table mode).stop_bestMatch_take_le hsize hstart
  · intro hstop
    rw [← Bytes.take_take hle]
    exact (g.table mode).bestMatch_take hsize hstart hstop

/-- The word ends before the shorter view does. -/
theorem matchAt_view_word :
    0 ≤ 5 ∧ 5 ≤ 7 ∧ 7 ≤ (Bytes.ofString "echo hi").size ∧
      ∃ found, found.stop ≤ 5 ∧
        Shell.grammar.matchAt .command (Bytes.ofString "echo hi") 5 0 = .ok found ∧
        Shell.grammar.matchAt .command (Bytes.ofString "echo hi") 7 0 = .ok found := by
  have hsize : 7 ≤ (Bytes.ofString "echo hi").size := by decide
  obtain ⟨found, found', hfound, hfound', _, heq⟩ :=
    matchAt_view Shell.grammar .command (Nat.zero_le 5) (by decide : 5 ≤ 7) hsize
  have hstop : found'.stop ≤ 5 := by
    have hword : Shell.grammar.matchAt .command (Bytes.ofString "echo hi") 7 0 =
        .ok ⟨.litChars, 4⟩ := by
      decide +kernel
    cases hword.symm.trans hfound'
    decide
  obtain rfl := heq hstop
  exact ⟨Nat.zero_le 5, by decide, hsize, found, hstop, hfound, hfound'⟩

/-- A match behind other bytes is the match without them, shifted by their number; so are the match
ends of each pattern. Hence lines that go on alike from two positions have the same token there. -/
theorem tokenAt_append (g : Grammar) (mode : Mode) :
    (∀ before input : Bytes, ∃ found, g.tokenAt mode ⟨input⟩ 0 = .ok found ∧
      g.tokenAt mode ⟨before ++ input⟩ before.size =
        .ok ⟨found.terminal, before.size + found.stop⟩) ∧
    (∀ (p : Pattern) (before input : Bytes),
      p.ends (before ++ input) before.size = (p.ends input 0).map (before.size + ·)) ∧
    ∀ (line line' : Line) (i i' : Nat), i ≤ line.size → i' ≤ line'.size →
      line.bytes.toList.drop i = line'.bytes.toList.drop i' →
      ∃ terminal width, g.tokenAt mode line i = .ok ⟨terminal, i + width⟩ ∧
        g.tokenAt mode line' i' = .ok ⟨terminal, i' + width⟩ := by
  refine ⟨?_, fun p before input => p.ends_append before (Nat.zero_le _), ?_⟩
  · intro before input
    have hsize : before.size ≤ Line.size ⟨before ++ input⟩ := by
      rw [Line.size, Array.size_append]
      exact Nat.le_add_right _ _
    refine ⟨_, tokenAt_eq_ok g mode (Nat.zero_le _), ?_⟩
    rw [tokenAt_eq_ok g mode hsize]
    exact congrArg _ ((g.table mode).bestMatch_append before (Nat.zero_le input.size))
  · intro line line' i i' hi hi' hrest
    let found := (g.table mode).bestMatch (line.bytes.toList.drop i).toArray 0
    refine ⟨found.terminal, found.stop, ?_, ?_⟩
    · rw [tokenAt_eq_ok g mode hi, (g.table mode).bestMatch_eq_drop hi]
    · rw [tokenAt_eq_ok g mode hi', (g.table mode).bestMatch_eq_drop hi', ← hrest]

/-- The word behind a blank is the word by itself. -/
theorem tokenAt_append_word :
    5 ≤ (Line.ofString "echo hi").size ∧ 0 ≤ (Line.ofString "hi").size ∧
      (Line.ofString "echo hi").bytes.toList.drop 5 = (Line.ofString "hi").bytes.toList.drop 0 ∧
      ∃ terminal width,
        Shell.grammar.tokenAt .command (Line.ofString "echo hi") 5 = .ok ⟨terminal, 5 + width⟩ ∧
        Shell.grammar.tokenAt .command (Line.ofString "hi") 0 = .ok ⟨terminal, 0 + width⟩ := by
  have hi : 5 ≤ (Line.ofString "echo hi").size := by decide
  have hrest : (Line.ofString "echo hi").bytes.toList.drop 5 =
      (Line.ofString "hi").bytes.toList.drop 0 := by
    decide
  exact ⟨hi, Nat.zero_le _, hrest,
    (tokenAt_append Shell.grammar .command).2.2 _ _ 5 0 hi (Nat.zero_le _) hrest⟩

end Grammar

end ShellTokens
