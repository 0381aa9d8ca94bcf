import Mathlib.Order.Bounds.Defs
import ShellTokens.Grammar
import ShellTokens.Proofs.Pattern.LongestMatch
import ShellTokens.Shell.Grammar

/-!
# The longest match of a table

Which match a table must find is said over the match ends of its rules, without the look at the next
byte and without the order in which candidates are compared: the greatest end behind the position,
for the first rule that reaches it, or the fallback where no rule gets beyond the position. The
candidate kept after each rule is that match for the rules so far.
-/

namespace ShellTokens

namespace Table

variable {t : Table} {input : Bytes} {i e : Nat} {found : Match}

/-- The longest match, and of several rules that reach as far the first. -/
inductive IsBest (t : Table) (input : Bytes) (i : Nat) : Match → Prop
  | fallback (hnone : ∀ r ∈ t.rules, ∀ e ∈ r.pattern.ends input i, e ≤ i) :
      IsBest t input i ⟨t.fallback, i⟩
  | rule {r : Rule} {e : Nat} (hie : i < e)
      (hfirst : t.rules.find? (fun r => decide (e ∈ r.pattern.ends input i)) = some r)
      (hmax : ∀ r ∈ t.rules, ∀ j ∈ r.pattern.ends input i, j ≤ e) :
      IsBest t input i ⟨r.terminal, e⟩

theorem IsBest.le_stop (h : t.IsBest input i found) : i ≤ found.stop := by
  cases h with
  | fallback _ => exact Nat.le_refl i
  | rule hie _ _ => exact Nat.le_of_lt hie

/-- No rule gets beyond the match. -/
theorem IsBest.le_of_mem_ends (h : t.IsBest input i found) {r : Rule} (hr : r ∈ t.rules)
    (he : e ∈ r.pattern.ends input i) : e ≤ found.stop := by
  cases h with
  | fallback hnone => exact hnone r hr e he
  | rule _ _ hmax => exact hmax r hr e he

theorem IsBest.eq_fallback (h : t.IsBest input i found)
    (hnone : ∀ r ∈ t.rules, ∀ e ∈ r.pattern.ends input i, e ≤ i) : found = ⟨t.fallback, i⟩ := by
  cases h with
  | fallback _ => rfl
  | rule hie hfirst _ =>
    have := hnone _ (List.mem_of_find?_eq_some hfirst) _ (by simpa using List.find?_some hfirst)
    omega

/-- A match of some width is that of the first rule that reaches its end. -/
theorem IsBest.exists_index (h : t.IsBest input i found) (hlt : i < found.stop) :
    ∃ (k : Nat) (r : Rule), t.rules[k]? = some r ∧ found.terminal = r.terminal ∧
      found.stop ∈ r.pattern.ends input i ∧
      ∀ j < k, ∀ q, t.rules[j]? = some q → found.stop ∉ q.pattern.ends input i := by
  cases h with
  | fallback _ => exact absurd hlt (Nat.lt_irrefl i)
  | @rule r e _ hfirst _ =>
    obtain ⟨he, k, hk, hr, hbefore⟩ := List.find?_eq_some_iff_getElem.1 hfirst
    refine ⟨k, r, List.getElem?_eq_some_iff.2 ⟨hk, hr⟩, rfl, of_decide_eq_true he, ?_⟩
    intro j hj q hq
    obtain ⟨hjlt, rfl⟩ := List.getElem?_eq_some_iff.1 hq
    simpa using hbefore j hj

theorem IsBest.exists_rule (h : t.IsBest input i found) (hlt : i < found.stop) :
    ∃ r ∈ t.rules, found.terminal = r.terminal ∧ found.stop ∈ r.pattern.ends input i := by
  obtain ⟨k, r, hr, hterminal, he, _⟩ := h.exists_index hlt
  exact ⟨r, List.mem_of_getElem? hr, hterminal, he⟩

theorem IsBest.lt_stop_of_ne (h : t.IsBest input i found) (hne : found.terminal ≠ t.fallback) :
    i < found.stop := by
  cases h with
  | fallback _ => exact absurd rfl hne
  | rule hie _ _ => exact hie

/-- A match that is not the fallback begins like one of the rules for its terminal. -/
theorem IsBest.exists_firstByte (h : t.IsBest input i found) (hne : found.terminal ≠ t.fallback) :
    ∃ r ∈ t.rules, r.terminal = found.terminal ∧
      ∃ b, input[i]? = some b ∧ r.pattern.firstBytes.contains b = true := by
  have hlt := h.lt_stop_of_ne hne
  obtain ⟨r, hr, hterminal, he⟩ := h.exists_rule hlt
  exact ⟨r, hr, hterminal.symm, Pattern.exists_firstByte_of_mem_ends he hlt⟩

/-- What holds of the fallback and of the terminals of the rules holds of what is found. -/
theorem IsBest.terminal_of_forall (h : t.IsBest input i found) (P : Terminal → Prop)
    (hfallback : P t.fallback) (hrules : ∀ r ∈ t.rules, P r.terminal) : P found.terminal := by
  cases h with
  | fallback _ => exact hfallback
  | rule _ hfirst _ => exact hrules _ (List.mem_of_find?_eq_some hfirst)

theorem IsBest.stop_le_size (h : t.IsBest input i found) (hi : i ≤ input.size) :
    found.stop ≤ input.size := by
  obtain heq | hlt := Nat.eq_or_lt_of_le h.le_stop
  · exact heq ▸ hi
  · obtain ⟨r, _, _, hr⟩ := h.exists_rule hlt
    exact (Pattern.spells_of_mem_ends hr).le_size hi

theorem IsBest.unique {other : Match} (h : t.IsBest input i found) (h' : t.IsBest input i other) :
    found = other := by
  cases h with
  | fallback hnone => exact (h'.eq_fallback hnone).symm
  | @rule r e hie hfirst hmax =>
    cases h' with
    | fallback hnone =>
      have := hnone r (List.mem_of_find?_eq_some hfirst) e (by simpa using List.find?_some hfirst)
      omega
    | @rule q j _ hfirst' hmax' =>
      have hje := hmax q (List.mem_of_find?_eq_some hfirst') j
        (by simpa using List.find?_some hfirst')
      have hej := hmax' r (List.mem_of_find?_eq_some hfirst) e
        (by simpa using List.find?_some hfirst)
      obtain rfl : e = j := by omega
      rw [hfirst] at hfirst'
      cases hfirst'
      rfl

/-! ### Comparing the rules one by one -/

/-- The table with one more rule at its end. -/
def snoc (t : Table) (r : Rule) : Table :=
  { t with rules := t.rules ++ [r] }

theorem forall_mem_rules_snoc {r : Rule} {P : Rule → Prop} :
    (∀ q ∈ (t.snoc r).rules, P q) ↔ (∀ q ∈ t.rules, P q) ∧ P r := by
  simp [snoc, or_imp, forall_and]

theorem IsBest.snoc_of_le (h : t.IsBest input i found) {r : Rule}
    (hr : ∀ e ∈ r.pattern.ends input i, e ≤ found.stop) : (t.snoc r).IsBest input i found := by
  cases h with
  | fallback hnone =>
    refine IsBest.fallback (t := t.snoc r) ?_
    rw [forall_mem_rules_snoc]
    exact ⟨hnone, hr⟩
  | rule hie hfirst hmax =>
    refine IsBest.rule hie ?_ ?_
    · rw [snoc, List.find?_append, hfirst]
      rfl
    · rw [forall_mem_rules_snoc]
      exact ⟨hmax, hr⟩

theorem IsBest.snoc_of_lt (h : t.IsBest input i found) {r : Rule}
    (hlongest : r.pattern.longest input i = some e) (hlt : found.stop < e) :
    (t.snoc r).IsBest input i ⟨r.terminal, e⟩ := by
  obtain ⟨he, hie, hmax⟩ := Pattern.longest_eq_some_iff.1 hlongest
  refine IsBest.rule hie ?_ ?_
  · have hnone : t.rules.find? (fun q => decide (e ∈ q.pattern.ends input i)) = none := by
      rw [List.find?_eq_none]
      intro q hq hqe
      have := h.le_of_mem_ends hq (of_decide_eq_true hqe)
      omega
    rw [snoc, List.find?_append, hnone, Option.none_or, List.find?_singleton]
    exact if_pos (decide_eq_true he)
  · rw [forall_mem_rules_snoc]
    refine ⟨?_, hmax⟩
    intro q hq j hj
    exact Nat.le_of_lt (Nat.lt_of_le_of_lt (h.le_of_mem_ends hq hj) hlt)

theorem IsBest.improve (h : t.IsBest input i found) (r : Rule) :
    (t.snoc r).IsBest input i (improve input i found r) := by
  unfold Table.improve
  rw [Rule.longest_eq]
  cases hlongest : r.pattern.longest input i with
  | none =>
    apply h.snoc_of_le
    intro e he
    exact Nat.le_trans (Pattern.longest_eq_none_iff.1 hlongest e he) h.le_stop
  | some e =>
    dsimp only
    split
    · next hlt => exact h.snoc_of_lt hlongest hlt
    · next hle =>
      apply h.snoc_of_le
      intro j hj
      exact Nat.le_trans ((Pattern.longest_eq_some_iff.1 hlongest).2.2 j hj) (Nat.not_lt.1 hle)

theorem isBest_bestMatch (t : Table) (input : Bytes) (i : Nat) :
    t.IsBest input i (t.bestMatch input i) := by
  obtain ⟨rules, fallback⟩ := t
  induction rules using List.reverseRecOn with
  | nil => exact IsBest.fallback (t := ⟨[], fallback⟩) fun r hr => absurd hr List.not_mem_nil
  | append_singleton rules r ih =>
    have hstep := ih.improve r
    rw [bestMatch] at hstep ⊢
    rw [List.foldl_append]
    exact hstep

end Table

namespace Grammar

/-- The keyword and the word are equally long; the keyword stands first. -/
example : Shell.grammar.matchAt .command (Bytes.ofString "format") 3 0 = .ok ⟨.kwFor, 3⟩ := by
  decide +kernel

end Grammar

end ShellTokens
