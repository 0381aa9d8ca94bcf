import Mathlib.Data.List.Find
import ShellTokens.Proofs.Table.LongestRule

/-!
# The order of rules

How far the longest match of a table reaches depends on which rules it has and not on their order.
The order only decides between rules that reach as far: the first of them gives its terminal. So
where these agree on the terminal, tables with the same rules find the same match.
-/

namespace ShellTokens

namespace Table

variable {t t' : Table} {input : Bytes} {i e : Nat} {found found' : Match} {r : Rule}

/-- The first rule whose longest match ends at `e`. -/
def firstReaching? (t : Table) (input : Bytes) (i e : Nat) : Option Rule :=
  t.rules.find? fun r => r.longest input i == some e

theorem firstReaching?_eq_none_iff :
    t.firstReaching? input i e = none ↔ ∀ r ∈ t.rules, r.longest input i ≠ some e := by
  simp [firstReaching?]

theorem mem_of_firstReaching? (h : t.firstReaching? input i e = some r) :
    r ∈ t.rules ∧ r.longest input i = some e :=
  ⟨List.mem_of_find?_eq_some h, by simpa using List.find?_some h⟩

theorem exists_firstReaching? (hr : r ∈ t.rules) (he : r.longest input i = some e) :
    ∃ q, t.firstReaching? input i e = some q := by
  rw [← Option.ne_none_iff_exists']
  intro hnone
  exact firstReaching?_eq_none_iff.1 hnone r hr he

/-! ### One table -/

/-- More rules, in whatever order, reach at least as far. -/
theorem IsBest.stop_le_of_subset (h : t.IsBest input i found) (h' : t'.IsBest input i found')
    (hsub : t.rules ⊆ t'.rules) : found.stop ≤ found'.stop := by
  obtain heq | hlt := Nat.eq_or_lt_of_le h.le_stop
  · rw [← heq]
    exact h'.le_stop
  · obtain ⟨r, hr, _, he⟩ := h.exists_rule hlt
    exact h'.le_of_mem_ends (hsub hr) he

/-- The rules whose longest match ends with the best one are those that can end there at all. -/
theorem longest_eq_some_iff_mem_ends (hie : i < e) (hmax : ∀ j ∈ r.pattern.ends input i, j ≤ e) :
    r.longest input i = some e ↔ e ∈ r.pattern.ends input i := by
  rw [Rule.longest_eq, Pattern.longest_eq_some_iff]
  exact ⟨And.left, fun he => ⟨he, hie, hmax⟩⟩

theorem IsBest.terminal_eq (h : t.IsBest input i found) :
    found.terminal =
      ((t.firstReaching? input i found.stop).map Rule.terminal).getD t.fallback := by
  cases h with
  | fallback hnone =>
    have hfirst : t.firstReaching? input i i = none := by
      rw [firstReaching?_eq_none_iff]
      intro r hr hlongest
      rw [Rule.longest_eq, Pattern.longest_eq_none_iff.2 (hnone r hr)] at hlongest
      contradiction
    rw [hfirst]
    rfl
  | @rule r e hie hfirst hmax =>
    have hreaching : t.firstReaching? input i e = some r := by
      rw [firstReaching?, ← hfirst]
      apply List.find?_congr
      intro q hq
      rw [Bool.eq_iff_iff, beq_iff_eq, decide_eq_true_iff]
      exact longest_eq_some_iff_mem_ends hie (hmax q hq)
    rw [hreaching]
    rfl

theorem IsBest.exists_first (h : t.IsBest input i found) (hr : r ∈ t.rules)
    (hlongest : r.longest input i = some found.stop) :
    ∃ q, t.firstReaching? input i found.stop = some q ∧ found.terminal = q.terminal := by
  obtain ⟨q, hq⟩ := exists_firstReaching? hr hlongest
  refine ⟨q, hq, ?_⟩
  rw [h.terminal_eq, hq]
  rfl

/-! ### The same rules in another order -/

/-- In any order, the first rule to reach a position gives the same terminal, if all that reach it
have the same. -/
theorem map_terminal_firstReaching?_perm (h : t.rules.Perm t'.rules)
    (hsame : ∀ r ∈ t.rules, ∀ q ∈ t.rules, r.longest input i = some e →
      q.longest input i = some e → r.terminal = q.terminal) :
    (t'.firstReaching? input i e).map Rule.terminal =
      (t.firstReaching? input i e).map Rule.terminal := by
  cases hfirst : t.firstReaching? input i e with
  | none =>
    have hfirst' : t'.firstReaching? input i e = none := by
      rw [firstReaching?_eq_none_iff] at hfirst ⊢
      exact fun r hr => hfirst r (h.symm.subset hr)
    rw [hfirst']
  | some r =>
    obtain ⟨hr, hlongest⟩ := mem_of_firstReaching? hfirst
    obtain ⟨q, hfirst'⟩ := exists_firstReaching? (h.subset hr) hlongest
    obtain ⟨hq, hlongest'⟩ := mem_of_firstReaching? hfirst'
    rw [hfirst', Option.map_some, Option.map_some,
      hsame r hr q (h.symm.subset hq) hlongest hlongest']

/-- Tables with the same fallback and the same rules, in whatever order, find matches that end at
the same position. If all rules that reach it have one terminal, the matches have the same; where
terminals differ, the first rule that reaches it decides, in the order of the table that is used. -/
theorem bestMatch_perm (hrules : t.rules.Perm t'.rules) (hfallback : t'.fallback = t.fallback)
    (input : Bytes) (i : Nat) :
    (t'.bestMatch input i).stop = (t.bestMatch input i).stop ∧
      ((∀ r ∈ t.rules, ∀ q ∈ t.rules, r.longest input i = some (t.bestMatch input i).stop →
          q.longest input i = some (t.bestMatch input i).stop → r.terminal = q.terminal) →
        (t'.bestMatch input i).terminal = (t.bestMatch input i).terminal) ∧
      (∀ r ∈ t.rules, r.longest input i = some (t.bestMatch input i).stop →
        ∃ q, t.firstReaching? input i (t.bestMatch input i).stop = some q ∧
          (t.bestMatch input i).terminal = q.terminal) ∧
      (∀ r ∈ t'.rules, r.longest input i = some (t'.bestMatch input i).stop →
        ∃ q, t'.firstReaching? input i (t'.bestMatch input i).stop = some q ∧
          (t'.bestMatch input i).terminal = q.terminal) := by
  have hbest := t.isBest_bestMatch input i
  have hbest' := t'.isBest_bestMatch input i
  have hstop : (t'.bestMatch input i).stop = (t.bestMatch input i).stop :=
    Nat.le_antisymm (hbest'.stop_le_of_subset hbest hrules.symm.subset)
      (hbest.stop_le_of_subset hbest' hrules.subset)
  refine ⟨hstop, ?_, fun r => hbest.exists_first, fun r => hbest'.exists_first⟩
  intro hsame
  rw [hbest'.terminal_eq, hbest.terminal_eq, hstop, hfallback,
    map_terminal_firstReaching?_perm hrules hsame]

/-- The keyword and the word reach equally far in `for`. -/
theorem bestMatch_perm_for :
    [Shell.rule (.text "for") .kwFor, Shell.rule (.plus Shell.wordChar) .litChars].Perm
        [Shell.rule (.plus Shell.wordChar) .litChars, Shell.rule (.text "for") .kwFor] ∧
      (bestMatch ⟨[Shell.rule (.plus Shell.wordChar) .litChars, Shell.rule (.text "for") .kwFor],
          .eolTok⟩ (Bytes.ofString "for") 0).stop =
        (bestMatch ⟨[Shell.rule (.text "for") .kwFor, Shell.rule (.plus Shell.wordChar) .litChars],
          .eolTok⟩ (Bytes.ofString "for") 0).stop := by
  have hrules : [Shell.rule (.text "for") .kwFor, Shell.rule (.plus Shell.wordChar) .litChars].Perm
      [Shell.rule (.plus Shell.wordChar) .litChars, Shell.rule (.text "for") .kwFor] :=
    List.Perm.swap _ _ []
  exact ⟨hrules, (@bestMatch_perm ⟨_, .eolTok⟩ ⟨_, .eolTok⟩ hrules rfl _ 0).1⟩

example : bestMatch ⟨[Shell.rule (.text "for") .kwFor, Shell.rule (.plus Shell.wordChar) .litChars],
    .eolTok⟩ (Bytes.ofString "for") 0 = ⟨.kwFor, 3⟩ := by
  decide +kernel

example : bestMatch ⟨[Shell.rule (.plus Shell.wordChar) .litChars, Shell.rule (.text "for") .kwFor],
    .eolTok⟩ (Bytes.ofString "for") 0 = ⟨.litChars, 3⟩ := by
  decide +kernel

end Table

end ShellTokens
