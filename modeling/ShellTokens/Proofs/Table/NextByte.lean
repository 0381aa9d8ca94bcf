import Mathlib.Data.List.Find
import ShellTokens.Proofs.Grammar.BarrenRules
import ShellTokens.Proofs.Pattern.Derivative
import ShellTokens.Proofs.Table.LongestRule

/-!
# Matching byte by byte

When a byte is read, each rule of a table gives way to what is left of it, and the first rule that
is complete by then becomes the one to fall back on. The longest match of the table is the longest
match of what is left, one position on. Rules that can take no further byte are dropped, so that
after a few known bytes a table often has no rules at all, and its match is known.
-/

namespace ShellTokens

namespace Rule

variable {r : Rule} {input : Bytes} {i e : Nat} {b : UInt8}

/-- What is left of the rule behind the byte `b`. -/
def after (b : UInt8) (r : Rule) : Rule :=
  { pattern := r.pattern.after b, terminal := r.terminal }

/-- A match of some width is a match of what is left behind its first byte. -/
theorem mem_ends_after (hr : r.pattern.consistent = true) (hb : input[i]? = some b) :
    e ∈ (r.after b).pattern.ends input (i + 1) ↔ i < e ∧ e ∈ r.pattern.ends input i := by
  have hi : i < input.size := (Array.getElem?_eq_some_iff.1 hb).1
  rw [Pattern.mem_ends_iff (Nat.le_of_lt hi), Pattern.mem_ends_iff hi]
  constructor
  · rintro ⟨w, hw, hprefix, rfl⟩
    refine ⟨by omega, b :: w, (Pattern.mem_language_after hr).1 hw, ?_, by simp; omega⟩
    simpa [Bytes.drop_toList_of_getElem? hb] using hprefix
  · rintro ⟨hlt, w, hw, hprefix, rfl⟩
    rw [Bytes.drop_toList_of_getElem? hb] at hprefix
    cases w with
    | nil => simp at hlt
    | cons a w =>
      obtain ⟨rfl, hrest⟩ := List.cons_prefix_cons.1 hprefix
      exact ⟨w, (Pattern.mem_language_after hr).2 hw, hrest, by simp; omega⟩

/-- A rule that is complete behind the byte has matched it alone. -/
theorem nullable_after_iff (hr : r.pattern.consistent = true) (hb : input[i]? = some b) :
    (r.after b).pattern.nullable = true ↔ i + 1 ∈ r.pattern.ends input i := by
  have hi : i < input.size := (Array.getElem?_eq_some_iff.1 hb).1
  have hself : i + 1 ∈ (r.after b).pattern.ends input (i + 1) ↔
      [] ∈ (r.after b).pattern.language :=
    (Pattern.mem_ends_iff hi).trans Bytes.spells_self
  have hafter : (r.after b).pattern.consistent = true := Pattern.consistent_after hr
  rw [Pattern.nullable_iff hafter, ← hself, mem_ends_after hr hb]
  simp

theorem le_of_mem_ends_of_barren (h : r.barren = true) (he : e ∈ r.pattern.ends input i) :
    e ≤ i := by
  have hnone : r.pattern.longest input i = none := by
    rw [Option.eq_none_iff_forall_ne_some]
    exact fun j hj => not_consumes_of_barren h ⟨input, i, j, hj⟩
  exact Pattern.longest_eq_none_iff.1 hnone e he

end Rule

namespace Table

variable {t : Table} {input : Bytes} {i e : Nat} {b : UInt8} {found : Match}

/-- The rules that are left behind the byte `b`. -/
def after (b : UInt8) (t : Table) : Table where
  rules := (t.rules.map (Rule.after b)).filter fun r => !r.barren
  fallback :=
    ((t.rules.find? fun r => (r.after b).pattern.nullable).map Rule.terminal).getD t.fallback

/-- Whether some rule takes the byte `b` by itself. -/
def takes (b : UInt8) (t : Table) : Bool :=
  t.rules.any fun r => (r.after b).pattern.nullable

/-- No bounds of a repetition exclude each other. -/
def Consistent (t : Table) : Prop :=
  ∀ r ∈ t.rules, r.pattern.consistent = true

instance (t : Table) : Decidable t.Consistent :=
  inferInstanceAs (Decidable (∀ r ∈ t.rules, r.pattern.consistent = true))

theorem Consistent.after (ht : t.Consistent) (b : UInt8) : (t.after b).Consistent := by
  intro r hr
  obtain ⟨q, hq, rfl⟩ := List.mem_map.1 (List.mem_of_mem_filter hr)
  exact Pattern.consistent_after (ht q hq)

/-- A rule that gets beyond the byte is left behind it. -/
theorem after_mem_rules_after (ht : t.Consistent) (hb : input[i]? = some b) {r : Rule}
    (hr : r ∈ t.rules) (he : e ∈ r.pattern.ends input i) (hie : i + 1 < e) :
    r.after b ∈ (t.after b).rules ∧ e ∈ (r.after b).pattern.ends input (i + 1) := by
  have hafter := (Rule.mem_ends_after (ht r hr) hb).2 ⟨by omega, he⟩
  refine ⟨List.mem_filter.2 ⟨List.mem_map_of_mem hr, ?_⟩, hafter⟩
  rw [Bool.not_eq_true']
  by_contra hbarren
  have := Rule.le_of_mem_ends_of_barren (by simpa using hbarren) hafter
  omega

/-- No rule gets further than what is left of the rules does. -/
theorem le_of_forall_after (ht : t.Consistent) (hb : input[i]? = some b) (hie : i + 1 ≤ e)
    (hmax : ∀ r ∈ (t.after b).rules, ∀ j ∈ r.pattern.ends input (i + 1), j ≤ e) :
    ∀ r ∈ t.rules, ∀ j ∈ r.pattern.ends input i, j ≤ e := by
  intro r hr j hj
  by_contra hlt
  obtain ⟨hmem, hafter⟩ := after_mem_rules_after ht hb hr hj (by omega)
  exact hlt (hmax _ hmem j hafter)

theorem find?_rules_after (ht : t.Consistent) (hb : input[i]? = some b) (hie : i + 1 < e) :
    (t.after b).rules.find? (fun r => decide (e ∈ r.pattern.ends input (i + 1))) =
      (t.rules.find? fun r => decide (e ∈ r.pattern.ends input i)).map (Rule.after b) := by
  rw [after, List.find?_filter, List.find?_map]
  congr 1
  apply List.find?_congr
  intro r hr
  rw [Bool.eq_iff_iff]
  simp only [Function.comp_apply, Bool.not_eq_true', decide_eq_true_eq]
  constructor
  · rintro ⟨_, he⟩
    exact ((Rule.mem_ends_after (ht r hr) hb).1 he).2
  · intro he
    obtain ⟨hmem, hafter⟩ := after_mem_rules_after ht hb hr he hie
    exact ⟨by simpa using (List.mem_filter.1 hmem).2, hafter⟩

/-- A match of what is left that goes on behind the byte is one of the table. -/
theorem IsBest.of_after_of_lt (ht : t.Consistent) (hb : input[i]? = some b)
    (hlt : i + 1 < found.stop) (h : (t.after b).IsBest input (i + 1) found) :
    t.IsBest input i found := by
  cases h with
  | fallback _ => exact absurd hlt (Nat.lt_irrefl _)
  | @rule r e hie hfirst hmax =>
    rw [find?_rules_after ht hb hie] at hfirst
    obtain ⟨q, hq, rfl⟩ := Option.map_eq_some_iff.1 hfirst
    exact IsBest.rule (r := q) (by omega) hq (le_of_forall_after ht hb (Nat.le_of_lt hie) hmax)

theorem IsBest.of_after (ht : t.Consistent) (hb : input[i]? = some b) (htakes : t.takes b = true)
    (h : (t.after b).IsBest input (i + 1) found) : t.IsBest input i found := by
  cases h with
  | fallback hnone =>
    have hcomplete := List.find?_isSome.2 (List.any_eq_true.1 htakes)
    obtain ⟨r, hfirst⟩ := Option.isSome_iff_exists.1 hcomplete
    have hfallback : (t.after b).fallback = r.terminal := by simp [Table.after, hfirst]
    rw [hfallback]
    refine IsBest.rule (Nat.lt_succ_self i) ?_ (le_of_forall_after ht hb le_rfl hnone)
    rw [← hfirst]
    apply List.find?_congr
    intro q hq
    rw [Bool.eq_iff_iff, decide_eq_true_eq, Rule.nullable_after_iff (ht q hq) hb]
  | rule hie hfirst hmax => exact of_after_of_lt ht hb hie (.rule hie hfirst hmax)

/-- The longest match is that of the rules left behind its first byte. -/
theorem bestMatch_eq_after (ht : t.Consistent) (hb : input[i]? = some b)
    (htakes : t.takes b = true) :
    t.bestMatch input i = (t.after b).bestMatch input (i + 1) :=
  (t.isBest_bestMatch input i).unique
    (((t.after b).isBest_bestMatch input (i + 1)).of_after ht hb htakes)

theorem bestMatch_of_isEmpty (h : t.isEmpty = true) (input : Bytes) (i : Nat) :
    t.bestMatch input i = ⟨t.fallback, i⟩ := by
  rw [bestMatch, List.isEmpty_iff.1 h]
  rfl

/-! ### Matches that a few bytes decide -/

/-- Whether the bytes, one after the other, leave no rule that could take another, and what has been
found by then. -/
def decided? (t : Table) : List UInt8 → Option Terminal
  | [] => if t.isEmpty then some t.fallback else none
  | b :: bytes => if t.takes b then (t.after b).decided? bytes else none

/-- Where a match is decided by some bytes, they are the match. -/
theorem bestMatch_of_decided? (ht : t.Consistent) {bytes : List UInt8} {terminal : Terminal}
    (h : t.decided? bytes = some terminal) (hbytes : bytes <+: input.toList.drop i) :
    t.bestMatch input i = ⟨terminal, i + bytes.length⟩ := by
  induction bytes generalizing t i with
  | nil =>
    rw [decided?] at h
    split at h
    · next hempty =>
      rw [bestMatch_of_isEmpty hempty, Option.some.inj h]
      rfl
    · contradiction
  | cons b bytes ih =>
    have hb := Bytes.getElem?_of_cons_prefix hbytes
    rw [Bytes.drop_toList_of_getElem? hb, List.cons_prefix_cons] at hbytes
    rw [decided?] at h
    split at h
    · next htakes =>
      rw [bestMatch_eq_after ht hb htakes, ih (ht.after b) h hbytes.2, List.length_cons,
        Nat.add_assoc, Nat.add_comm 1]
    · contradiction

example : Shell.doubleQuoted.decided? [0x24, 0x7b] = some .leftDqVarSub := by decide +kernel

end Table

end ShellTokens
