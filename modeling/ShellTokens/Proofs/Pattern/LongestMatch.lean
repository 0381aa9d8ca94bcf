import ShellTokens.Proofs.Pattern.FirstBytes
import ShellTokens.Proofs.Pattern.MatchEnds
import ShellTokens.Table

/-!
# Longest matches

There are three ways to ask for the longest match: the greatest of all match ends, the answer of the
pattern, which takes literals, classes and runs by themselves, and the answer of a rule, which looks
at the next byte first. They agree from every position, within the input and beyond it.
-/

namespace ShellTokens

theorem Positions.filter_lt_eq_nil_iff {l : Positions} {i : Nat} :
    l.filter (i < ·) = [] ↔ ∀ j ∈ l, j ≤ i := by
  simp [List.filter_eq_nil_iff]

/-- The last position of an ascending list, if it lies behind `i`, is the greatest that does. -/
theorem Positions.getLast?_filter_lt {l : Positions} (h : Ascending l) (i : Nat) :
    l.getLast?.filter (i < ·) = (l.filter (i < ·)).max? := by
  obtain rfl | ⟨l, z, rfl⟩ := List.eq_nil_or_concat l
  · rfl
  · rw [List.concat_eq_append] at h ⊢
    have hz : ∀ j ∈ l, j < z := fun j hj =>
      (List.pairwise_append.1 h).2.2 j hj z List.mem_cons_self
    rw [List.getLast?_concat]
    by_cases hiz : i < z
    · have hmax : ((l ++ [z]).filter (i < ·)).max? = some z := by
        rw [List.max?_eq_some_iff]
        refine ⟨by simp [hiz], ?_⟩
        intro j hj
        rcases List.mem_append.1 (List.mem_of_mem_filter hj) with hj | hj
        · exact Nat.le_of_lt (hz j hj)
        · exact Nat.le_of_eq (List.mem_singleton.1 hj)
      rw [hmax]
      simp [hiz]
    · have hnone : (l ++ [z]).filter (i < ·) = [] := by
        rw [filter_lt_eq_nil_iff]
        intro j hj
        rcases List.mem_append.1 hj with hj | hj
        · have := hz j hj
          omega
        · rw [List.mem_singleton.1 hj]
          exact Nat.not_lt.1 hiz
      rw [hnone]
      simpa using hiz

namespace Pattern

open Positions

variable {p : Pattern} {input : Bytes} {i e : Nat}

/-! ### The longest match of a pattern -/

theorem longest_literal (bytes : List UInt8) :
    (literal bytes).longest input i = (((literal bytes).ends input i).filter (i < ·)).max? := by
  rw [longest, ends]
  cases bytes with
  | nil => by_cases h : input.hasAt [] i <;> simp [h]
  | cons b bytes => by_cases h : input.hasAt (b :: bytes) i <;> simp [h]

theorem longest_oneOf (set : ByteSet) :
    (oneOf set).longest input i = (((oneOf set).ends input i).filter (i < ·)).max? := by
  rw [longest, ends]
  cases input[i]? with
  | none => rfl
  | some b => by_cases h : set.contains b <;> simp [h]

theorem longest_run (r : ByteRun) :
    (run r).longest input i = (((run r).ends input i).filter (i < ·)).max? := by
  rw [longest, ends]
  by_cases hmin : r.min ≤ r.length input i
  · rw [if_pos hmin]
    by_cases hpos : 0 < r.length input i
    · rw [if_pos ⟨hpos, hmin⟩, eq_comm, List.max?_eq_some_iff]
      simp only [List.mem_filter, mem_interval, decide_eq_true_eq]
      refine ⟨⟨⟨?_, ?_⟩, ?_⟩, ?_⟩
      · omega
      · omega
      · omega
      · intro j hj
        exact hj.1.2
    · have hnone : (interval (i + r.min) (i + r.length input i)).filter (i < ·) = [] := by
        rw [filter_lt_eq_nil_iff]
        intro j hj
        have := mem_interval.1 hj
        omega
      rw [if_neg fun h => hpos h.1, hnone]
      rfl
  · rw [if_neg hmin, if_neg fun h => hmin h.2]
    rfl

theorem longest_eq_max? (p : Pattern) (input : Bytes) (i : Nat) :
    p.longest input i = ((p.ends input i).filter (i < ·)).max? := by
  cases p with
  | literal bytes => exact longest_literal bytes
  | oneOf set => exact longest_oneOf set
  | run r => exact longest_run r
  | seq parts => exact getLast?_filter_lt (ascending_ends _ input i) i
  | alt choices => exact getLast?_filter_lt (ascending_ends _ input i) i
  | times inner min max => exact getLast?_filter_lt (ascending_ends _ input i) i

theorem longest_eq_some_iff :
    p.longest input i = some e ↔
      e ∈ p.ends input i ∧ i < e ∧ ∀ j ∈ p.ends input i, j ≤ e := by
  rw [longest_eq_max?, List.max?_eq_some_iff]
  simp only [List.mem_filter, decide_eq_true_eq, and_imp, and_assoc]
  constructor
  · intro h
    obtain ⟨he, hie, hmax⟩ := h
    refine ⟨he, hie, ?_⟩
    intro j hj
    by_cases hij : i < j
    · exact hmax j hj hij
    · omega
  · intro h
    obtain ⟨he, hie, hmax⟩ := h
    exact ⟨he, hie, fun j hj _ => hmax j hj⟩

theorem longest_eq_none_iff :
    p.longest input i = none ↔ ∀ j ∈ p.ends input i, j ≤ i := by
  rw [longest_eq_max?, List.max?_eq_none_iff, filter_lt_eq_nil_iff]

/-- A match of some width begins with one of the first bytes. -/
theorem exists_firstByte_of_mem_ends (he : e ∈ p.ends input i) (hie : i < e) :
    ∃ b, input[i]? = some b ∧ p.firstBytes.contains b = true := by
  obtain ⟨b, w, hb, hw⟩ := (spells_of_mem_ends he).exists_cons hie
  exact ⟨b, hb, contains_firstBytes_of_cons_mem hw⟩

end Pattern

/-! ### The longest match of a rule -/

variable {input : Bytes} {i e : Nat}

/-- The look at the next byte hides no match. -/
theorem Rule.longest_eq (r : Rule) (input : Bytes) (i : Nat) :
    r.longest input i = r.pattern.longest input i := by
  have hfirst : ∀ e ∈ r.pattern.ends input i, i < e →
      ∃ b, input[i]? = some b ∧ r.first.contains b = true := by
    intro e he hie
    rw [r.first_eq]
    exact Pattern.exists_firstByte_of_mem_ends he hie
  cases hlongest : r.pattern.longest input i with
  | none =>
    rw [longest]
    split
    · rw [hlongest, ite_self]
    · rfl
  | some e =>
    obtain ⟨he, hie, _⟩ := Pattern.longest_eq_some_iff.1 hlongest
    obtain ⟨b, hb, hcontains⟩ := hfirst e he hie
    simp only [longest, hb, hcontains, if_true, hlongest]

end ShellTokens
