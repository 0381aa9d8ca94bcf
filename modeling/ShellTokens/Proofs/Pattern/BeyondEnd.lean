import ShellTokens.Proofs.Pattern.LongestMatch

/-!
# Matching from beyond the end

Behind the end of the input there is nothing to match. A literal, even an empty one, and a class look
at the input there and find no end of a match. Patterns that match the empty word without a look at
the input stay where they are: a run or a repetition of which nothing is required, and a sequence
without parts. What a pattern does beyond the end can therefore be told from its structure, and it
never moves on.
-/

namespace ShellTokens

open Positions

/-! ### Repetition of a step that does not move -/

namespace Sweep

variable {step : Nat → Positions} {min size i e k : Nat} {max : Option Nat}

theorem mem_advance_iterate_of_stays (hstep : ∀ j, Ascending (step j)) (h : ∀ e ∈ step i, e = i) :
    e ∈ (advance step)^[k] [i] ↔ e = i ∧ (k = 0 ∨ i ∈ step i) := by
  induction k generalizing e with
  | zero => simp
  | succ k ih =>
    rw [Function.iterate_succ_apply', mem_advance hstep]
    simp only [ih]
    constructor
    · rintro ⟨j, ⟨rfl, _⟩, he⟩
      obtain rfl := h e he
      exact ⟨rfl, Or.inr he⟩
    · rintro ⟨rfl, hself⟩
      have hself := hself.resolve_left (Nat.succ_ne_zero k)
      exact ⟨e, ⟨rfl, Or.inr hself⟩, hself⟩

/-- A repetition of a step that does not move stays as well, if it can take its least number of
steps and no more are required than allowed. -/
theorem mem_reached_run_of_stays (hstep : ∀ j, Ascending (step j)) (h : ∀ e ∈ step i, e = i) :
    e ∈ (run step min max size i).reached ↔
      e = i ∧ (min = 0 ∨ i ∈ step i) ∧ ∀ m ∈ max, min ≤ m := by
  constructor
  · intro he
    obtain ⟨k, hmin, hmax, he⟩ := exists_of_mem_reached_run hstep he
    obtain ⟨rfl, hk⟩ := (mem_advance_iterate_of_stays hstep h).1 he
    refine ⟨rfl, ?_, fun m hm => hmin.trans (hmax m hm)⟩
    rcases hk with rfl | hself
    · exact Or.inl (Nat.le_zero.1 hmin)
    · exact Or.inr hself
  · rintro ⟨rfl, hself, hmax⟩
    have hmem : e ∈ (advance step)^[min] [e] :=
      (mem_advance_iterate_of_stays hstep h).2 ⟨rfl, hself⟩
    cases max with
    | none => exact advance_iterate_subset_reached_run_none hstep min size e hmem
    | some m => exact (mem_reached_run_some hstep).2 ⟨min, Nat.le_refl min, hmax m rfl, hmem⟩

end Sweep

theorem ByteRun.length_of_size_le {input : Bytes} {i : Nat} (r : ByteRun) (hi : input.size ≤ i) :
    r.length input i = 0 := by
  rw [r.length_eq, Bytes.countWhile_eq, List.drop_eq_nil_of_le (by simpa using hi)]
  rfl

namespace Pattern

/-! ### Patterns that stay -/

mutual

/-- Whether the pattern can match the empty word without a look at the input. -/
def stays : Pattern → Bool
  | literal _ => false
  | oneOf _ => false
  | run r => r.min == 0
  | seq parts => staysAll parts
  | alt choices => staysAny choices
  | times inner min max => (min == 0 || stays inner) && max.all (min ≤ ·)

def staysAll : List Pattern → Bool
  | [] => true
  | p :: parts => stays p && staysAll parts

def staysAny : List Pattern → Bool
  | [] => false
  | p :: choices => stays p || staysAny choices

end

theorem stays_times {inner : Pattern} {min : Nat} {max : Option Nat} :
    (times inner min max).stays = true ↔
      (min = 0 ∨ inner.stays = true) ∧ ∀ m ∈ max, min ≤ m := by
  cases max <;> simp [stays]

/-! ### Match ends beyond the end -/

variable {p : Pattern} {parts : List Pattern} {input : Bytes} {i e : Nat}

theorem endsSeq_nil (input : Bytes) (parts : List Pattern) : endsSeq input parts [] = [] := by
  induction parts with
  | nil => rfl
  | cons p parts ih => exact ih

theorem endsSeq_of_size_lt
    (h : ∀ p ∈ parts, p.ends input i = if p.stays then [i] else []) :
    endsSeq input parts [i] = if staysAll parts then [i] else [] := by
  induction parts with
  | nil => rfl
  | cons p parts ih =>
    obtain ⟨hp, hparts⟩ := List.forall_mem_cons.1 h
    have hadvance : advance (p.ends input) [i] = p.ends input i := union_nil _
    rw [endsSeq, hadvance, hp, staysAll]
    cases p.stays with
    | true => exact ih hparts
    | false => exact endsSeq_nil input parts

theorem endsAlt_of_size_lt
    (h : ∀ p ∈ parts, p.ends input i = if p.stays then [i] else []) :
    endsAlt input parts i = if staysAny parts then [i] else [] := by
  induction parts with
  | nil => rfl
  | cons p parts ih =>
    obtain ⟨hp, hparts⟩ := List.forall_mem_cons.1 h
    rw [endsAlt, hp, ih hparts, staysAny]
    cases p.stays with
    | true => cases staysAny parts <;> simp [union]
    | false => rfl

theorem ends_of_size_lt (hi : input.size < i) :
    p.ends input i = if p.stays then [i] else [] := by
  induction p with
  | literal bytes =>
    have hnone : ¬ input.hasAt bytes i := by
      rw [Bytes.hasAt_iff]
      omega
    rw [ends, if_neg hnone, stays]
    rfl
  | oneOf set =>
    have hnone : input[i]? = none := Array.getElem?_eq_none (Nat.le_of_lt hi)
    rw [ends, hnone, stays]
    rfl
  | run r =>
    rw [ends, r.length_of_size_le (Nat.le_of_lt hi), stays]
    by_cases hmin : r.min = 0
    · simp [hmin, interval]
    · simp [hmin]
  | seq parts ih =>
    rw [ends, stays]
    exact endsSeq_of_size_lt ih
  | alt choices ih =>
    rw [ends, stays]
    exact endsAlt_of_size_lt ih
  | times inner min max ih =>
    have hstays : ∀ e ∈ inner.ends input i, e = i := by
      rw [ih]
      cases inner.stays <;> simp
    have hinner : i ∈ inner.ends input i ↔ inner.stays = true := by
      rw [ih]
      cases inner.stays <;> simp
    apply List.Pairwise.eq_of_mem_iff (ascending_ends _ input i)
    · split
      · exact List.pairwise_singleton _ i
      · exact List.Pairwise.nil
    · intro e
      rw [ends, Sweep.mem_reached_run_of_stays (ascending_ends inner input) hstays, hinner,
        ← stays_times]
      cases (times inner min max).stays <;> simp

/-- Beyond the end no pattern has a longest match, and the only place where a match can end is its
start: it does so for the patterns that need no look at the input. -/
theorem ends_beyond_end (p : Pattern) (input : Bytes) {i : Nat} (hi : input.size < i) :
    p.longest input i = none ∧ p.ends input i = if p.stays then [i] else [] := by
  have hends := ends_of_size_lt (p := p) hi
  refine ⟨?_, hends⟩
  rw [longest_eq_none_iff, hends]
  cases p.stays <;> simp

/-- Any number of digits from beyond the end of `12`. -/
theorem ends_beyond_end_digits :
    (Bytes.ofString "12").size < 5 ∧
      (star .digit).longest (Bytes.ofString "12") 5 = none ∧
      (star .digit).ends (Bytes.ofString "12") 5 = if (star .digit).stays then [5] else [] := by
  have hi : (Bytes.ofString "12").size < 5 := by decide
  exact ⟨hi, ends_beyond_end (star .digit) (Bytes.ofString "12") hi⟩

/-- Two patterns that match the empty word differ beyond the end: no digits are found there, but not
the empty literal. -/
theorem ends_star_beyond_end :
    (Bytes.ofString "12").size < 5 ∧ (star .digit).ends (Bytes.ofString "12") 5 = [5] ∧
      (literal []).ends (Bytes.ofString "12") 5 = [] := by
  decide +kernel

end Pattern

end ShellTokens
