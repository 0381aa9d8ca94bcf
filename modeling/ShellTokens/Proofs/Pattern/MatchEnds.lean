import ShellTokens.ByteSet.Lemmas
import ShellTokens.Pattern.Ends
import ShellTokens.Proofs.Pattern.Language
import ShellTokens.Proofs.Pattern.Repetition
import ShellTokens.Proofs.Words

/-!
# Match ends and languages

The positions that a pattern computes are those up to which a word of its language stands in the
input. That each of them is such a position holds from any start, also beyond the end of the input;
that none is missing holds from every start within it.
-/

namespace ShellTokens

theorem ByteSet.contains_of_stops? {s : ByteSet} {stops : List UInt8} (h : s.stops? = some stops)
    (b : UInt8) : stops.contains b = !s.contains b := by
  dsimp only [stops?] at h
  split at h
  · cases h
    rw [Bool.eq_iff_iff, List.contains_iff_mem, mem_toList, contains_compl]
  · contradiction

/-- Looking for the few bytes outside the set finds the same end as testing each byte. -/
theorem ByteRun.length_eq (r : ByteRun) (input : Bytes) (i : Nat) :
    r.length input i = input.countWhile r.set.contains i := by
  unfold length
  split
  · next stops hstops =>
    congr 1
    funext b
    rw [ByteSet.contains_of_stops? (r.stops_eq ▸ hstops), Bool.not_not]
  · rfl

namespace Pattern

open Positions

variable {input : Bytes} {p : Pattern} {parts : List Pattern} {frontier : Positions} {i e : Nat}

/-! ### Ascending positions -/

theorem ascending_endsSeq (h : ∀ p ∈ parts, ∀ j, Ascending (p.ends input j))
    (hfrontier : Ascending frontier) : Ascending (endsSeq input parts frontier) := by
  induction parts generalizing frontier with
  | nil => exact hfrontier
  | cons p parts ih =>
    obtain ⟨hp, hparts⟩ := List.forall_mem_cons.1 h
    unfold endsSeq
    exact ih hparts (ascending_advance hp frontier)

theorem ascending_endsAlt (h : ∀ p ∈ parts, ∀ j, Ascending (p.ends input j)) :
    Ascending (endsAlt input parts i) := by
  induction parts with
  | nil => exact List.Pairwise.nil
  | cons p parts ih =>
    obtain ⟨hp, hparts⟩ := List.forall_mem_cons.1 h
    unfold endsAlt
    exact ascending_union (hp i) (ih hparts)

theorem ascending_ends (p : Pattern) (input : Bytes) (i : Nat) : Ascending (p.ends input i) := by
  induction p generalizing i with
  | literal bytes =>
    unfold ends
    split
    · exact List.pairwise_singleton _ _
    · exact List.Pairwise.nil
  | oneOf set =>
    unfold ends
    split
    · split
      · exact List.pairwise_singleton _ _
      · exact List.Pairwise.nil
    · exact List.Pairwise.nil
  | run r =>
    unfold ends
    dsimp only
    split
    · exact ascending_interval _ _
    · exact List.Pairwise.nil
  | seq parts ih =>
    unfold ends
    exact ascending_endsSeq ih (List.pairwise_singleton _ i)
  | alt choices ih =>
    unfold ends
    exact ascending_endsAlt ih
  | times inner min max ih =>
    unfold ends
    exact Sweep.ascending_reached_run ih min max input.size i

/-! ### Words of each kind of pattern -/

theorem mem_ends_literal {bytes : List UInt8} :
    e ∈ (literal bytes).ends input i ↔
      i ≤ input.size ∧ input.Spells (literal bytes).language i e := by
  rw [ends, language, Bytes.spells_word, ← and_assoc, ← Bytes.hasAt_iff]
  split
  · next h => simp [h]
  · next h => simp [h]

theorem mem_ends_oneOf {set : ByteSet} :
    e ∈ (oneOf set).ends input i ↔ input.Spells (oneOf set).language i e := by
  rw [ends, language, Bytes.spells_byte]
  split
  · next b hb =>
    split
    · next hset => simp [hb, hset]
    · next hset => simp [hb, hset]
  · next hb => simp [hb]

theorem mem_ends_run {r : ByteRun} :
    e ∈ (run r).ends input i ↔ input.Spells (run r).language i e := by
  rw [ends, language, Bytes.spells_run, ByteRun.length_eq]
  split
  · exact mem_interval
  · constructor
    · intro he
      exact absurd he List.not_mem_nil
    · intro he
      omega

theorem spells_times {inner : Pattern} {min : Nat} {max : Option Nat} :
    input.Spells (times inner min max).language i e ↔
      ∃ k, min ≤ k ∧ (∀ m ∈ max, k ≤ m) ∧ input.Spells (inner.language ^ k) i e := by
  constructor
  · intro h
    obtain ⟨w, hw, hprefix⟩ := h
    obtain ⟨k, hmin, hmax, hk⟩ := mem_language_times.1 hw
    exact ⟨k, hmin, hmax, w, hk, hprefix⟩
  · intro h
    obtain ⟨k, hmin, hmax, w, hk, hprefix⟩ := h
    exact ⟨w, mem_language_times.2 ⟨k, hmin, hmax, hk⟩, hprefix⟩

/-! ### Every position is the end of a word -/

theorem exists_spells_of_mem_endsSeq
    (h : ∀ p ∈ parts, ∀ j e, e ∈ p.ends input j → input.Spells p.language j e)
    (he : e ∈ endsSeq input parts frontier) :
    ∃ j ∈ frontier, input.Spells (languageSeq parts) j e := by
  induction parts generalizing frontier with
  | nil => exact ⟨e, he, Bytes.spells_one.2 rfl⟩
  | cons p parts ih =>
    obtain ⟨hp, hparts⟩ := List.forall_mem_cons.1 h
    unfold endsSeq at he
    obtain ⟨k, hk, hke⟩ := ih hparts he
    obtain ⟨j, hj, hjk⟩ := (mem_advance (ascending_ends p input)).1 hk
    refine ⟨j, hj, ?_⟩
    rw [languageSeq, Bytes.spells_mul]
    exact ⟨k, hp j k hjk, hke⟩

theorem spells_of_mem_endsAlt
    (h : ∀ p ∈ parts, ∀ j e, e ∈ p.ends input j → input.Spells p.language j e)
    (he : e ∈ endsAlt input parts i) : input.Spells (languageAlt parts) i e := by
  induction parts with
  | nil => exact absurd he List.not_mem_nil
  | cons p parts ih =>
    obtain ⟨hp, hparts⟩ := List.forall_mem_cons.1 h
    rw [endsAlt, mem_union (ascending_endsAlt fun q _ => ascending_ends q input)] at he
    rw [languageAlt, Bytes.spells_add]
    rcases he with he | he
    · exact Or.inl (hp i e he)
    · exact Or.inr (ih hparts he)

theorem spells_pow_of_mem_iterate
    (h : ∀ j e, e ∈ p.ends input j → input.Spells p.language j e) {k : Nat}
    (he : e ∈ (advance (p.ends input))^[k] [i]) : input.Spells (p.language ^ k) i e := by
  induction k generalizing e with
  | zero =>
    rw [pow_zero, Bytes.spells_one]
    exact List.mem_singleton.1 he
  | succ k ih =>
    rw [Function.iterate_succ_apply', mem_advance (ascending_ends p input)] at he
    obtain ⟨j, hj, he⟩ := he
    exact Bytes.spells_pow_succ.2 ⟨j, ih hj, h j e he⟩

theorem spells_of_mem_ends (he : e ∈ p.ends input i) : input.Spells p.language i e := by
  induction p generalizing i e with
  | literal bytes => exact (mem_ends_literal.1 he).2
  | oneOf set => exact mem_ends_oneOf.1 he
  | run r => exact mem_ends_run.1 he
  | seq parts ih =>
    rw [ends] at he
    obtain ⟨j, hj, hje⟩ := exists_spells_of_mem_endsSeq (fun p hp _ _ => ih p hp) he
    obtain rfl := List.mem_singleton.1 hj
    rw [language]
    exact hje
  | alt choices ih =>
    rw [ends] at he
    rw [language]
    exact spells_of_mem_endsAlt (fun p hp _ _ => ih p hp) he
  | times inner min max ih =>
    rw [ends] at he
    rw [spells_times]
    obtain ⟨k, hmin, hmax, he⟩ := Sweep.exists_of_mem_reached_run (ascending_ends inner input) he
    exact ⟨k, hmin, hmax, spells_pow_of_mem_iterate (fun _ _ => ih) he⟩

/-- The input is a range that matches do not leave. -/
theorem bounds_of_mem_ends (p : Pattern) (input : Bytes) :
    ∀ j ≤ input.size, ∀ e ∈ p.ends input j, j ≤ e ∧ e ≤ input.size := by
  intro j hj e he
  have hspells := spells_of_mem_ends he
  exact ⟨hspells.le, hspells.le_size hj⟩

/-! ### Every word within the input is found -/

theorem mem_endsSeq_of_spells
    (h : ∀ p ∈ parts, ∀ j ≤ input.size, ∀ e, input.Spells p.language j e → e ∈ p.ends input j)
    {j : Nat} (hj : j ∈ frontier) (hsize : j ≤ input.size)
    (he : input.Spells (languageSeq parts) j e) : e ∈ endsSeq input parts frontier := by
  induction parts generalizing frontier j with
  | nil =>
    obtain rfl := Bytes.spells_one.1 he
    exact hj
  | cons p parts ih =>
    obtain ⟨hp, hparts⟩ := List.forall_mem_cons.1 h
    rw [languageSeq, Bytes.spells_mul] at he
    obtain ⟨k, hjk, hke⟩ := he
    unfold endsSeq
    apply ih hparts ?_ (hjk.le_size hsize) hke
    exact (mem_advance (ascending_ends p input)).2 ⟨j, hj, hp j hsize k hjk⟩

theorem mem_endsAlt_of_spells
    (h : ∀ p ∈ parts, input.Spells p.language i e → e ∈ p.ends input i)
    (he : input.Spells (languageAlt parts) i e) : e ∈ endsAlt input parts i := by
  induction parts with
  | nil => exact absurd he Bytes.not_spells_zero
  | cons p parts ih =>
    obtain ⟨hp, hparts⟩ := List.forall_mem_cons.1 h
    rw [languageAlt, Bytes.spells_add] at he
    rw [endsAlt, mem_union (ascending_endsAlt fun q _ => ascending_ends q input)]
    rcases he with he | he
    · exact Or.inl (hp he)
    · exact Or.inr (ih hparts he)

theorem mem_iterate_of_spells_pow
    (h : ∀ j ≤ input.size, ∀ e, input.Spells p.language j e → e ∈ p.ends input j)
    (hi : i ≤ input.size) {k : Nat} (he : input.Spells (p.language ^ k) i e) :
    e ∈ (advance (p.ends input))^[k] [i] := by
  induction k generalizing e with
  | zero =>
    rw [pow_zero, Bytes.spells_one] at he
    exact List.mem_singleton.2 he
  | succ k ih =>
    obtain ⟨j, hij, hje⟩ := Bytes.spells_pow_succ.1 he
    rw [Function.iterate_succ_apply', mem_advance (ascending_ends p input)]
    exact ⟨j, ih hij, h j (hij.le_size hi) e hje⟩

theorem mem_ends_of_spells (hi : i ≤ input.size) (he : input.Spells p.language i e) :
    e ∈ p.ends input i := by
  induction p generalizing i e with
  | literal bytes => exact mem_ends_literal.2 ⟨hi, he⟩
  | oneOf set => exact mem_ends_oneOf.2 he
  | run r => exact mem_ends_run.2 he
  | seq parts ih =>
    rw [language] at he
    rw [ends]
    exact mem_endsSeq_of_spells (fun p hp _ hj _ => ih p hp hj) List.mem_cons_self hi he
  | alt choices ih =>
    rw [language] at he
    rw [ends]
    exact mem_endsAlt_of_spells (fun p hp => ih p hp hi) he
  | times inner min max ih =>
    rw [spells_times] at he
    obtain ⟨k, hmin, hmax, he⟩ := he
    have hk := mem_iterate_of_spells_pow (fun _ hj _ => ih hj) hi he
    have hrange := bounds_of_mem_ends inner input
    rw [ends]
    cases max with
    | none =>
      exact (Sweep.mem_reached_run_none (ascending_ends inner input) hrange hi).2 ⟨k, hmin, hk⟩
    | some m =>
      exact (Sweep.mem_reached_run_some (ascending_ends inner input)).2 ⟨k, hmin, hmax m rfl, hk⟩

theorem mem_ends_iff (hi : i ≤ input.size) :
    e ∈ p.ends input i ↔ input.Spells p.language i e :=
  ⟨spells_of_mem_ends, mem_ends_of_spells hi⟩

/-- From a position of the input, a pattern computes in ascending order the positions up to which
the bytes make a word of its language, and no others. -/
theorem ends_exact (p : Pattern) (input : Bytes) {i : Nat} (hi : i ≤ input.size) :
    Ascending (p.ends input i) ∧
      ∀ e, e ∈ p.ends input i ↔
        i ≤ e ∧ e ≤ input.size ∧ (input.extract i e).toList ∈ p.language := by
  refine ⟨ascending_ends p input i, ?_⟩
  intro e
  rw [mem_ends_iff hi, Bytes.spells_iff_extract hi]

/-- Digits before a `<`, any number of times, in `1<23<`: each round gives back no digit. -/
theorem ends_exact_redirections :
    0 ≤ (Bytes.ofString "1<23<").size ∧
      Ascending ((times (concat [star .digit, text "<"]) 0 none).ends (Bytes.ofString "1<23<") 0) ∧
        ∀ e, e ∈ (times (concat [star .digit, text "<"]) 0 none).ends (Bytes.ofString "1<23<") 0 ↔
          0 ≤ e ∧ e ≤ (Bytes.ofString "1<23<").size ∧
            ((Bytes.ofString "1<23<").extract 0 e).toList ∈
              (times (concat [star .digit, text "<"]) 0 none).language :=
  ⟨Nat.zero_le _, ends_exact _ _ (Nat.zero_le _)⟩

example : (times (concat [star .digit, text "<"]) 0 none).ends (Bytes.ofString "1<23<") 0 =
    [0, 2, 5] := by
  decide +kernel

end Pattern

end ShellTokens
