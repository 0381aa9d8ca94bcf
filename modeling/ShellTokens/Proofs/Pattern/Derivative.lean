import ShellTokens.Proofs.Pattern.Alphabet
import ShellTokens.Proofs.Pattern.Exactness

/-!
# What is left of a pattern behind a byte

Once the first byte of a word is known, the rest of the word is described by another pattern, which
is found without a look at any input. So a question about the words that begin with given bytes is
one about the patterns left behind these bytes, and for fixed patterns it is answered by evaluation.
-/

namespace ShellTokens.Pattern

variable {p : Pattern} {parts : List Pattern} {w : List UInt8} {b : UInt8}

/-- The pattern without words. -/
def never : Pattern :=
  alt []

mutual

/-- The rests of the words that begin with the byte `b`. -/
def after (b : UInt8) : Pattern → Pattern
  | literal [] => never
  | literal (a :: bytes) => if a = b then literal bytes else never
  | oneOf set => if set.contains b then literal [] else never
  | run r => if r.set.contains b then runOf r.set (r.min - 1) else never
  | seq parts => alt ((afterSeq b parts).filter viable)
  | alt choices => alt (afterAlt b choices)
  | times _ _ (some 0) => never
  | times inner min max => seq [after b inner, times inner (min - 1) (max.map (· - 1))]

/-- A sequence for each part in which the byte can stand, all parts before it being empty. -/
def afterSeq (b : UInt8) : List Pattern → List Pattern
  | [] => []
  | p :: parts => seq (after b p :: parts) :: if p.nullable then afterSeq b parts else []

def afterAlt (b : UInt8) : List Pattern → List Pattern
  | [] => []
  | p :: choices => after b p :: afterAlt b choices

end

theorem afterAlt_eq_map (choices : List Pattern) : afterAlt b choices = choices.map (after b) := by
  induction choices with
  | nil => rfl
  | cons p choices ih => simp [afterAlt, ih]

theorem after_times {inner : Pattern} {min : Nat} {max : Option Nat} (h : max ≠ some 0) :
    (times inner min max).after b =
      seq [inner.after b, times inner (min - 1) (max.map (· - 1))] := by
  simp [after]

/-! ### Words that begin with a byte -/

@[simp] theorem not_mem_language_never : w ∉ never.language := by
  simp [never, language, languageAlt, Language.notMem_zero]

/-- A byte begins a word of a repetition if it begins one of the inner pattern; what is left is the
rest of that word and one repetition less. -/
theorem cons_mem_language_times {inner : Pattern} {min : Nat} {max : Option Nat}
    (h : max ≠ some 0) :
    b :: w ∈ (times inner min max).language ↔
      ∃ u v, u ++ v = w ∧ b :: u ∈ inner.language ∧
        v ∈ (times inner (min - 1) (max.map (· - 1))).language := by
  simp only [mem_language_times, cons_mem_pow_iff]
  constructor
  · rintro ⟨k, hmin, hmax, hk, u, v, rfl, hu, hv⟩
    refine ⟨u, v, rfl, hu, k - 1, Nat.sub_le_sub_right hmin 1, ?_, hv⟩
    intro m hm
    obtain ⟨n, hn, rfl⟩ := Option.map_eq_some_iff.1 hm
    exact Nat.sub_le_sub_right (hmax n hn) 1
  · rintro ⟨u, v, rfl, hu, k, hmin, hmax, hv⟩
    refine ⟨k + 1, by omega, ?_, Nat.succ_ne_zero k, u, v, rfl, hu, hv⟩
    intro m hm
    have hpos : m ≠ 0 := fun hzero => h (hzero ▸ hm)
    have := hmax (m - 1) (Option.map_eq_some_iff.2 ⟨m, hm, rfl⟩)
    omega

/-! ### The words that are left -/

theorem mem_languageAlt_filter_viable {choices : List Pattern} :
    w ∈ languageAlt (choices.filter viable) ↔ w ∈ languageAlt choices := by
  simp only [mem_languageAlt, List.mem_filter]
  constructor
  · rintro ⟨p, ⟨hp, _⟩, hw⟩
    exact ⟨p, hp, hw⟩
  · rintro ⟨p, hp, hw⟩
    exact ⟨p, ⟨hp, viable_of_mem_language hw⟩, hw⟩

theorem mem_languageAlt_afterSeq
    (h : ∀ p ∈ parts, ∀ w, w ∈ (p.after b).language ↔ b :: w ∈ p.language)
    (hnull : ∀ p ∈ parts, p.nullable = true ↔ [] ∈ p.language) :
    w ∈ languageAlt (afterSeq b parts) ↔ b :: w ∈ languageSeq parts := by
  induction parts with
  | nil => simp [afterSeq, languageAlt, languageSeq, Language.notMem_zero, Language.mem_one]
  | cons p parts ih =>
    obtain ⟨hp, h⟩ := List.forall_mem_cons.1 h
    obtain ⟨hpnull, hnull⟩ := List.forall_mem_cons.1 hnull
    have hfirst : w ∈ (seq (p.after b :: parts)).language ↔
        ∃ u v, u ++ v = w ∧ b :: u ∈ p.language ∧ v ∈ languageSeq parts := by
      rw [language, languageSeq, Language.mem_mul]
      constructor
      · rintro ⟨u, hu, v, hv, rfl⟩
        exact ⟨u, v, rfl, (hp u).1 hu, hv⟩
      · rintro ⟨u, v, rfl, hu, hv⟩
        exact ⟨u, (hp u).2 hu, v, hv, rfl⟩
    rw [afterSeq, languageAlt, Language.mem_add, hfirst, languageSeq, cons_mem_mul_iff, ← hpnull]
    by_cases hnil : p.nullable = true
    · simp [hnil, ih h hnull]
    · simp [hnil, languageAlt, Language.notMem_zero]

theorem mem_language_after (hp : p.consistent = true) :
    w ∈ (p.after b).language ↔ b :: w ∈ p.language := by
  induction p generalizing w with
  | literal bytes =>
    cases bytes with
    | nil => simp [after, mem_language_literal]
    | cons a bytes =>
      by_cases hab : a = b
      · simp [after, hab, mem_language_literal]
      · simp [after, hab, mem_language_literal, Ne.symm hab]
  | oneOf set =>
    by_cases hb : set.contains b
    · simp [after, hb, mem_language_literal, mem_language_oneOf]
    · simp [after, hb, mem_language_oneOf]
  | run r =>
    by_cases hb : r.set.contains b
    · simp [after, hb, runOf, mem_language_run]
    · simp [after, hb, mem_language_run]
  | seq parts ih =>
    rw [consistent_seq] at hp
    rw [after, language, language, mem_languageAlt_filter_viable]
    apply mem_languageAlt_afterSeq
    · exact fun p hmem w => ih p hmem (hp p hmem)
    · exact fun p hmem => nullable_iff (hp p hmem)
  | alt choices ih =>
    rw [consistent_alt] at hp
    rw [after, afterAlt_eq_map, language, language, mem_languageAlt, mem_languageAlt]
    simp only [List.mem_map, exists_exists_and_eq_and]
    exact exists_congr fun p => and_congr_right fun hmem => ih p hmem (hp p hmem)
  | times inner min max ih =>
    obtain ⟨_, hinner⟩ := consistent_times.1 hp
    by_cases hzero : max = some 0
    · subst hzero
      rw [mem_language_times]
      simp only [after, not_mem_language_never, false_iff]
      rintro ⟨k, _, hk, hw⟩
      exact (cons_mem_pow_iff.1 hw).1 (Nat.le_zero.1 (hk 0 rfl))
    · rw [after_times hzero, cons_mem_language_times hzero, language, languageSeq, languageSeq,
        languageSeq, mul_one, Language.mem_mul]
      constructor
      · rintro ⟨u, hu, v, hv, rfl⟩
        exact ⟨u, v, rfl, (ih hinner).1 hu, hv⟩
      · rintro ⟨u, v, rfl, hu, hv⟩
        exact ⟨u, (ih hinner).2 hu, v, hv, rfl⟩

/-! ### Bounds -/

theorem consistent_of_mem_afterSeq (hparts : ∀ p ∈ parts, p.consistent = true)
    (h : ∀ p ∈ parts, (p.after b).consistent = true) :
    ∀ q ∈ afterSeq b parts, q.consistent = true := by
  induction parts with
  | nil => simp [afterSeq]
  | cons p parts ih =>
    obtain ⟨_, hrest⟩ := List.forall_mem_cons.1 hparts
    obtain ⟨hp, h⟩ := List.forall_mem_cons.1 h
    have hseq : (seq (p.after b :: parts)).consistent = true :=
      consistent_seq.2 (List.forall_mem_cons.2 ⟨hp, hrest⟩)
    rw [afterSeq, List.forall_mem_cons]
    refine ⟨hseq, ?_⟩
    by_cases hnil : p.nullable = true
    · simpa [hnil] using ih hrest h
    · simp [hnil]

theorem consistent_after (hp : p.consistent = true) : (p.after b).consistent = true := by
  induction p with
  | literal bytes =>
    cases bytes with
    | nil => rfl
    | cons a bytes =>
      rw [after]
      split <;> rfl
  | oneOf set =>
    rw [after]
    split <;> rfl
  | run r =>
    rw [after]
    split <;> rfl
  | seq parts ih =>
    rw [consistent_seq] at hp
    rw [after, consistent_alt]
    intro q hq
    apply consistent_of_mem_afterSeq hp (fun p hmem => ih p hmem (hp p hmem))
    exact List.mem_of_mem_filter hq
  | alt choices ih =>
    rw [consistent_alt] at hp
    rw [after, afterAlt_eq_map, consistent_alt]
    simpa using fun p hmem => ih p hmem (hp p hmem)
  | times inner min max ih =>
    obtain ⟨hbounds, hinner⟩ := consistent_times.1 hp
    by_cases hzero : max = some 0
    · subst hzero
      rfl
    · have htimes : (times inner (min - 1) (max.map (· - 1))).consistent = true := by
        refine consistent_times.2 ⟨?_, hinner⟩
        intro m hm
        obtain ⟨n, hn, rfl⟩ := Option.map_eq_some_iff.1 hm
        exact Nat.sub_le_sub_right (hbounds n hn) 1
      rw [after_times hzero, consistent_seq]
      simp [ih hinner, htimes]

end ShellTokens.Pattern
