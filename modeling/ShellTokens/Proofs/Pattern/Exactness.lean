import ShellTokens.Proofs.Pattern.FirstBytes
import ShellTokens.Proofs.Pattern.LongestMatch

/-!
# Exact looks at a pattern

A repetition whose least number exceeds its greatest has no words, but a look at the pattern does
not compare the two bounds. Where they are consistent throughout a pattern, the look is exact: a
viable pattern has a word, a nullable one has the empty word, and each of the first bytes begins a
word. Then the first bytes are empty only if the pattern never takes a byte from any input.
-/

namespace ShellTokens.Pattern

variable {L : Language UInt8} {p : Pattern} {parts : List Pattern} {w : List UInt8} {b : UInt8}

mutual

/-- Whether no repetition has a least number greater than its greatest. -/
def consistent : Pattern → Bool
  | seq parts => consistentAll parts
  | alt choices => consistentAll choices
  | times inner min max => max.all (min ≤ ·) && inner.consistent
  | _ => true

def consistentAll : List Pattern → Bool
  | [] => true
  | p :: parts => p.consistent && consistentAll parts

end

theorem consistentAll_iff : consistentAll parts = true ↔ ∀ p ∈ parts, p.consistent = true := by
  induction parts with
  | nil => simp [consistentAll]
  | cons p parts ih => simp [consistentAll, ih]

theorem consistent_seq : (seq parts).consistent = true ↔ ∀ p ∈ parts, p.consistent = true := by
  rw [consistent, consistentAll_iff]

theorem consistent_alt : (alt parts).consistent = true ↔ ∀ p ∈ parts, p.consistent = true := by
  rw [consistent, consistentAll_iff]

theorem consistent_times {inner : Pattern} {min : Nat} {max : Option Nat} :
    (times inner min max).consistent = true ↔ (∀ m ∈ max, min ≤ m) ∧ inner.consistent = true := by
  rw [consistent, Bool.and_eq_true, Option.all_eq_true]
  simp

/-! ### Words of powers and products -/

theorem exists_mem_pow (h : ∃ u, u ∈ L) (k : Nat) : ∃ w, w ∈ L ^ k := by
  obtain ⟨u, hu⟩ := h
  induction k with
  | zero => exact ⟨[], Language.nil_mem_one⟩
  | succ k ih =>
    obtain ⟨v, hv⟩ := ih
    rw [pow_succ']
    exact ⟨u ++ v, Language.append_mem_mul hu hv⟩

theorem nil_mem_pow (h : [] ∈ L) (k : Nat) : [] ∈ L ^ k := by
  induction k with
  | zero => exact Language.nil_mem_one
  | succ k ih =>
    rw [pow_succ', nil_mem_mul]
    exact ⟨h, ih⟩

/-- The words of a power begin as those of the language do. -/
theorem exists_cons_mem_pow (hw : b :: w ∈ L) {k : Nat} (hk : k ≠ 0) : ∃ v, b :: v ∈ L ^ k := by
  obtain ⟨k, rfl⟩ := Nat.exists_eq_succ_of_ne_zero hk
  obtain ⟨v, hv⟩ := exists_mem_pow ⟨b :: w, hw⟩ k
  rw [Nat.succ_eq_add_one, pow_succ']
  exact ⟨w ++ v, Language.append_mem_mul hw hv⟩

theorem exists_mem_languageSeq (h : ∀ p ∈ parts, ∃ u, u ∈ p.language) :
    ∃ w, w ∈ languageSeq parts := by
  induction parts with
  | nil => exact ⟨[], Language.nil_mem_one⟩
  | cons p parts ih =>
    obtain ⟨⟨u, hu⟩, hparts⟩ := List.forall_mem_cons.1 h
    obtain ⟨v, hv⟩ := ih hparts
    rw [languageSeq]
    exact ⟨u ++ v, Language.append_mem_mul hu hv⟩

/-! ### Viable and nullable patterns -/

theorem exists_contains_of_not_isEmpty {set : ByteSet} (h : set.isEmpty = false) :
    ∃ b, set.contains b = true := by
  by_contra hnone
  have hempty : set.isEmpty = true :=
    ByteSet.isEmpty_iff.2 fun b => Bool.eq_false_iff.2 fun hb => hnone ⟨b, hb⟩
  rw [h] at hempty
  contradiction

theorem viable_iff (hp : p.consistent = true) : p.viable = true ↔ ∃ w, w ∈ p.language := by
  refine ⟨?_, fun ⟨w, hw⟩ => viable_of_mem_language hw⟩
  intro hviable
  induction p with
  | literal bytes => exact ⟨bytes, rfl⟩
  | oneOf set =>
    rw [viable, Bool.not_eq_true'] at hviable
    obtain ⟨b, hb⟩ := exists_contains_of_not_isEmpty hviable
    exact ⟨[b], b, hb, rfl⟩
  | run r =>
    rw [viable, Bool.or_eq_true, beq_iff_eq, Bool.not_eq_true'] at hviable
    rcases hviable with hzero | hset
    · exact ⟨[], Nat.le_of_eq hzero, by simp⟩
    · obtain ⟨b, hb⟩ := exists_contains_of_not_isEmpty hset
      refine ⟨List.replicate r.min b, by simp, ?_⟩
      intro a ha
      rwa [List.eq_of_mem_replicate ha]
  | seq parts ih =>
    rw [consistent_seq] at hp
    rw [viable, viableAll_eq_all, List.all_eq_true] at hviable
    rw [language]
    exact exists_mem_languageSeq fun p hmem => ih p hmem (hp p hmem) (hviable p hmem)
  | alt choices ih =>
    rw [consistent_alt] at hp
    rw [viable, viableAny_eq_any, List.any_eq_true] at hviable
    obtain ⟨p, hmem, hviable⟩ := hviable
    obtain ⟨w, hw⟩ := ih p hmem (hp p hmem) hviable
    rw [language]
    exact ⟨w, mem_languageAlt.2 ⟨p, hmem, hw⟩⟩
  | times inner min max ih =>
    obtain ⟨hbounds, hinner⟩ := consistent_times.1 hp
    rw [viable, Bool.or_eq_true, beq_iff_eq] at hviable
    have hpow : ∃ w, w ∈ inner.language ^ min := by
      rcases hviable with hzero | hviable
      · rw [hzero]
        exact ⟨[], Language.nil_mem_one⟩
      · exact exists_mem_pow (ih hinner hviable) min
    obtain ⟨w, hw⟩ := hpow
    exact ⟨w, mem_language_times.2 ⟨min, le_rfl, hbounds, hw⟩⟩

theorem nullable_iff (hp : p.consistent = true) : p.nullable = true ↔ [] ∈ p.language := by
  refine ⟨?_, nullable_of_nil_mem_language⟩
  intro hnullable
  induction p with
  | literal bytes =>
    rw [nullable, List.isEmpty_iff] at hnullable
    exact hnullable.symm
  | oneOf set =>
    rw [nullable] at hnullable
    contradiction
  | run r =>
    rw [nullable, beq_iff_eq] at hnullable
    exact ⟨Nat.le_of_eq hnullable, by simp⟩
  | seq parts ih =>
    rw [consistent_seq] at hp
    rw [nullable, nullableAll_eq_all, List.all_eq_true] at hnullable
    rw [language, nil_mem_languageSeq]
    exact fun p hmem => ih p hmem (hp p hmem) (hnullable p hmem)
  | alt choices ih =>
    rw [consistent_alt] at hp
    rw [nullable, nullableAny_eq_any, List.any_eq_true] at hnullable
    obtain ⟨p, hmem, hnullable⟩ := hnullable
    rw [language, mem_languageAlt]
    exact ⟨p, hmem, ih p hmem (hp p hmem) hnullable⟩
  | times inner min max ih =>
    obtain ⟨hbounds, hinner⟩ := consistent_times.1 hp
    rw [nullable, Bool.or_eq_true, beq_iff_eq] at hnullable
    refine mem_language_times.2 ⟨min, le_rfl, hbounds, ?_⟩
    rcases hnullable with hzero | hnullable
    · rw [hzero]
      exact Language.nil_mem_one
    · exact nil_mem_pow (ih hinner hnullable) min

/-! ### First bytes -/

theorem viable_of_contains_firstBytes (h : p.firstBytes.contains b = true) : p.viable = true := by
  by_contra hviable
  rw [firstBytes.eq_def, if_neg hviable] at h
  simp at h

theorem exists_cons_mem_languageSeq
    (hfirst : ∀ p ∈ parts, p.firstBytes.contains b = true → ∃ w, b :: w ∈ p.language)
    (hnullable : ∀ p ∈ parts, p.nullable = true → [] ∈ p.language)
    (hviable : ∀ p ∈ parts, ∃ u, u ∈ p.language)
    (h : (firstBytesSeq parts).contains b = true) : ∃ w, b :: w ∈ languageSeq parts := by
  induction parts with
  | nil => simp [firstBytesSeq] at h
  | cons p parts ih =>
    obtain ⟨hp, hfirst⟩ := List.forall_mem_cons.1 hfirst
    obtain ⟨hnil, hnullable⟩ := List.forall_mem_cons.1 hnullable
    rw [contains_firstBytesSeq_cons, Bool.or_eq_true, Bool.and_eq_true] at h
    rw [languageSeq]
    rcases h with hb | ⟨hpnull, hb⟩
    · obtain ⟨u, hu⟩ := hp hb
      obtain ⟨v, hv⟩ := exists_mem_languageSeq (List.forall_mem_cons.1 hviable).2
      exact ⟨u ++ v, Language.append_mem_mul hu hv⟩
    · obtain ⟨v, hv⟩ := ih hfirst hnullable (List.forall_mem_cons.1 hviable).2 hb
      exact ⟨v, Language.append_mem_mul (hnil hpnull) hv⟩

theorem contains_firstBytes_iff (hp : p.consistent = true) :
    p.firstBytes.contains b = true ↔ ∃ w, b :: w ∈ p.language := by
  refine ⟨?_, fun ⟨w, hw⟩ => contains_firstBytes_of_cons_mem hw⟩
  intro h
  have hviable := viable_of_contains_firstBytes h
  induction p with
  | literal bytes =>
    cases bytes with
    | nil =>
      rw [firstBytes, if_pos hviable] at h
      simp at h
    | cons a bytes =>
      rw [firstBytes, if_pos hviable] at h
      obtain rfl : b = a := by simpa using h
      exact ⟨bytes, rfl⟩
  | oneOf set =>
    rw [firstBytes, if_pos hviable] at h
    exact ⟨[], b, h, rfl⟩
  | run r =>
    rw [firstBytes, if_pos hviable] at h
    refine ⟨List.replicate r.min b, by simp, ?_⟩
    intro a ha
    rwa [List.eq_of_mem_replicate (n := r.min + 1) ha]
  | seq parts ih =>
    rw [firstBytes, if_pos hviable] at h
    rw [consistent_seq] at hp
    rw [viable, viableAll_eq_all, List.all_eq_true] at hviable
    rw [language]
    refine exists_cons_mem_languageSeq ?_ ?_ ?_ h
    · exact fun p hmem hb => ih p hmem (hp p hmem) hb (hviable p hmem)
    · exact fun p hmem => (nullable_iff (hp p hmem)).1
    · exact fun p hmem => (viable_iff (hp p hmem)).1 (hviable p hmem)
  | alt choices ih =>
    rw [firstBytes, if_pos hviable, contains_firstBytesAlt, List.any_eq_true] at h
    rw [consistent_alt] at hp
    obtain ⟨p, hmem, hb⟩ := h
    obtain ⟨w, hw⟩ := ih p hmem (hp p hmem) hb (viable_of_contains_firstBytes hb)
    rw [language]
    exact ⟨w, mem_languageAlt.2 ⟨p, hmem, hw⟩⟩
  | times inner min max ih =>
    obtain ⟨hbounds, hinner⟩ := consistent_times.1 hp
    by_cases hnone : max = some 0
    · rw [hnone, firstBytes, if_pos (hnone ▸ hviable)] at h
      simp at h
    · rw [firstBytes, if_pos hviable] at h
      · obtain ⟨w, hw⟩ := ih hinner h (viable_of_contains_firstBytes h)
        obtain ⟨v, hv⟩ := exists_cons_mem_pow hw (k := Max.max min 1) (by omega)
        refine ⟨v, mem_language_times.2 ⟨Max.max min 1, by omega, ?_, hv⟩⟩
        intro m hm
        have := hbounds m hm
        have : m ≠ 0 := fun hzero => hnone (hzero ▸ hm)
        omega
      · exact hnone

/-- With consistent bounds the look tells whether the empty word is described, and which bytes begin
the other words. -/
theorem nullable_firstBytes_exact (hp : p.consistent = true) :
    (p.nullable = true ↔ [] ∈ p.language) ∧
      ∀ b, p.firstBytes.contains b = true ↔ ∃ w, b :: w ∈ p.language :=
  ⟨nullable_iff hp, fun _ => contains_firstBytes_iff hp⟩

/-- One or two digits, with or without a minus: both a minus and a digit begin a word, a plus does
not, and no word is empty. -/
theorem nullable_firstBytes_exact_signed :
    (concat [opt (byte 0x2d), times (oneOf .digit) 1 (some 2)]).consistent = true ∧
      [] ∉ (concat [opt (byte 0x2d), times (oneOf .digit) 1 (some 2)]).language ∧
      (∃ w, 0x2d :: w ∈ (concat [opt (byte 0x2d), times (oneOf .digit) 1 (some 2)]).language) ∧
      (∃ w, 0x37 :: w ∈ (concat [opt (byte 0x2d), times (oneOf .digit) 1 (some 2)]).language) ∧
      ¬ ∃ w, 0x2b :: w ∈ (concat [opt (byte 0x2d), times (oneOf .digit) 1 (some 2)]).language := by
  have hp : (concat [opt (byte 0x2d), times (oneOf .digit) 1 (some 2)]).consistent = true := by
    decide
  obtain ⟨hnil, hfirst⟩ := nullable_firstBytes_exact hp
  refine ⟨hp, ?_, (hfirst 0x2d).1 (by decide), (hfirst 0x37).1 (by decide), ?_⟩
  · exact fun h => absurd (hnil.2 h) (by decide)
  · exact fun h => absurd ((hfirst 0x2b).2 h) (by decide)

/-! ### Patterns that take a byte -/

/-- In some input, from some position, there is a match that is not empty. -/
def Consumes (p : Pattern) : Prop :=
  ∃ input i e, p.longest input i = some e

theorem consumes_iff : p.Consumes ↔ ∃ b w, b :: w ∈ p.language := by
  constructor
  · intro h
    obtain ⟨input, i, e, hlongest⟩ := h
    obtain ⟨he, hie, _⟩ := longest_eq_some_iff.1 hlongest
    obtain ⟨b, w, _, hw⟩ := (spells_of_mem_ends he).exists_cons hie
    exact ⟨b, w, hw⟩
  · intro h
    obtain ⟨b, w, hw⟩ := h
    have hspells : Bytes.Spells (b :: w).toArray p.language 0 (w.length + 1) :=
      ⟨b :: w, hw, List.prefix_rfl, by simp⟩
    have he := mem_ends_of_spells (Nat.zero_le _) hspells
    refine ⟨(b :: w).toArray, 0, ?_⟩
    cases hlongest : p.longest (b :: w).toArray 0 with
    | some e => exact ⟨e, rfl⟩
    | none =>
      have := longest_eq_none_iff.1 hlongest _ he
      omega

/-- What begins with no byte takes no byte. -/
theorem not_consumes_of_isEmpty_firstBytes (h : p.firstBytes.isEmpty = true) : ¬ p.Consumes := by
  rw [consumes_iff]
  rintro ⟨b, w, hw⟩
  have := (ByteSet.isEmpty_iff.1 h b).symm.trans (contains_firstBytes_of_cons_mem hw)
  contradiction

theorem isEmpty_firstBytes_iff (hp : p.consistent = true) :
    p.firstBytes.isEmpty = true ↔ ¬ p.Consumes := by
  refine ⟨not_consumes_of_isEmpty_firstBytes, ?_⟩
  intro hnone
  rw [ByteSet.isEmpty_iff]
  intro b
  rw [Bool.eq_false_iff]
  intro hb
  obtain ⟨w, hw⟩ := (contains_firstBytes_iff hp).1 hb
  exact hnone (consumes_iff.2 ⟨b, w, hw⟩)

end ShellTokens.Pattern
