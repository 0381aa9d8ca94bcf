import ShellTokens.ByteSet.Lemmas
import ShellTokens.Pattern.FirstBytes
import ShellTokens.Proofs.Pattern.Language

/-!
# How words begin

What a look at the pattern tells about its language: a pattern with a word is viable, one with the
empty word is nullable, and a word that is not empty begins with one of the first bytes. So a byte
that is missing from the first bytes begins no match.
-/

namespace ShellTokens.Pattern

variable {L M : Language UInt8} {p : Pattern} {parts : List Pattern} {w : List UInt8} {b : UInt8}

/-! ### Words of products and powers -/

theorem nil_mem_mul : [] ∈ L * M ↔ [] ∈ L ∧ [] ∈ M := by
  rw [Language.mem_mul]
  constructor
  · intro h
    obtain ⟨u, hu, v, hv, huv⟩ := h
    obtain ⟨rfl, rfl⟩ := List.append_eq_nil_iff.1 huv
    exact ⟨hu, hv⟩
  · intro h
    exact ⟨[], h.1, [], h.2, rfl⟩

theorem cons_mem_mul_iff : b :: w ∈ L * M ↔
    (∃ u v, u ++ v = w ∧ b :: u ∈ L ∧ v ∈ M) ∨ ([] ∈ L ∧ b :: w ∈ M) := by
  constructor
  · intro h
    obtain ⟨u, hu, v, hv, huv⟩ := Language.mem_mul.1 h
    cases u with
    | nil => exact Or.inr ⟨hu, huv ▸ hv⟩
    | cons a u =>
      obtain ⟨rfl, hw⟩ := List.cons.inj huv
      exact Or.inl ⟨u, v, hw, hu, hv⟩
  · rintro (⟨u, v, rfl, hu, hv⟩ | ⟨hnil, hw⟩)
    · exact Language.append_mem_mul hu hv
    · exact Language.append_mem_mul hnil hw

/-- The first factor that is not empty can be taken for the first factor. -/
theorem cons_mem_pow_iff {k : Nat} :
    b :: w ∈ L ^ k ↔ k ≠ 0 ∧ ∃ u v, u ++ v = w ∧ b :: u ∈ L ∧ v ∈ L ^ (k - 1) := by
  induction k generalizing w with
  | zero => simp [Language.mem_one]
  | succ k ih =>
    rw [pow_succ', cons_mem_mul_iff, ih]
    simp only [Nat.add_sub_cancel, ne_eq, Nat.add_one_ne_zero, not_false_eq_true, true_and]
    constructor
    · rintro (h | ⟨hnil, hk, u, v, rfl, hu, hv⟩)
      · exact h
      · obtain ⟨k, rfl⟩ := Nat.exists_eq_succ_of_ne_zero hk
        refine ⟨u, v, rfl, hu, ?_⟩
        rw [Nat.succ_eq_add_one, pow_succ']
        exact Language.append_mem_mul hnil hv
    · exact Or.inl

theorem exists_mem_of_mem_pow {k : Nat} (h : w ∈ L ^ k) (hk : k ≠ 0) : ∃ u, u ∈ L := by
  obtain ⟨k, rfl⟩ := Nat.exists_eq_succ_of_ne_zero hk
  rw [Nat.succ_eq_add_one, pow_succ', Language.mem_mul] at h
  obtain ⟨u, hu, _⟩ := h
  exact ⟨u, hu⟩

theorem nil_mem_of_nil_mem_pow {k : Nat} (h : [] ∈ L ^ k) (hk : k ≠ 0) : [] ∈ L := by
  obtain ⟨k, rfl⟩ := Nat.exists_eq_succ_of_ne_zero hk
  rw [Nat.succ_eq_add_one, pow_succ', nil_mem_mul] at h
  exact h.1

theorem nil_mem_languageSeq :
    [] ∈ languageSeq parts ↔ ∀ p ∈ parts, [] ∈ p.language := by
  induction parts with
  | nil => simp [languageSeq]
  | cons p parts ih => rw [languageSeq, nil_mem_mul, ih, List.forall_mem_cons]

theorem exists_mem_of_mem_languageSeq (hw : w ∈ languageSeq parts) :
    ∀ p ∈ parts, ∃ u, u ∈ p.language := by
  induction parts generalizing w with
  | nil => exact fun p hp => absurd hp List.not_mem_nil
  | cons p parts ih =>
    rw [languageSeq, Language.mem_mul] at hw
    obtain ⟨u, hu, v, hv, _⟩ := hw
    exact List.forall_mem_cons.2 ⟨⟨u, hu⟩, ih hv⟩

/-! ### Viable patterns -/

theorem viableAll_eq_all (parts : List Pattern) : viableAll parts = parts.all viable := by
  induction parts with
  | nil => rfl
  | cons p parts ih => rw [viableAll, ih, List.all_cons]

theorem viableAny_eq_any (choices : List Pattern) : viableAny choices = choices.any viable := by
  induction choices with
  | nil => rfl
  | cons p choices ih => rw [viableAny, ih, List.any_cons]

theorem not_isEmpty_of_contains {set : ByteSet} (h : set.contains b = true) :
    set.isEmpty = false := by
  rw [Bool.eq_false_iff]
  intro hempty
  rw [ByteSet.isEmpty_iff.1 hempty b] at h
  contradiction

theorem viable_of_mem_language (hw : w ∈ p.language) : p.viable = true := by
  induction p generalizing w with
  | literal bytes => rw [viable]
  | oneOf set =>
    obtain ⟨b, hb, rfl⟩ := hw
    rw [viable, not_isEmpty_of_contains hb]
    rfl
  | run r =>
    obtain ⟨hmin, hall⟩ := hw
    rw [viable, Bool.or_eq_true, beq_iff_eq]
    cases w with
    | nil => exact Or.inl (Nat.le_zero.1 hmin)
    | cons b w =>
      rw [not_isEmpty_of_contains (hall b List.mem_cons_self)]
      exact Or.inr rfl
  | seq parts ih =>
    rw [language] at hw
    rw [viable, viableAll_eq_all, List.all_eq_true]
    intro p hp
    obtain ⟨u, hu⟩ := exists_mem_of_mem_languageSeq hw p hp
    exact ih p hp hu
  | alt choices ih =>
    rw [language, mem_languageAlt] at hw
    obtain ⟨p, hp, hw⟩ := hw
    rw [viable, viableAny_eq_any, List.any_eq_true]
    exact ⟨p, hp, ih p hp hw⟩
  | times inner min max ih =>
    obtain ⟨k, hmin, _, hw⟩ := mem_language_times.1 hw
    rw [viable, Bool.or_eq_true, beq_iff_eq]
    by_cases hzero : min = 0
    · exact Or.inl hzero
    · obtain ⟨u, hu⟩ := exists_mem_of_mem_pow hw (by omega)
      exact Or.inr (ih hu)

/-! ### Nullable patterns -/

theorem nullableAll_eq_all (parts : List Pattern) : nullableAll parts = parts.all nullable := by
  induction parts with
  | nil => rfl
  | cons p parts ih => rw [nullableAll, ih, List.all_cons]

theorem nullableAny_eq_any (choices : List Pattern) :
    nullableAny choices = choices.any nullable := by
  induction choices with
  | nil => rfl
  | cons p choices ih => rw [nullableAny, ih, List.any_cons]

theorem nullable_of_nil_mem_language (hw : [] ∈ p.language) : p.nullable = true := by
  induction p with
  | literal bytes =>
    obtain rfl : [] = bytes := hw
    rw [nullable]
    rfl
  | oneOf set =>
    obtain ⟨b, _, hnil⟩ := hw
    exact absurd hnil.symm (List.cons_ne_nil b [])
  | run r =>
    rw [nullable, beq_iff_eq]
    exact Nat.le_zero.1 hw.1
  | seq parts ih =>
    rw [language, nil_mem_languageSeq] at hw
    rw [nullable, nullableAll_eq_all, List.all_eq_true]
    exact fun p hp => ih p hp (hw p hp)
  | alt choices ih =>
    rw [language, mem_languageAlt] at hw
    obtain ⟨p, hp, hw⟩ := hw
    rw [nullable, nullableAny_eq_any, List.any_eq_true]
    exact ⟨p, hp, ih p hp hw⟩
  | times inner min max ih =>
    obtain ⟨k, hmin, _, hw⟩ := mem_language_times.1 hw
    rw [nullable, Bool.or_eq_true, beq_iff_eq]
    by_cases hzero : min = 0
    · exact Or.inl hzero
    · exact Or.inr (ih (nil_mem_of_nil_mem_pow hw (by omega)))

/-! ### First bytes -/

theorem contains_firstBytesAlt {choices : List Pattern} :
    (firstBytesAlt choices).contains b = choices.any fun p => p.firstBytes.contains b := by
  induction choices with
  | nil => simp [firstBytesAlt]
  | cons p choices ih => rw [firstBytesAlt, List.any_cons, ← ih, ByteSet.contains_cup]

theorem contains_firstBytesSeq_cons (p : Pattern) (parts : List Pattern) :
    (firstBytesSeq (p :: parts)).contains b =
      (p.firstBytes.contains b || (p.nullable && (firstBytesSeq parts).contains b)) := by
  rw [firstBytesSeq]
  cases p.nullable with
  | false => simp
  | true => rw [if_pos rfl, Bool.true_and, ByteSet.contains_cup]

theorem contains_firstBytesSeq_of_cons_mem
    (h : ∀ p ∈ parts, ∀ w, b :: w ∈ p.language → p.firstBytes.contains b = true)
    (hw : b :: w ∈ languageSeq parts) : (firstBytesSeq parts).contains b = true := by
  induction parts generalizing w with
  | nil => exact absurd ((Language.mem_one _).1 hw) (List.cons_ne_nil b w)
  | cons p parts ih =>
    obtain ⟨hp, hparts⟩ := List.forall_mem_cons.1 h
    rw [languageSeq] at hw
    rw [contains_firstBytesSeq_cons, Bool.or_eq_true, Bool.and_eq_true]
    rcases cons_mem_mul_iff.1 hw with ⟨u, _, _, hu, _⟩ | ⟨hnil, hw⟩
    · exact Or.inl (hp u hu)
    · exact Or.inr ⟨nullable_of_nil_mem_language hnil, ih hparts hw⟩

/-- No byte with which a word begins is missing. -/
theorem contains_firstBytes_of_cons_mem (hw : b :: w ∈ p.language) :
    p.firstBytes.contains b = true := by
  induction p generalizing w with
  | literal bytes =>
    obtain rfl : b :: w = bytes := hw
    rw [firstBytes, if_pos (by rw [viable])]
    exact (ByteSet.contains_insert _ b b).trans (by simp)
  | oneOf set =>
    rw [firstBytes, if_pos (viable_of_mem_language hw)]
    obtain ⟨a, ha, heq⟩ := hw
    obtain ⟨rfl, _⟩ := List.cons.inj heq
    exact ha
  | run r =>
    rw [firstBytes, if_pos (viable_of_mem_language hw)]
    exact hw.2 b List.mem_cons_self
  | seq parts ih =>
    rw [firstBytes, if_pos (viable_of_mem_language hw)]
    rw [language] at hw
    exact contains_firstBytesSeq_of_cons_mem (fun p hp _ => ih p hp) hw
  | alt choices ih =>
    rw [firstBytes, if_pos (viable_of_mem_language hw), contains_firstBytesAlt, List.any_eq_true]
    rw [language, mem_languageAlt] at hw
    obtain ⟨p, hp, hw⟩ := hw
    exact ⟨p, hp, ih p hp hw⟩
  | times inner min max ih =>
    obtain ⟨k, _, hmax, hpow⟩ := mem_language_times.1 hw
    obtain ⟨hk, u, _, _, hu, _⟩ := cons_mem_pow_iff.1 hpow
    have hne : max ≠ some 0 := by
      rintro rfl
      exact hk (Nat.le_zero.1 (hmax 0 rfl))
    rw [firstBytes, if_pos (viable_of_mem_language hw)]
    · exact ih hu
    · exact hne

end ShellTokens.Pattern
