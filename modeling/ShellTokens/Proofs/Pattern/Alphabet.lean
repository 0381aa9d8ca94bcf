import ShellTokens.ByteSet.Lemmas
import ShellTokens.Proofs.Pattern.Language

/-!
# The bytes of words

More looks at a pattern alone: which bytes its words can contain at all, which of them behind the
first byte, which bytes are words of it by themselves, and whether a byte ends every word in which
it occurs. The sets of bytes in words may be too large and the set of bytes that are words too
small, and the last answer may be no where the pattern has no such word.
-/

namespace ShellTokens.Pattern

variable {L : Language UInt8} {p : Pattern} {parts : List Pattern} {w : List UInt8} {b : UInt8}

mutual

/-- The bytes that may occur in a word. -/
def letters : Pattern → ByteSet
  | literal bytes => ByteSet.ofList bytes
  | oneOf set => set
  | run r => r.set
  | seq parts => lettersOf parts
  | alt choices => lettersOf choices
  | times inner _ _ => inner.letters

def lettersOf : List Pattern → ByteSet
  | [] => ∅
  | p :: parts => p.letters ∪ lettersOf parts

end

/-- Bytes that are words by themselves. -/
def singles : Pattern → ByteSet
  | literal [b] => (∅ : ByteSet).insert b
  | oneOf set => set
  | run r => if r.min ≤ 1 then r.set else ∅
  | _ => ∅

theorem contains_lettersOf :
    (lettersOf parts).contains b = parts.any fun p => p.letters.contains b := by
  induction parts with
  | nil => simp [lettersOf]
  | cons p parts ih => rw [lettersOf, List.any_cons, ← ih, ByteSet.contains_cup]

theorem exists_mem_of_mem_pow_of_mem {k : Nat} (hw : w ∈ L ^ k) (hb : b ∈ w) :
    ∃ u ∈ L, b ∈ u := by
  obtain ⟨words, rfl, _, hwords⟩ := Language.mem_pow.1 hw
  obtain ⟨u, hu, hbu⟩ := List.mem_flatten.1 hb
  exact ⟨u, hwords u hu, hbu⟩

theorem exists_mem_of_mem_languageSeq_of_mem (hw : w ∈ languageSeq parts) (hb : b ∈ w) :
    ∃ p ∈ parts, ∃ u ∈ p.language, b ∈ u := by
  induction parts generalizing w with
  | nil =>
    rw [(Language.mem_one w).1 hw] at hb
    exact absurd hb List.not_mem_nil
  | cons p parts ih =>
    rw [languageSeq, Language.mem_mul] at hw
    obtain ⟨u, hu, v, hv, rfl⟩ := hw
    rcases List.mem_append.1 hb with hb | hb
    · exact ⟨p, List.mem_cons_self, u, hu, hb⟩
    · obtain ⟨q, hq, hword⟩ := ih hv hb
      exact ⟨q, List.mem_cons_of_mem p hq, hword⟩

theorem contains_letters_of_mem (hw : w ∈ p.language) (hb : b ∈ w) :
    p.letters.contains b = true := by
  induction p generalizing w with
  | literal bytes =>
    obtain rfl : w = bytes := hw
    rw [letters, ByteSet.contains_ofList, List.contains_iff_mem]
    exact hb
  | oneOf set =>
    obtain ⟨a, ha, rfl⟩ := hw
    rw [List.mem_singleton.1 hb]
    exact ha
  | run r => exact hw.2 b hb
  | seq parts ih =>
    rw [language] at hw
    obtain ⟨p, hp, u, hu, hbu⟩ := exists_mem_of_mem_languageSeq_of_mem hw hb
    rw [letters, contains_lettersOf, List.any_eq_true]
    exact ⟨p, hp, ih p hp hu hbu⟩
  | alt choices ih =>
    rw [language, mem_languageAlt] at hw
    obtain ⟨p, hp, hw⟩ := hw
    rw [letters, contains_lettersOf, List.any_eq_true]
    exact ⟨p, hp, ih p hp hw hb⟩
  | times inner min max ih =>
    obtain ⟨k, _, _, hpow⟩ := mem_language_times.1 hw
    obtain ⟨u, hu, hbu⟩ := exists_mem_of_mem_pow_of_mem hpow hb
    exact ih hu hbu

theorem singleton_mem_language (h : p.singles.contains b = true) : [b] ∈ p.language := by
  unfold singles at h
  split at h
  · next a =>
    obtain rfl : b = a := by simpa using h
    rfl
  · next set => exact ⟨b, h, rfl⟩
  · next r =>
    split at h
    · next hmin => exact ⟨hmin, fun a ha => (List.mem_singleton.1 ha) ▸ h⟩
    · simp at h
  · simp at h

/-! ### Bytes behind the first one -/

mutual

/-- The bytes that may occur in a word behind its first byte. -/
def laterLetters : Pattern → ByteSet
  | literal bytes => ByteSet.ofList bytes.tail
  | oneOf _ => ∅
  | run r => r.set
  | seq parts => laterLettersSeq parts
  | alt choices => laterLettersAlt choices
  | times inner _ _ => inner.letters

def laterLettersSeq : List Pattern → ByteSet
  | [] => ∅
  | p :: parts => p.laterLetters ∪ lettersOf parts

def laterLettersAlt : List Pattern → ByteSet
  | [] => ∅
  | p :: choices => p.laterLetters ∪ laterLettersAlt choices

end

theorem contains_lettersOf_of_mem_languageSeq (hw : w ∈ languageSeq parts) (hb : b ∈ w) :
    (lettersOf parts).contains b = true := by
  obtain ⟨p, hp, u, hu, hbu⟩ := exists_mem_of_mem_languageSeq_of_mem hw hb
  rw [contains_lettersOf, List.any_eq_true]
  exact ⟨p, hp, contains_letters_of_mem hu hbu⟩

theorem contains_laterLettersAlt :
    (laterLettersAlt parts).contains b = parts.any fun p => p.laterLetters.contains b := by
  induction parts with
  | nil => simp [laterLettersAlt]
  | cons p parts ih => simp [laterLettersAlt, ih]

theorem contains_laterLettersSeq_of_mem {a : UInt8}
    (h : ∀ p ∈ parts, ∀ w, a :: w ∈ p.language → b ∈ w → p.laterLetters.contains b = true)
    (hw : a :: w ∈ languageSeq parts) (hb : b ∈ w) :
    (laterLettersSeq parts).contains b = true := by
  cases parts with
  | nil => simp [languageSeq, Language.mem_one] at hw
  | cons p parts =>
    rw [laterLettersSeq, ByteSet.contains_cup, Bool.or_eq_true]
    rw [languageSeq] at hw
    obtain ⟨u, hu, v, hv, huv⟩ := Language.mem_mul.1 hw
    cases u with
    | nil =>
      rw [List.nil_append] at huv
      subst huv
      exact Or.inr (contains_lettersOf_of_mem_languageSeq hv (List.mem_cons_of_mem a hb))
    | cons c u =>
      obtain ⟨rfl, rfl⟩ := List.cons.inj huv
      rcases List.mem_append.1 hb with hb | hb
      · exact Or.inl (h p List.mem_cons_self u hu hb)
      · exact Or.inr (contains_lettersOf_of_mem_languageSeq hv hb)

theorem contains_laterLetters_of_mem {a : UInt8} (hw : a :: w ∈ p.language) (hb : b ∈ w) :
    p.laterLetters.contains b = true := by
  induction p generalizing w with
  | literal bytes =>
    rw [mem_language_literal] at hw
    subst hw
    simpa [laterLetters] using hb
  | oneOf set =>
    obtain ⟨c, _, hc⟩ := mem_language_oneOf.1 hw
    obtain ⟨-, rfl⟩ := List.cons.inj hc
    exact absurd hb List.not_mem_nil
  | run r => exact (mem_language_run.1 hw).2 b (List.mem_cons_of_mem a hb)
  | seq parts ih =>
    rw [language] at hw
    rw [laterLetters]
    exact contains_laterLettersSeq_of_mem (fun p hp w => ih p hp) hw hb
  | alt choices ih =>
    rw [language, mem_languageAlt] at hw
    obtain ⟨p, hp, hw⟩ := hw
    rw [laterLetters, contains_laterLettersAlt, List.any_eq_true]
    exact ⟨p, hp, ih p hp hw hb⟩
  | times inner min max ih =>
    have hb' : b ∈ a :: w := List.mem_cons_of_mem a hb
    rw [laterLetters]
    exact contains_letters_of_mem (p := times inner min max) hw hb'

/-! ### Bytes that end a word -/

mutual

/-- Whether the byte can only be the last one of a word. -/
def onlyLast (b : UInt8) : Pattern → Bool
  | literal bytes => !bytes.dropLast.contains b
  | oneOf _ => true
  | run r => !r.set.contains b
  | seq parts => onlyLastSeq b parts
  | alt choices => onlyLastAlt b choices
  | times inner _ _ => !inner.letters.contains b

def onlyLastSeq (b : UInt8) : List Pattern → Bool
  | [] => true
  | p :: parts =>
    if parts.isEmpty then p.onlyLast b else !p.letters.contains b && onlyLastSeq b parts

def onlyLastAlt (b : UInt8) : List Pattern → Bool
  | [] => true
  | p :: choices => p.onlyLast b && onlyLastAlt b choices

end

theorem onlyLastAlt_eq_all (choices : List Pattern) :
    onlyLastAlt b choices = choices.all (onlyLast b) := by
  induction choices with
  | nil => rfl
  | cons p choices ih => rw [onlyLastAlt, ih, List.all_cons]

theorem not_mem_of_letters (h : p.letters.contains b = false) (hw : w ∈ p.language) : b ∉ w := by
  intro hb
  have := (contains_letters_of_mem hw hb).symm.trans h
  contradiction

theorem not_mem_dropLast_append {u v : List UInt8} (hu : b ∉ u) (hv : b ∉ v.dropLast) :
    b ∉ (u ++ v).dropLast := by
  cases v with
  | nil =>
    rw [List.append_nil]
    exact fun hb => hu (List.mem_of_mem_dropLast hb)
  | cons a v =>
    rw [List.dropLast_append_of_ne_nil (List.cons_ne_nil a v), List.mem_append, not_or]
    exact ⟨hu, hv⟩

theorem not_mem_dropLast_of_mem_languageSeq
    (ih : ∀ p ∈ parts, ∀ w, p.onlyLast b = true → w ∈ p.language → b ∉ w.dropLast)
    (h : onlyLastSeq b parts = true) (hw : w ∈ languageSeq parts) : b ∉ w.dropLast := by
  induction parts generalizing w with
  | nil =>
    rw [(Language.mem_one w).1 hw]
    exact List.not_mem_nil
  | cons p parts ihparts =>
    obtain ⟨hp, hparts⟩ := List.forall_mem_cons.1 ih
    rw [languageSeq, Language.mem_mul] at hw
    obtain ⟨u, hu, v, hv, rfl⟩ := hw
    cases parts with
    | nil =>
      rw [(Language.mem_one v).1 hv, List.append_nil]
      exact hp u h hu
    | cons q parts =>
      rw [onlyLastSeq, if_neg (by simp), Bool.and_eq_true, Bool.not_eq_true'] at h
      exact not_mem_dropLast_append (not_mem_of_letters h.1 hu) (ihparts hparts h.2 hv)

theorem not_mem_dropLast_of_mem (h : p.onlyLast b = true) (hw : w ∈ p.language) :
    b ∉ w.dropLast := by
  induction p generalizing w with
  | literal bytes =>
    obtain rfl : w = bytes := hw
    simpa [onlyLast] using h
  | oneOf set =>
    obtain ⟨a, _, rfl⟩ := hw
    simp
  | run r =>
    rw [onlyLast, Bool.not_eq_true'] at h
    intro hb
    have := (hw.2 b (List.mem_of_mem_dropLast hb)).symm.trans h
    contradiction
  | seq parts ih =>
    rw [onlyLast] at h
    rw [language] at hw
    exact not_mem_dropLast_of_mem_languageSeq (fun p hp _ => ih p hp) h hw
  | alt choices ih =>
    rw [onlyLast, onlyLastAlt_eq_all, List.all_eq_true] at h
    rw [language, mem_languageAlt] at hw
    obtain ⟨p, hp, hw⟩ := hw
    exact ih p hp (h p hp) hw
  | times inner min max ih =>
    rw [onlyLast, Bool.not_eq_true'] at h
    obtain ⟨k, _, _, hpow⟩ := mem_language_times.1 hw
    intro hb
    obtain ⟨u, hu, hbu⟩ := exists_mem_of_mem_pow_of_mem hpow (List.mem_of_mem_dropLast hb)
    exact not_mem_of_letters h hu hbu

end ShellTokens.Pattern
