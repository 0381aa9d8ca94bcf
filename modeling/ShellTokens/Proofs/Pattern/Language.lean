import Mathlib.Computability.Language
import ShellTokens.Pattern.Basic

/-!
# The language of a pattern

A pattern describes a language by its structure alone: a sequence is a product, a choice a sum, and
a repetition the union of the powers within its bounds. No input and no position occurs here.
-/

namespace ShellTokens.Pattern

/-- Induction over a pattern, with the hypothesis for each part of a sequence or choice. -/
@[elab_as_elim, induction_eliminator]
theorem induct {motive : Pattern → Prop}
    (literal : ∀ bytes, motive (literal bytes))
    (oneOf : ∀ set, motive (oneOf set))
    (run : ∀ r, motive (run r))
    (seq : ∀ parts, (∀ p ∈ parts, motive p) → motive (seq parts))
    (alt : ∀ choices, (∀ p ∈ choices, motive p) → motive (alt choices))
    (times : ∀ inner min max, motive inner → motive (times inner min max)) :
    ∀ p, motive p
  | .literal bytes => literal bytes
  | .oneOf set => oneOf set
  | .run r => run r
  | .seq parts => seq parts fun p _ => induct literal oneOf run seq alt times p
  | .alt choices => alt choices fun p _ => induct literal oneOf run seq alt times p
  | .times inner min max => times inner min max (induct literal oneOf run seq alt times inner)

mutual

/-- The words that the pattern describes. A repetition whose least number exceeds its greatest
describes none. -/
def language : Pattern → Language UInt8
  | literal bytes => {bytes}
  | oneOf set => {w | ∃ b, set.contains b ∧ w = [b]}
  | run r => {w | r.min ≤ w.length ∧ ∀ b ∈ w, r.set.contains b}
  | seq parts => languageSeq parts
  | alt choices => languageAlt choices
  | times inner min max => {w | ∃ k, min ≤ k ∧ (∀ m ∈ max, k ≤ m) ∧ w ∈ inner.language ^ k}

def languageSeq : List Pattern → Language UInt8
  | [] => 1
  | p :: parts => p.language * languageSeq parts

def languageAlt : List Pattern → Language UInt8
  | [] => 0
  | p :: choices => p.language + languageAlt choices

end

theorem mem_language_literal {bytes w : List UInt8} :
    w ∈ (literal bytes).language ↔ w = bytes := by
  rw [language]
  exact Iff.rfl

theorem mem_language_oneOf {set : ByteSet} {w : List UInt8} :
    w ∈ (oneOf set).language ↔ ∃ b, set.contains b = true ∧ w = [b] := by
  rw [language]
  exact Iff.rfl

theorem mem_language_run {r : ByteRun} {w : List UInt8} :
    w ∈ (run r).language ↔ r.min ≤ w.length ∧ ∀ b ∈ w, r.set.contains b = true := by
  rw [language]
  exact Iff.rfl

theorem mem_language_times {inner : Pattern} {min : Nat} {max : Option Nat} {w : List UInt8} :
    w ∈ (times inner min max).language ↔
      ∃ k, min ≤ k ∧ (∀ m ∈ max, k ≤ m) ∧ w ∈ inner.language ^ k := by
  rw [language]
  exact Iff.rfl

theorem mem_languageAlt {choices : List Pattern} {w : List UInt8} :
    w ∈ languageAlt choices ↔ ∃ p ∈ choices, w ∈ p.language := by
  induction choices with
  | nil => simp [languageAlt]
  | cons p choices ih => simp [languageAlt, Language.mem_add, ih]

/-! ### The ways to write a pattern -/

theorem languageSeq_eq_prod (parts : List Pattern) :
    languageSeq parts = (parts.map language).prod := by
  induction parts with
  | nil => rfl
  | cons p parts ih => rw [languageSeq, ih, List.map_cons, List.prod_cons]

theorem language_concat (parts : List Pattern) :
    (concat parts).language = (parts.map language).prod := by
  rw [← languageSeq_eq_prod]
  unfold concat
  split
  · rw [languageSeq, languageSeq, mul_one]
  · rw [language]

theorem mem_language_byte_oneOf {a : UInt8} {set : ByteSet} {w : List UInt8} :
    w ∈ (concat [byte a, oneOf set]).language ↔ ∃ b, set.contains b = true ∧ w = [a, b] := by
  simp only [language_concat, List.map_cons, List.map_nil, List.prod_cons, List.prod_nil, mul_one,
    Language.mem_mul, byte, mem_language_literal, mem_language_oneOf]
  constructor
  · rintro ⟨u, rfl, v, ⟨b, hb, rfl⟩, rfl⟩
    exact ⟨b, hb, rfl⟩
  · rintro ⟨b, hb, rfl⟩
    exact ⟨[a], rfl, [b], ⟨b, hb, rfl⟩, rfl⟩

theorem language_opt (p : Pattern) : (opt p).language = 1 + p.language := by
  ext w
  rw [opt, mem_language_times, Language.mem_add]
  constructor
  · intro h
    obtain ⟨k, _, hk, hw⟩ := h
    have hk1 : k ≤ 1 := hk 1 rfl
    obtain rfl | rfl : k = 0 ∨ k = 1 := by omega
    · exact Or.inl hw
    · exact Or.inr (by rwa [pow_one] at hw)
  · intro h
    rcases h with hw | hw
    · exact ⟨0, le_rfl, by simp, hw⟩
    · exact ⟨1, Nat.zero_le 1, by simp, by rwa [pow_one]⟩

end ShellTokens.Pattern
