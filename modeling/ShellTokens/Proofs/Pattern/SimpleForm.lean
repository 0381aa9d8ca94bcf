import ShellTokens.Proofs.Pattern.Derivative

/-!
# Simple forms of patterns

What is left of a pattern behind a byte is wrapped up: in choices of a single pattern, in sequences
within sequences and in parts that are empty. Without these wrappings it has the same words, and
what is left behind one word is often the very same pattern as what is left behind another. Whether
two patterns are the same can be decided, so this is found by evaluation.
-/

namespace ShellTokens

theorem ByteRun.eq_of_set_of_min {r q : ByteRun} (hset : r.set = q.set) (hmin : r.min = q.min) :
    r = q := by
  obtain ⟨set, min, stops, rfl⟩ := r
  obtain ⟨set', min', stops', rfl⟩ := q
  obtain rfl : set = set' := hset
  obtain rfl : min = min' := hmin
  rfl

namespace Pattern

variable {p q : Pattern} {parts : List Pattern} {w : List UInt8}

/-! ### Equality -/

mutual

/-- Whether the patterns are the same. The stop bytes of a run follow from its set. -/
def same : Pattern → Pattern → Bool
  | literal bytes, literal bytes' => bytes == bytes'
  | oneOf set, oneOf set' => set == set'
  | run r, run r' => r.set == r'.set && r.min == r'.min
  | seq parts, seq parts' => sameAll parts parts'
  | alt choices, alt choices' => sameAll choices choices'
  | times inner min max, times inner' min' max' =>
    same inner inner' && min == min' && max == max'
  | _, _ => false

def sameAll : List Pattern → List Pattern → Bool
  | [], [] => true
  | p :: parts, q :: parts' => same p q && sameAll parts parts'
  | _, _ => false

end

theorem sameAll_iff {parts' : List Pattern} (h : ∀ p ∈ parts, ∀ q, p.same q = true ↔ p = q) :
    sameAll parts parts' = true ↔ parts = parts' := by
  induction parts generalizing parts' with
  | nil => cases parts' <;> simp [sameAll]
  | cons p parts ih =>
    obtain ⟨hp, h⟩ := List.forall_mem_cons.1 h
    cases parts' with
    | nil => simp [sameAll]
    | cons q parts' => simp [sameAll, hp q, ih h]

theorem same_iff : p.same q = true ↔ p = q := by
  induction p generalizing q with
  | literal bytes => cases q <;> simp [same]
  | oneOf set => cases q <;> simp [same]
  | run r =>
    cases q with
    | run r' =>
      simp only [same, Bool.and_eq_true, beq_iff_eq, run.injEq]
      exact ⟨fun h => ByteRun.eq_of_set_of_min h.1 h.2, fun h => h ▸ ⟨rfl, rfl⟩⟩
    | _ => simp [same]
  | seq parts ih =>
    cases q with
    | seq parts' => simp [same, sameAll_iff fun p hp _ => ih p hp]
    | _ => simp [same]
  | alt choices ih =>
    cases q with
    | alt choices' => simp [same, sameAll_iff fun p hp _ => ih p hp]
    | _ => simp [same]
  | times inner min max ih =>
    cases q with
    | times inner' min' max' => simp [same, ih, and_assoc]
    | _ => simp [same]

instance : DecidableEq Pattern := fun _ _ => decidable_of_iff _ same_iff

/-! ### Wrappings -/

/-- The parts of the pattern as a sequence. -/
def pieces : Pattern → List Pattern
  | literal [] => []
  | seq parts => parts
  | p => [p]

/-- Any one of the choices; a single one is itself the choice. -/
def choice : List Pattern → Pattern
  | [p] => p
  | choices => alt choices

mutual

/-- The pattern without its wrappings. -/
def simplify : Pattern → Pattern
  | seq parts => concat (simplifySeq parts)
  | alt choices => choice (simplifyAlt choices)
  | p => p

def simplifySeq : List Pattern → List Pattern
  | [] => []
  | p :: parts => p.simplify.pieces ++ simplifySeq parts

def simplifyAlt : List Pattern → List Pattern
  | [] => []
  | p :: choices => p.simplify :: simplifyAlt choices

end

theorem simplifySeq_eq_flatMap (parts : List Pattern) :
    simplifySeq parts = parts.flatMap fun p => p.simplify.pieces := by
  induction parts with
  | nil => rfl
  | cons p parts ih => rw [simplifySeq, ih, List.flatMap_cons]

theorem simplifyAlt_eq_map (choices : List Pattern) :
    simplifyAlt choices = choices.map simplify := by
  induction choices with
  | nil => rfl
  | cons p choices ih => rw [simplifyAlt, ih, List.map_cons]

/-! ### The same words -/

theorem languageSeq_append (parts parts' : List Pattern) :
    languageSeq (parts ++ parts') = languageSeq parts * languageSeq parts' := by
  simp [languageSeq_eq_prod]

theorem languageSeq_pieces (p : Pattern) : languageSeq p.pieces = p.language := by
  unfold pieces
  split
  · rw [languageSeq, language]
    rfl
  · rw [language]
  · rw [languageSeq, languageSeq, mul_one]

theorem language_choice (choices : List Pattern) :
    (choice choices).language = languageAlt choices := by
  unfold choice
  split
  · rw [languageAlt, languageAlt, add_zero]
  · rw [language]

theorem languageSeq_simplifySeq (h : ∀ p ∈ parts, p.simplify.language = p.language) :
    languageSeq (simplifySeq parts) = languageSeq parts := by
  induction parts with
  | nil => rfl
  | cons p parts ih =>
    obtain ⟨hp, h⟩ := List.forall_mem_cons.1 h
    rw [simplifySeq, languageSeq_append, languageSeq_pieces, hp, ih h, languageSeq]

theorem languageAlt_simplifyAlt (h : ∀ p ∈ parts, p.simplify.language = p.language) :
    languageAlt (simplifyAlt parts) = languageAlt parts := by
  induction parts with
  | nil => rfl
  | cons p parts ih =>
    obtain ⟨hp, h⟩ := List.forall_mem_cons.1 h
    rw [simplifyAlt, languageAlt, hp, ih h, languageAlt]

theorem language_simplify (p : Pattern) : p.simplify.language = p.language := by
  induction p with
  | seq parts ih =>
    rw [simplify, language_concat, ← languageSeq_eq_prod, languageSeq_simplifySeq ih, language]
  | alt choices ih => rw [simplify, language_choice, languageAlt_simplifyAlt ih, language]
  | _ => rfl

/-! ### Bounds -/

theorem consistent_of_mem_pieces (hp : p.consistent = true) :
    ∀ q ∈ p.pieces, q.consistent = true := by
  unfold pieces
  split
  · simp
  · exact consistent_seq.1 hp
  · simpa using hp

theorem consistent_concat (h : ∀ p ∈ parts, p.consistent = true) :
    (concat parts).consistent = true := by
  unfold concat
  split
  · exact h _ List.mem_cons_self
  · exact consistent_seq.2 h

theorem consistent_choice (h : ∀ p ∈ parts, p.consistent = true) :
    (choice parts).consistent = true := by
  unfold choice
  split
  · exact h _ List.mem_cons_self
  · exact consistent_alt.2 h

theorem consistent_simplify (hp : p.consistent = true) : p.simplify.consistent = true := by
  induction p with
  | seq parts ih =>
    rw [consistent_seq] at hp
    rw [simplify, simplifySeq_eq_flatMap]
    apply consistent_concat
    intro q hq
    obtain ⟨p, hmem, hq⟩ := List.mem_flatMap.1 hq
    exact consistent_of_mem_pieces (ih p hmem (hp p hmem)) q hq
  | alt choices ih =>
    rw [consistent_alt] at hp
    rw [simplify, simplifyAlt_eq_map]
    apply consistent_choice
    intro q hq
    obtain ⟨p, hmem, rfl⟩ := List.mem_map.1 hq
    exact ih p hmem (hp p hmem)
  | _ => exact hp

end Pattern

end ShellTokens
