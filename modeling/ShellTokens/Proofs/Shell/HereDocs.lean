import ShellTokens.Proofs.Locality
import ShellTokens.Proofs.Table.RenamedBytes

/-!
# Here-documents and double quotes

A here-document is read as the text between double quotes, but for a double quote itself, which is
text there: it is not taken by a backslash, does not end plain text and closes nothing. So it is
read as if a dot, which has no meaning in either mode, stood in its place between double quotes.
-/

namespace ShellTokens

/-- A dot in the place of a double quote. -/
def dotQuote (b : UInt8) : UInt8 :=
  if b = 0x22 then 0x2e else b

/-- The line with a dot in the place of each double quote. -/
def Line.dotQuotes (line : Line) : Line :=
  ⟨line.bytes.map dotQuote⟩

namespace Shell

open Pattern

variable {input : Bytes} {i : Nat} {b : UInt8}

/-! ### Facts about the tables -/

/-- Both modes share these rules, and they have to do neither with double quotes nor with dots. -/
def sharedRules : List Rule :=
  lineContinuation :: (quotedSubstitutions ++ varRefs)

theorem letters_sharedRules : ∀ r ∈ sharedRules,
    r.pattern.letters.contains 0x22 = false ∧ r.pattern.letters.contains 0x2e = false := by
  decide +kernel

theorem contains_escaped : ∀ b ∈ ByteSet.allBytes,
    (ByteSet.ofText "$`\\").contains b = (ByteSet.ofText "$`\"\\").contains (dotQuote b) := by
  decide +kernel

theorem contains_plain : ∀ b ∈ ByteSet.allBytes,
    (plainExcept "$`\\").contains b = (plainExcept "$`\"\\").contains (dotQuote b) := by
  decide +kernel

theorem contains_notNul : ∀ b ∈ ByteSet.allBytes,
    ByteSet.notNul.contains b = ByteSet.notNul.contains (dotQuote b) := by
  decide +kernel

theorem dotQuote_ne (b : UInt8) : dotQuote b ≠ 0x22 := by
  unfold dotQuote
  split
  · decide
  · next h => exact h

theorem dotQuote_eq_backslash_iff : dotQuote b = 0x5c ↔ b = 0x5c := by
  unfold dotQuote
  split
  · next h => simp [h]
  · rfl

/-! ### Rule by rule -/

theorem mirrors_shared (r : Rule) (hr : r ∈ sharedRules) : Rule.Mirrors dotQuote r r where
  terminal_eq := rfl
  pattern := by
    apply Pattern.mirrors_self
    intro b hb
    have hquote : b = 0x22 := by
      by_contra hne
      exact hb (if_neg hne)
    subst hquote
    exact letters_sharedRules r hr

theorem mirrors_escaped : Rule.Mirrors dotQuote (rule (escaped (.ofText "$`\\")) .litEscapedChar)
    (rule (escaped (.ofText "$`\"\\")) .litEscapedChar) where
  terminal_eq := rfl
  pattern := Pattern.mirrors_byte_oneOf (fun _ => dotQuote_eq_backslash_iff) fun b =>
    contains_escaped b (ByteSet.mem_allBytes b)

theorem mirrors_plain : Rule.Mirrors dotQuote (rule (plus (plainExcept "$`\\")) .litChars)
    (rule (plus (plainExcept "$`\"\\")) .litChars) where
  terminal_eq := rfl
  pattern := Pattern.mirrors_runOf fun b => contains_plain b (ByteSet.mem_allBytes b)

theorem mirrors_anyByte : Rule.Mirrors dotQuote (anyByte .litOther) (anyByte .litOther) where
  terminal_eq := rfl
  pattern := Pattern.mirrors_oneOf fun b => contains_notNul b (ByteSet.mem_allBytes b)

theorem forall₂_mirrors_hereDoc : List.Forall₂ (Rule.Mirrors dotQuote) hereDoc.rules
    ((rule (escaped (.ofText "$`\"\\")) .litEscapedChar :: sharedRules ++
      [rule (plus (plainExcept "$`\"\\")) .litChars]) ++ [anyByte .litOther]) := by
  have hshared : List.Forall₂ (Rule.Mirrors dotQuote) sharedRules sharedRules :=
    List.forall₂_same.2 mirrors_shared
  have hlast : List.Forall₂ (Rule.Mirrors dotQuote)
      [rule (plus (plainExcept "$`\\")) .litChars, anyByte .litOther]
      [rule (plus (plainExcept "$`\"\\")) .litChars, anyByte .litOther] :=
    .cons mirrors_plain (.cons mirrors_anyByte .nil)
  have hrules := List.Forall₂.cons mirrors_escaped (List.rel_append hshared hlast)
  simpa [hereDoc, table, sharedRules] using hrules

theorem rules_doubleQuoted : doubleQuoted.rules =
    (rule (escaped (.ofText "$`\"\\")) .litEscapedChar :: sharedRules ++
      [rule (plus (plainExcept "$`\"\\")) .litChars]) ++
        rule (text "\"") .rightDoubleQuote :: [anyByte .litOther] := by
  simp [doubleQuoted, table, sharedRules, quotedEscapes]

/-- No dot is a double quote, so the rule for the closing quote finds nothing. -/
theorem first_rightDoubleQuote (b : UInt8) :
    (rule (text "\"") .rightDoubleQuote).first.contains (dotQuote b) = false := by
  have hfirst : (rule (text "\"") .rightDoubleQuote).first = (∅ : ByteSet).insert 0x22 := by
    decide +kernel
  simp [hfirst, dotQuote_ne]

theorem bestMatch_hereDoc (hi : i ≤ input.size) :
    hereDoc.bestMatch input i = doubleQuoted.bestMatch (input.map dotQuote) i :=
  Table.bestMatch_map forall₂_mirrors_hereDoc rules_doubleQuoted first_rightDoubleQuote rfl hi

/-- In a here-document the token at any place is the one between double quotes when each double
quote is replaced by a dot. -/
theorem tokenAt_hereDoc (line : Line) {start : Nat} (hstart : start ≤ line.size) :
    ∃ found, grammar.tokenAt .hereDoc line start = .ok found ∧
      grammar.tokenAt .doubleQuoted line.dotQuotes start = .ok found := by
  have hstart' : start ≤ line.dotQuotes.size := by
    simpa [Line.size, Line.dotQuotes] using hstart
  refine ⟨_, Grammar.tokenAt_eq_ok grammar .hereDoc hstart, ?_⟩
  rw [Grammar.tokenAt_eq_ok grammar .doubleQuoted hstart']
  exact congrArg Except.ok (bestMatch_hereDoc hstart).symm

/-- A double quote behind a backslash, and one within plain text. -/
theorem tokenAt_hereDoc_quote :
    0 ≤ (Line.ofString "\\\"a\"b").size ∧
      (∃ found, found.stop = 1 ∧
        grammar.tokenAt .hereDoc (Line.ofString "\\\"a\"b") 0 = .ok found ∧
        grammar.tokenAt .doubleQuoted (Line.ofString "\\\"a\"b").dotQuotes 0 = .ok found) ∧
      1 ≤ (Line.ofString "\\\"a\"b").size ∧
      ∃ found, found.stop = 5 ∧
        grammar.tokenAt .hereDoc (Line.ofString "\\\"a\"b") 1 = .ok found ∧
        grammar.tokenAt .doubleQuoted (Line.ofString "\\\"a\"b").dotQuotes 1 = .ok found := by
  have hsecond : 1 ≤ (Line.ofString "\\\"a\"b").size := by decide
  have hback : grammar.tokenAt .hereDoc (Line.ofString "\\\"a\"b") 0 = .ok ⟨.litOther, 1⟩ := by
    decide +kernel
  have hplain : grammar.tokenAt .hereDoc (Line.ofString "\\\"a\"b") 1 = .ok ⟨.litChars, 5⟩ := by
    decide +kernel
  obtain ⟨found, hfound, hfound'⟩ := tokenAt_hereDoc (Line.ofString "\\\"a\"b") (Nat.zero_le _)
  obtain ⟨next, hnext, hnext'⟩ := tokenAt_hereDoc (Line.ofString "\\\"a\"b") hsecond
  cases hback.symm.trans hfound
  cases hplain.symm.trans hnext
  exact ⟨Nat.zero_le _, ⟨_, rfl, hfound, hfound'⟩, hsecond, _, rfl, hnext, hnext'⟩

end Shell

end ShellTokens
