import Mathlib.Algebra.Group.Nat.Even
import ShellTokens.Proofs.Shell.Progress

/-!
# What closes a quotation

Within double quotes, within single quotes after a dollar sign and within backquotes, one byte
closes the text unless a backslash takes it, and a backslash that another one takes does not count.
Between them stand other escapes, substitutions and plain text, but no token goes on over a
backslash or over a closing byte that no backslash takes. So a run of backslashes is read in pairs
from its first one on, and its length decides whether the byte behind it closes the text.
-/

namespace ShellTokens

/-- The length of the run of backslashes right before position `i`. -/
def Line.backslashesBefore (line : Line) : Nat → Nat
  | 0 => 0
  | i + 1 => if line.bytes[i]? = some 0x5c then line.backslashesBefore i + 1 else 0

namespace Pattern

/-- Whether the pattern is a backslash and one byte of a set. -/
def isEscaped : Pattern → Bool
  | seq [literal [a], oneOf _] => a == 0x5c
  | _ => false

theorem eq_pair_of_isEscaped {p : Pattern} {w : List UInt8} (h : p.isEscaped = true)
    (hw : w ∈ p.language) : ∃ b, w = [0x5c, b] := by
  unfold isEscaped at h
  split at h
  · next a set =>
    obtain rfl : a = 0x5c := by simpa using h
    obtain ⟨b, _, rfl⟩ := mem_language_byte_oneOf.1 hw
    exact ⟨b, rfl⟩
  · contradiction

end Pattern

namespace Shell

/-- A mode for quoted text, with the byte that closes the text, the terminal of this byte, and the
terminal of a backslash together with a byte that it takes. -/
structure Quotation where
  mode : Mode
  closer : UInt8
  closing : Terminal
  escape : Terminal

def quotations : List Quotation :=
  [⟨.doubleQuoted, 0x22, .rightDoubleQuote, .litEscapedChar⟩,
   ⟨.dollarSingleQuoted, 0x27, .rightSingleQuote, .charOneChar⟩,
   ⟨.backtick, 0x60, .backtickRight, .backtickQuoted⟩]

namespace Quotation

/-- The bytes that a backslash takes: itself and the closing byte. -/
def specials (q : Quotation) : List UInt8 :=
  [0x5c, q.closer]

def tokens (q : Quotation) (line : Line) : List Token :=
  ((Cursor.atStart line).tokens grammar q.mode).1

end Quotation

variable {q : Quotation} {line : Line} {i j p k : Nat} {b : UInt8} {t : Token}

/-! ### Facts about the tables -/

theorem decided?_closer :
    ∀ q ∈ quotations, (tableOf q.mode).decided? [q.closer] = some q.closing := by
  decide +kernel

theorem decided?_escape : ∀ q ∈ quotations, ∀ b ∈ q.specials,
    (tableOf q.mode).decided? [0x5c, b] = some q.escape := by
  decide +kernel

theorem specials_first : ∀ q ∈ quotations, ∀ r ∈ (tableOf q.mode).rules,
    r.pattern.isEscaped = true ∨ ∀ b ∈ q.specials, r.pattern.laterLetters.contains b = false := by
  decide +kernel

/-! ### Single matches -/

theorem bestMatch_closer (hq : q ∈ quotations) (hb : line.bytes[i]? = some q.closer) :
    (tableOf q.mode).bestMatch line.bytes i = ⟨q.closing, i + 1⟩ := by
  apply Table.bestMatch_of_decided? (consistent_tableOf q.mode) (decided?_closer q hq)
  rw [Bytes.drop_toList_of_getElem? hb]
  exact ⟨_, rfl⟩

theorem bestMatch_escape (hq : q ∈ quotations) (hi : line.bytes[i]? = some 0x5c)
    (hb : line.bytes[i + 1]? = some b) (hspecial : b ∈ q.specials) :
    (tableOf q.mode).bestMatch line.bytes i = ⟨q.escape, i + 2⟩ := by
  apply Table.bestMatch_of_decided? (consistent_tableOf q.mode) (decided?_escape q hq b hspecial)
  rw [Bytes.drop_toList_of_getElem? hi, Bytes.drop_toList_of_getElem? hb]
  exact ⟨_, rfl⟩

/-- A match goes over a special byte only if it is a backslash with this byte. -/
theorem escape_of_covers (hq : q ∈ quotations) (hspecial : b ∈ q.specials)
    (hb : line.bytes[j]? = some b) (hij : i < j)
    (hj : j < ((tableOf q.mode).bestMatch line.bytes i).stop) :
    line.bytes[i]? = some 0x5c ∧ j = i + 1 := by
  have hbest := (tableOf q.mode).isBest_bestMatch line.bytes i
  obtain ⟨r, hr, _, he⟩ := hbest.exists_rule (Nat.lt_trans hij hj)
  rcases specials_first q hq r hr with hescaped | hlater
  · obtain ⟨w, hw, hprefix, hstop⟩ := Pattern.spells_of_mem_ends he
    obtain ⟨a, rfl⟩ := Pattern.eq_pair_of_isEscaped hescaped hw
    rw [hstop, List.length_cons, List.length_singleton] at hj
    exact ⟨Bytes.getElem?_of_cons_prefix hprefix, by omega⟩
  · obtain ⟨a, w, hw, b', hb', hbyte⟩ := (Pattern.spells_of_mem_ends he).exists_later hij hj
    obtain rfl : b' = b := Option.some.inj (hbyte.symm.trans hb)
    have hcontains := Pattern.contains_laterLetters_of_mem hw hb'
    rw [hlater b' hspecial] at hcontains
    contradiction

/-! ### Tokens -/

/-- A special byte begins a token or is taken by the backslash before it. -/
theorem starts_or_taken (hq : q ∈ quotations) (hspecial : b ∈ q.specials)
    (hb : line.bytes[p]? = some b) (hp : p < line.textEnd) :
    (∃ t ∈ q.tokens line, t.span.start = p) ∨
      ∃ k, p = k + 1 ∧ line.bytes[k]? = some 0x5c ∧ ⟨q.escape, ⟨k, k + 2⟩⟩ ∈ q.tokens line := by
  obtain ⟨t, ht, hstart, hstop⟩ := exists_token_of_lt_textEnd q.mode hp
  have hmatch := bestMatch_of_mem_tokens ht
  obtain heq | hlt := Nat.eq_or_lt_of_le hstart
  · exact Or.inl ⟨t, ht, heq⟩
  · have hcover : p < ((tableOf q.mode).bestMatch line.bytes t.span.start).stop := by
      rwa [hmatch]
    obtain ⟨hback, rfl⟩ := escape_of_covers hq hspecial hb hlt hcover
    rw [bestMatch_escape hq hback hb hspecial] at hmatch
    obtain ⟨hterminal, hstop⟩ := Match.mk.inj hmatch
    refine Or.inr ⟨t.span.start, rfl, hback, ?_⟩
    rw [hterminal, hstop]
    exact ht

/-- Behind a backslash that begins a token, a special byte does not begin one. -/
theorem not_starts_of_starts (hq : q ∈ quotations) (hspecial : b ∈ q.specials)
    (hb : line.bytes[k + 1]? = some b) (hback : line.bytes[k]? = some 0x5c)
    (hk : ∃ t ∈ q.tokens line, t.span.start = k) :
    ¬ ∃ t ∈ q.tokens line, t.span.start = k + 1 := by
  rintro ⟨t', ht', hstart'⟩
  obtain ⟨t, ht, rfl⟩ := hk
  have hmatch := bestMatch_of_mem_tokens ht
  rw [bestMatch_escape hq hback hb hspecial] at hmatch
  have hstop : t.span.start + 2 = t.span.stop := congrArg Match.stop hmatch
  have hstop' := (tiles_tokens q.mode line).start_lt_stop (List.mem_map_of_mem ht')
  have heq := start_eq_of_covers (p := t.span.start + 1) ht ht' (by omega) (by omega)
  omega

/-- A special byte begins a token if the backslashes before it are even in number. -/
theorem starts_iff_even (hq : q ∈ quotations) (hspecial : b ∈ q.specials)
    (hb : line.bytes[p]? = some b) (hp : p < line.textEnd) :
    (∃ t ∈ q.tokens line, t.span.start = p) ↔ Even (line.backslashesBefore p) := by
  induction p generalizing b with
  | zero =>
    rcases starts_or_taken hq hspecial hb hp with hstarts | ⟨k, hk, _⟩
    · simp [Line.backslashesBefore, hstarts]
    · contradiction
  | succ k ih =>
    by_cases hback : line.bytes[k]? = some 0x5c
    · have hk := ih (List.mem_cons_self : (0x5c : UInt8) ∈ q.specials) hback (by omega)
      have halternate : (∃ t ∈ q.tokens line, t.span.start = k + 1) ↔
          ¬ ∃ t ∈ q.tokens line, t.span.start = k := by
        refine ⟨fun h hk => not_starts_of_starts hq hspecial hb hback hk h, ?_⟩
        intro hnot
        rcases starts_or_taken hq hspecial hb hp with hstarts | ⟨j, hj, _, htaken⟩
        · exact hstarts
        · obtain rfl : k = j := by omega
          exact absurd ⟨_, htaken, rfl⟩ hnot
      rw [halternate, hk, Line.backslashesBefore, if_pos hback, Nat.even_add_one]
    · rcases starts_or_taken hq hspecial hb hp with hstarts | ⟨j, hj, hback', _⟩
      · simp [Line.backslashesBefore, hback, hstarts]
      · obtain rfl : k = j := by omega
        exact absurd hback' hback

/-- In a line without NUL bytes, a byte that can close the text does so if the backslashes before it
are even in number, and otherwise it is taken by the last of them. -/
theorem closes_iff_even_backslashes (hq : q ∈ quotations) (hnul : 0 ∉ line.bytes)
    (hb : line.bytes[p]? = some q.closer) :
    (⟨q.closing, ⟨p, p + 1⟩⟩ ∈ ((Cursor.atStart line).tokens grammar q.mode).1 ↔
      Even (line.backslashesBefore p)) ∧
    (¬ Even (line.backslashesBefore p) → ∃ k, p = k + 1 ∧ line.bytes[k]? = some 0x5c ∧
      ⟨q.escape, ⟨k, k + 2⟩⟩ ∈ ((Cursor.atStart line).tokens grammar q.mode).1) := by
  have hp : p < line.textEnd := by
    rw [Line.textEnd_eq_size hnul]
    exact (Array.getElem?_eq_some_iff.1 hb).1
  have hspecial : q.closer ∈ q.specials := List.mem_cons_of_mem _ List.mem_cons_self
  have hstarts := starts_iff_even hq hspecial hb hp
  refine ⟨⟨fun h => hstarts.1 ⟨_, h, rfl⟩, ?_⟩, ?_⟩
  · intro heven
    obtain ⟨t, ht, rfl⟩ := hstarts.2 heven
    have hmatch := bestMatch_of_mem_tokens ht
    rw [bestMatch_closer hq hb] at hmatch
    obtain ⟨hterminal, hstop⟩ := Match.mk.inj hmatch
    rw [hterminal, hstop]
    exact ht
  · intro hodd
    exact (starts_or_taken hq hspecial hb hp).resolve_left fun h => hodd (hstarts.1 h)

/-- Behind two backslashes the quote closes the text, behind three it does not. -/
theorem closes_iff_even_backslashes_quote :
    ⟨.doubleQuoted, 0x22, .rightDoubleQuote, .litEscapedChar⟩ ∈ quotations ∧
      0 ∉ (Line.ofString "a\\\\\"b\\\\\\\"").bytes ∧
      ⟨.rightDoubleQuote, ⟨3, 4⟩⟩ ∈ ((Cursor.atStart
        (Line.ofString "a\\\\\"b\\\\\\\"")).tokens grammar .doubleQuoted).1 ∧
      ⟨.litEscapedChar, ⟨7, 9⟩⟩ ∈ ((Cursor.atStart
        (Line.ofString "a\\\\\"b\\\\\\\"")).tokens grammar .doubleQuoted).1 := by
  have hq : ⟨.doubleQuoted, 0x22, .rightDoubleQuote, .litEscapedChar⟩ ∈ quotations :=
    List.mem_cons_self
  have hnul : 0 ∉ (Line.ofString "a\\\\\"b\\\\\\\"").bytes := by decide +kernel
  have hfirst := closes_iff_even_backslashes (p := 3) hq hnul (by decide +kernel)
  have hlast := closes_iff_even_backslashes (p := 8) hq hnul (by decide +kernel)
  refine ⟨hq, hnul, hfirst.1.2 (by decide +kernel), ?_⟩
  obtain ⟨k, hk, _, htaken⟩ := hlast.2 (by decide +kernel)
  obtain rfl : k = 7 := by omega
  exact htaken

end Shell

end ShellTokens
