import ShellTokens.Proofs.Shell.Progress
import ShellTokens.Proofs.Table.States

/-!
# Escapes between single quotes after a dollar sign

Between single quotes after a dollar sign, a backslash begins the escapes of the C language: one
character, or the number of one in octal or hexadecimal digits. Each number has a greatest number of
digits, and it takes as many of those that stand there as it can. A backslash that begins none of
them is a token too, with the byte behind it if there is one. So the bytes from a position on tell
the token, without the order of rules.
-/

namespace ShellTokens.Shell

open Pattern

/-- The bytes that stand for one character behind a backslash: the letters `abeEfnrtv`, the
backslash, both quotes and the question mark. -/
def oneCharEscapes : List UInt8 :=
  [0x61, 0x62, 0x65, 0x45, 0x66, 0x6e, 0x72, 0x74, 0x76, 0x5c, 0x27, 0x22, 0x3f]

/-- The letters `x`, `u` and `U`, behind which the hexadecimal number of a character stands: the
terminal of the escape, and how many digits it takes at most. -/
def hexEscapes : List (UInt8 × Terminal × Nat) :=
  [(0x78, .charHex, 2), (0x75, .charUnicode4, 4), (0x55, .charUnicode8, 8)]

/-- The token of a backslash at `start` and `c`, a letter for hexadecimal digits, if `rest` are the
bytes behind them. Without a digit there the backslash begins no escape. -/
def hexToken (start : Nat) (terminal : Terminal) (most : Nat) (rest : List UInt8) : Match :=
  let digits := (rest.takeWhile ByteSet.hexDigit.contains).length
  if digits = 0 then ⟨.unknownBackslash, start + 2⟩ else ⟨terminal, start + 2 + min most digits⟩

/-- The token of the backslash at `start`, by the bytes behind it. -/
def escapeToken (start : Nat) : List UInt8 → Match
  | [] => ⟨.unknownBackslash, start + 1⟩
  | c :: rest =>
    if c = 0 then ⟨.unknownBackslash, start + 1⟩
    else if c ∈ oneCharEscapes then ⟨.charOneChar, start + 2⟩
    else if c = 0x63 then ⟨.charStop, start + 2⟩
    else if ByteSet.octalDigit.contains c then
      ⟨.charOctal,
        start + 1 + min 3 ((c :: rest).takeWhile ByteSet.octalDigit.contains).length⟩
    else
      match hexEscapes.lookup c with
      | some (terminal, most) => hexToken start terminal most rest
      | none => ⟨.unknownBackslash, start + 2⟩

/-- The token at `start`, by the bytes from there on. Plain text ends before a NUL byte, a single
quote and a backslash. -/
def ansiToken (start : Nat) : List UInt8 → Match
  | [] => ⟨.eolTok, start⟩
  | b :: rest =>
    if b = 0 then ⟨.eolTok, start⟩
    else if b = 0x27 then ⟨.rightSingleQuote, start + 1⟩
    else if b = 0x5c then escapeToken start rest
    else ⟨.litChars, start + ((b :: rest).takeWhile (· ∉ [0, 0x27, 0x5c])).length⟩

variable {line : Line} {input : Bytes} {start i : Nat} {b c : UInt8} {e : UInt8 × Terminal × Nat}

/-! ### The states of the table -/

/-- What is left behind a backslash. -/
def escapeTable : Table :=
  dollarSingleQuoted.next 0x5c

/-- What is left behind the letter before hexadecimal digits. -/
def hexTable (terminal : Terminal) (most : Nat) : Table where
  rules := [rule (times (oneOf .hexDigit) 1 (some most)) terminal]
  fallback := .unknownBackslash

/-- The bytes that begin no escape. -/
def unescapable : ByteSet :=
  (ByteSet.ofList (0 :: 0x63 :: oneCharEscapes ++ hexEscapes.map Prod.fst) ∪ .octalDigit).compl

theorem consistent_dollarSingleQuoted : dollarSingleQuoted.Consistent :=
  consistent_tableOf .dollarSingleQuoted

theorem consistent_escapeTable : escapeTable.Consistent :=
  consistent_dollarSingleQuoted.next 0x5c

theorem takes_backslash : dollarSingleQuoted.takes 0x5c = true := by
  decide

theorem firstBytes_dollarSingleQuoted :
    dollarSingleQuoted.firstBytes = .notNul ∧ escapeTable.firstBytes = .notNul := by
  decide

theorem moves_ansiPlain :
    dollarSingleQuoted.moves (plainExcept "'\\") (Table.run (plainExcept "'\\") .litChars) =
      true := by
  decide

theorem decided?_singleQuote : dollarSingleQuoted.decided? [0x27] = some .rightSingleQuote := by
  decide

theorem moves_oneChar :
    escapeTable.moves (.ofList oneCharEscapes) ⟨[], .charOneChar⟩ = true := by
  decide

theorem decided?_stop : escapeTable.decided? [0x63] = some .charStop := by
  decide

theorem moves_octalDigit :
    escapeTable.moves .octalDigit (Table.upTo .octalDigit 2 .charOctal) = true := by
  decide

theorem moves_unescapable : escapeTable.moves unescapable ⟨[], .unknownBackslash⟩ = true := by
  decide

theorem next_hexEscape : ∀ e ∈ hexEscapes,
    escapeTable.takes e.1 = true ∧ escapeTable.next e.1 = hexTable e.2.1 e.2.2 := by
  decide

theorem moves_hexTable : ∀ e ∈ hexEscapes, 0 < e.2.2 ∧
    (hexTable e.2.1 e.2.2).moves .hexDigit (Table.upTo .hexDigit (e.2.2 - 1) e.2.1) = true ∧
      (hexTable e.2.1 e.2.2).firstBytes = .hexDigit := by
  decide

/-! ### Behind a backslash -/

theorem bestMatch_hexTable (he : e ∈ hexEscapes) (input : Bytes) (start : Nat) :
    (hexTable e.2.1 e.2.2).bestMatch input (start + 2) =
      hexToken start e.2.1 e.2.2 (input.toList.drop (start + 2)) := by
  obtain ⟨hpos, hmoves, hfirst⟩ := moves_hexTable e he
  have hconsistent : (hexTable e.2.1 e.2.2).Consistent :=
    (next_hexEscape e he).2 ▸ consistent_escapeTable.next e.1
  cases hdigits : (input.toList.drop (start + 2)).takeWhile ByteSet.hexDigit.contains with
  | nil =>
    have hnone : (hexTable e.2.1 e.2.2).bestMatch input (start + 2) =
        ⟨.unknownBackslash, start + 2⟩ := by
      apply Table.bestMatch_of_not_firstBytes
      intro b hb
      rw [Bytes.drop_toList_of_getElem? hb, List.takeWhile_eq_nil_iff] at hdigits
      simpa [hfirst] using hdigits
    simp [hexToken, hdigits, hnone]
  | cons b digits =>
    have hspells : b :: digits <+: input.toList.drop (start + 2) :=
      hdigits ▸ List.takeWhile_prefix _
    have hdigit : ByteSet.hexDigit.contains b = true :=
      List.mem_takeWhile_imp (hdigits ▸ List.mem_cons_self)
    rw [Table.bestMatch_of_moves_upTo hconsistent hpos hmoves
      (Bytes.getElem?_of_cons_prefix hspells) hdigit, hdigits]
    simp [hexToken, hdigits]

theorem mem_unescapable (hnul : c ≠ 0) (hchar : c ∉ oneCharEscapes) (hstop : c ≠ 0x63)
    (hoctal : ByteSet.octalDigit.contains c = false) (hhex : hexEscapes.lookup c = none) :
    unescapable.contains c = true := by
  have hletters : c ∉ hexEscapes.map Prod.fst := by
    intro hmem
    obtain ⟨e, he, rfl⟩ := List.mem_map.1 hmem
    simpa using List.lookup_eq_none_iff.1 hhex e he
  simp [unescapable, hnul, hchar, hstop, hoctal, hletters]

theorem bestMatch_escapeTable (input : Bytes) (start : Nat) :
    escapeTable.bestMatch input (start + 1) =
      escapeToken start (input.toList.drop (start + 1)) := by
  cases hbyte : input[start + 1]? with
  | none =>
    rw [Bytes.drop_toList_of_getElem?_eq_none hbyte]
    exact Table.bestMatch_of_not_firstBytes (by simp [hbyte])
  | some c =>
    have hdrop := Bytes.drop_toList_of_getElem? hbyte
    rw [hdrop, escapeToken]
    split_ifs with hnul hchar hstop hoctal
    · subst hnul
      apply Table.bestMatch_of_not_firstBytes
      simp [hbyte, firstBytes_dollarSingleQuoted, ByteSet.notNul]
    · exact Table.bestMatch_of_moves consistent_escapeTable moves_oneChar hbyte (by simpa)
    · subst hstop
      exact Table.bestMatch_of_decided? consistent_escapeTable decided?_stop
        (hdrop ▸ List.prefix_append [0x63] _)
    · rw [← hdrop]
      exact Table.bestMatch_of_moves_upTo consistent_escapeTable (Nat.succ_pos 2) moves_octalDigit
        hbyte hoctal
    · split
      · next terminal most hhex =>
        obtain ⟨before, behind, hescapes, _⟩ := List.lookup_eq_some_iff.1 hhex
        have he : (c, terminal, most) ∈ hexEscapes := hescapes ▸ by simp
        obtain ⟨htakes, hstate⟩ := next_hexEscape _ he
        rw [Table.bestMatch_eq_next consistent_escapeTable hbyte htakes, hstate]
        exact bestMatch_hexTable he input start
      · next hhex =>
        have hother := mem_unescapable hnul hchar hstop (by simpa using hoctal) hhex
        exact Table.bestMatch_of_moves consistent_escapeTable moves_unescapable hbyte hother

/-! ### Anywhere -/

theorem contains_ansiPlain (b : UInt8) :
    (plainExcept "'\\").contains b = decide (b ∉ [0, 0x27, 0x5c]) := by
  have hbytes : "'\\".toUTF8.data.toList = [0x27, 0x5c] := by decide
  rw [plainExcept, hbytes, ByteSet.contains_noneOf]
  simp

theorem bestMatch_dollarSingleQuoted (input : Bytes) (start : Nat) :
    dollarSingleQuoted.bestMatch input start = ansiToken start (input.toList.drop start) := by
  cases hbyte : input[start]? with
  | none =>
    rw [Bytes.drop_toList_of_getElem?_eq_none hbyte]
    exact Table.bestMatch_of_not_firstBytes (by simp [hbyte])
  | some b =>
    have hdrop := Bytes.drop_toList_of_getElem? hbyte
    rw [hdrop, ansiToken]
    split_ifs with hnul hquote hback
    · subst hnul
      apply Table.bestMatch_of_not_firstBytes
      simp [hbyte, firstBytes_dollarSingleQuoted, ByteSet.notNul]
    · subst hquote
      exact Table.bestMatch_of_decided? consistent_dollarSingleQuoted decided?_singleQuote
        (hdrop ▸ List.prefix_append [0x27] _)
    · subst hback
      rw [Table.bestMatch_eq_next consistent_dollarSingleQuoted hbyte takes_backslash]
      exact bestMatch_escapeTable input start
    · have hplain : (plainExcept "'\\").contains b = true := by
        simp [contains_ansiPlain, hnul, hquote, hback]
      rw [Table.bestMatch_of_moves_run consistent_dollarSingleQuoted moves_ansiPlain hbyte hplain,
        hdrop, funext contains_ansiPlain]

/-- Between single quotes after a dollar sign, the bytes from a position on tell the token there. -/
theorem tokenAt_dollarSingleQuoted (hstart : start ≤ line.size) :
    grammar.tokenAt .dollarSingleQuoted line start =
      .ok (ansiToken start (line.bytes.toList.drop start)) := by
  rw [Grammar.tokenAt_eq_ok grammar .dollarSingleQuoted hstart]
  exact congrArg _ (bestMatch_dollarSingleQuoted line.bytes start)

/-- Four of five hexadecimal digits, and a letter without any. -/
theorem tokenAt_dollarSingleQuoted_digits :
    1 ≤ (⟨#[0x27, 0x5c, 0x75, 0x61, 0x46, 0x30, 0x39, 0x31]⟩ : Line).size ∧
      grammar.tokenAt .dollarSingleQuoted
        ⟨#[0x27, 0x5c, 0x75, 0x61, 0x46, 0x30, 0x39, 0x31]⟩ 1 = .ok ⟨.charUnicode4, 7⟩ ∧
      grammar.tokenAt .dollarSingleQuoted ⟨#[0x5c, 0x78, 0x67]⟩ 0 =
        .ok ⟨.unknownBackslash, 2⟩ := by
  have hstart : 1 ≤ (⟨#[0x27, 0x5c, 0x75, 0x61, 0x46, 0x30, 0x39, 0x31]⟩ : Line).size := by decide
  refine ⟨hstart, (tokenAt_dollarSingleQuoted hstart).trans ?_,
    (tokenAt_dollarSingleQuoted (Nat.zero_le _)).trans ?_⟩
  · decide
  · decide

end ShellTokens.Shell
