import ShellTokens.Proofs.Shell.Progress
import ShellTokens.Proofs.Table.States

/-!
# Escaped text within double quotes

A text is put between double quotes by a backslash before each byte that has a meaning of its own
there. Whatever the text is, none of its bytes begins a substitution, a variable or a continuation
of the line then, the quote behind it is the closing one, and the tokens spell the text: plain text
stands for itself and an escape for its second byte.
-/

namespace ShellTokens.Shell

open Pattern

/-- The bytes with a meaning of their own within double quotes: dollar sign, backquote, double
quote and backslash. -/
def quotedSpecials : List UInt8 :=
  [0x24, 0x60, 0x22, 0x5c]

/-- The bytes of plain text within double quotes. -/
def quotedPlain : ByteSet :=
  plainExcept "$`\"\\"

/-- The text with a backslash before each byte that has a meaning of its own. -/
def escape (s : List UInt8) : List UInt8 :=
  s.flatMap fun b => if b ∈ quotedSpecials then [0x5c, b] else [b]

/-- The escaped text and the quote that closes it. -/
def quotedLine (s : List UInt8) : Line :=
  ⟨(escape s ++ [0x22]).toArray⟩

/-- The token of the quote that closes the escaped text. -/
def closingQuote (s : List UInt8) : Token :=
  ⟨.rightDoubleQuote, ⟨(escape s).length, (quotedLine s).size⟩⟩

/-- The part of the text that a token stands for. -/
def unescaped (line : Line) (t : Token) : List UInt8 :=
  match t.terminal with
  | .litChars => (t.text line).toList
  | .litEscapedChar => (t.text line)[1]?.toList
  | _ => []

variable {line : Line} {s s' w : List UInt8} {i j k : Nat} {b : UInt8}
  {tokens tokens' : List Token}

/-! ### Facts about the table -/

theorem consistent_doubleQuoted : doubleQuoted.Consistent :=
  consistent_tableOf .doubleQuoted

theorem moves_quotedPlain :
    doubleQuoted.moves quotedPlain (Table.run quotedPlain .litChars) = true := by
  decide

theorem decided?_quotedSpecials :
    ∀ b ∈ quotedSpecials, doubleQuoted.decided? [0x5c, b] = some .litEscapedChar := by
  decide +kernel

theorem decided?_closingQuote : doubleQuoted.decided? [0x22] = some .rightDoubleQuote := by
  decide

theorem contains_quotedPlain : quotedPlain.contains b = true ↔ b ≠ 0 ∧ b ∉ quotedSpecials := by
  have hbytes : "$`\"\\".toUTF8.data.toList = quotedSpecials := by decide
  rw [quotedPlain, plainExcept, hbytes, ByteSet.contains_noneOf]
  simp

/-! ### Escaped text -/

theorem escape_cons_of_special (hb : b ∈ quotedSpecials) :
    escape (b :: s) = 0x5c :: b :: escape s := by
  simp [escape, hb]

theorem escape_cons_of_plain (hb : b ∉ quotedSpecials) : escape (b :: s) = b :: escape s := by
  simp [escape, hb]

theorem escape_append (s s' : List UInt8) : escape (s ++ s') = escape s ++ escape s' :=
  List.flatMap_append

theorem escape_of_plain (h : ∀ b ∈ s, quotedPlain.contains b = true) : escape s = s := by
  induction s with
  | nil => rfl
  | cons b s ih =>
    obtain ⟨hb, h⟩ := List.forall_mem_cons.1 h
    rw [escape_cons_of_plain (contains_quotedPlain.1 hb).2, ih h]

/-- Plain text ends in the escaped text where it ends in the text. -/
theorem takeWhile_escape (s : List UInt8) :
    (escape s ++ [0x22]).takeWhile quotedPlain.contains = s.takeWhile quotedPlain.contains := by
  induction s with
  | nil => decide
  | cons b s ih =>
    by_cases hspecial : b ∈ quotedSpecials
    · have hback : ¬ quotedPlain.contains 0x5c = true := by decide
      have hb : ¬ quotedPlain.contains b = true := fun h => (contains_quotedPlain.1 h).2 hspecial
      rw [escape_cons_of_special hspecial, List.cons_append, List.takeWhile_cons_of_neg hback,
        List.takeWhile_cons_of_neg hb]
    · rw [escape_cons_of_plain hspecial, List.cons_append, List.takeWhile_cons, ih,
        List.takeWhile_cons]

/-- A text that begins with plain text is its longest run of plain text and a shorter text. -/
theorem exists_plain_run (hb : quotedPlain.contains b = true) (s : List UInt8) :
    ∃ run rest, b :: s = run ++ rest ∧ run ≠ [] ∧ rest.length ≤ s.length ∧
      (∀ a ∈ run, quotedPlain.contains a = true) ∧
      (escape (b :: s) ++ [0x22]).takeWhile quotedPlain.contains = run := by
  refine ⟨_, _, (List.takeWhile_append_dropWhile (p := quotedPlain.contains)).symm, ?_, ?_,
    fun a ha => List.mem_takeWhile_imp ha, takeWhile_escape (b :: s)⟩
  · rw [List.takeWhile_cons_of_pos hb]
    exact List.cons_ne_nil _ _
  · rw [List.dropWhile_cons_of_pos hb]
    exact List.length_dropWhile_le _ _

/-! ### Reading it -/

/-- The tokens from position `i` up to position `j` are plain text and escapes that stand for the
text `s`. -/
structure Decodes (line : Line) (i j : Nat) (tokens : List Token) (s : List UInt8) : Prop where
  lexes : Cursor.Lexes grammar .doubleQuoted ⟨line, i⟩ tokens ⟨line, j⟩
  terminal : ∀ t ∈ tokens, t.terminal = .litChars ∨ t.terminal = .litEscapedChar
  unescaped : tokens.flatMap (unescaped line) = s

theorem Decodes.nil (line : Line) (i : Nat) : Decodes line i i [] [] where
  lexes := .done _
  terminal := by simp
  unescaped := rfl

theorem Decodes.append (h : Decodes line i j tokens s) (h' : Decodes line j k tokens' s') :
    Decodes line i k (tokens ++ tokens') (s ++ s') where
  lexes := h.lexes.trans h'.lexes
  terminal t ht := (List.mem_append.1 ht).elim (h.terminal t) (h'.terminal t)
  unescaped := by rw [List.flatMap_append, h.unescaped, h'.unescaped]

theorem decodes_plain (hw : w ≠ []) (hplain : ∀ b ∈ w, quotedPlain.contains b = true)
    (hi : i ≤ line.size) (hspells : w <+: line.bytes.toList.drop i)
    (hrun : (line.bytes.toList.drop i).takeWhile quotedPlain.contains = w) :
    Decodes line i (i + w.length) [⟨.litChars, ⟨i, i + w.length⟩⟩] w where
  lexes := by
    obtain ⟨b, w, rfl⟩ := List.exists_cons_of_ne_nil hw
    have hb := Bytes.getElem?_of_cons_prefix hspells
    have hmatch := Table.bestMatch_of_moves_run consistent_doubleQuoted moves_quotedPlain hb
      (hplain b List.mem_cons_self)
    rw [hrun] at hmatch
    exact Cursor.lexes_of_bestMatch hmatch (by simp)
  terminal := by simp
  unescaped := by simp [Shell.unescaped, Token.toList_text_of_prefix hspells hi]

theorem decodes_escape_pair (hb : b ∈ quotedSpecials) (hi : i ≤ line.size)
    (hspells : [0x5c, b] <+: line.bytes.toList.drop i) :
    Decodes line i (i + 2) [⟨.litEscapedChar, ⟨i, i + 2⟩⟩] [b] where
  lexes := by
    have hmatch := Table.bestMatch_of_decided? consistent_doubleQuoted
      (decided?_quotedSpecials b hb) hspells
    exact Cursor.lexes_of_bestMatch hmatch (by simp)
  terminal := by simp
  unescaped := by
    have htext : ((⟨.litEscapedChar, ⟨i, i + 2⟩⟩ : Token).text line).toList = [0x5c, b] :=
      Token.toList_text_of_prefix hspells hi
    simp [Shell.unescaped, ← Array.getElem?_toList, htext]

theorem exists_decodes_escape : ∀ s : List UInt8, 0 ∉ s → ∀ {i : Nat}, i ≤ line.size →
    line.bytes.toList.drop i = escape s ++ [0x22] →
    ∃ tokens, Decodes line i (i + (escape s).length) tokens s
  | [], _, i, _, _ => ⟨[], .nil line i⟩
  | b :: s, hs, i, hi, hdrop => by
    have hnul : b ≠ 0 ∧ 0 ∉ s := by simpa [eq_comm] using hs
    by_cases hspecial : b ∈ quotedSpecials
    · rw [escape_cons_of_special hspecial] at hdrop ⊢
      have hspells : [0x5c, b] <+: line.bytes.toList.drop i := ⟨_, hdrop.symm⟩
      have hstop : i + 2 ≤ line.size := (Bytes.spells_word.2 ⟨hspells, rfl⟩).le_size hi
      have hrest : line.bytes.toList.drop (i + 2) = escape s ++ [0x22] := by
        rw [← List.drop_drop, hdrop]
        rfl
      obtain ⟨tokens, htokens⟩ := exists_decodes_escape s hnul.2 hstop hrest
      have hboth := (decodes_escape_pair hspecial hi hspells).append htokens
      rw [Nat.add_assoc, Nat.add_comm 2] at hboth
      exact ⟨_, hboth⟩
    · obtain ⟨run, rest, hsplit, hne, hshorter, hplain, hrun⟩ :=
        exists_plain_run (contains_quotedPlain.2 ⟨hnul.1, hspecial⟩) s
      rw [← hdrop] at hrun
      rw [hsplit, escape_append, escape_of_plain hplain] at hdrop ⊢
      have hspells : run <+: line.bytes.toList.drop i := by
        rw [hdrop, List.append_assoc]
        exact List.prefix_append _ _
      have hstop : i + run.length ≤ line.size := (Bytes.spells_word.2 ⟨hspells, rfl⟩).le_size hi
      have hrest : line.bytes.toList.drop (i + run.length) = escape rest ++ [0x22] := by
        rw [← List.drop_drop, hdrop, List.append_assoc, List.drop_left]
      have hnul' : 0 ∉ rest := fun h => hs (hsplit ▸ List.mem_append_right run h)
      obtain ⟨tokens, htokens⟩ := exists_decodes_escape rest hnul' hstop hrest
      have hboth := (decodes_plain hne hplain hi hspells hrun).append htokens
      rw [Nat.add_assoc, ← List.length_append] at hboth
      exact ⟨_, hboth⟩
termination_by s => s.length

theorem bestMatch_closingQuote (hdrop : line.bytes.toList.drop i = [0x22]) :
    doubleQuoted.bestMatch line.bytes i = ⟨.rightDoubleQuote, i + 1⟩ := by
  have hspells : [0x22] <+: line.bytes.toList.drop i := ⟨[], hdrop.symm⟩
  exact Table.bestMatch_of_decided? consistent_doubleQuoted decided?_closingQuote hspells

theorem size_quotedLine (s : List UInt8) : (quotedLine s).size = (escape s).length + 1 := by
  simp [quotedLine, Line.size]

/-- Between double quotes an escaped text is read to its end, as plain text and escapes that spell
the text, and the quote behind it closes it. -/
theorem tokens_quotedLine (s : List UInt8) (hs : 0 ∉ s) :
    ∃ tokens, (Cursor.atStart (quotedLine s)).tokens grammar .doubleQuoted =
        (tokens ++ [closingQuote s], ⟨quotedLine s, (quotedLine s).size⟩) ∧
      Span.Tiles ((tokens ++ [closingQuote s]).map Token.span) 0 (quotedLine s).size ∧
      (∀ t ∈ tokens, t.terminal = .litChars ∨ t.terminal = .litEscapedChar) ∧
      tokens.flatMap (unescaped (quotedLine s)) = s := by
  have hdrop : (quotedLine s).bytes.toList.drop 0 = escape s ++ [0x22] := rfl
  obtain ⟨tokens, htokens⟩ := exists_decodes_escape s hs (Nat.zero_le _) hdrop
  rw [Nat.zero_add] at htokens
  have hclosing : (quotedLine s).bytes.toList.drop (escape s).length = [0x22] := by
    simp [quotedLine]
  have hquote : Cursor.Lexes grammar .doubleQuoted ⟨quotedLine s, (escape s).length⟩
      [⟨.rightDoubleQuote, ⟨(escape s).length, (escape s).length + 1⟩⟩]
      ⟨quotedLine s, (escape s).length + 1⟩ :=
    Cursor.lexes_of_bestMatch (bestMatch_closingQuote hclosing) (Nat.lt_succ_self _)
  have hlexes := htokens.lexes.trans hquote
  rw [← size_quotedLine] at hlexes
  refine ⟨tokens, ?_, hlexes.tiles, htokens.terminal, htokens.unescaped⟩
  exact (Cursor.tokens_eq_iff (Nat.zero_le _)).2 ⟨hlexes, Cursor.isFallback_read_of_size_le rfl⟩

/-- A backslash before the end of a line, a dollar sign before a name, a backslash at the end. -/
theorem tokens_quotedLine_backslash :
    (0 : UInt8) ∉ [0x5c, 0x0a, 0x24, 0x78, 0x5c] ∧
      ∃ tokens, (Cursor.atStart (quotedLine [0x5c, 0x0a, 0x24, 0x78, 0x5c])).tokens grammar
          .doubleQuoted = (tokens ++ [⟨.rightDoubleQuote, ⟨8, 9⟩⟩],
            ⟨quotedLine [0x5c, 0x0a, 0x24, 0x78, 0x5c], 9⟩) ∧
        (∀ t ∈ tokens, t.terminal = .litChars ∨ t.terminal = .litEscapedChar) ∧
        tokens.flatMap (unescaped (quotedLine [0x5c, 0x0a, 0x24, 0x78, 0x5c])) =
          [0x5c, 0x0a, 0x24, 0x78, 0x5c] := by
  have hs : (0 : UInt8) ∉ [0x5c, 0x0a, 0x24, 0x78, 0x5c] := by decide
  obtain ⟨tokens, htokens, _, hterminal, htext⟩ :=
    tokens_quotedLine [0x5c, 0x0a, 0x24, 0x78, 0x5c] hs
  exact ⟨hs, tokens, htokens, hterminal, htext⟩

end ShellTokens.Shell
