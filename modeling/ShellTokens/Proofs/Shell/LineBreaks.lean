import ShellTokens.Proofs.Lines
import ShellTokens.Proofs.Shell.Progress

/-!
# Line breaks in the shell's tokens

In the modes that read a command, a comment, a test, a glob or the inside of braces, a newline ends
the token in which it stands. So it makes no difference there whether a text is read as a whole or
line by line. Within quotes and in here-documents it does: plain text goes on behind a newline.
-/

namespace ShellTokens.Shell

variable {mode : Mode} {input : Bytes} {line : Line} {i j : Nat}

/-- The modes in which a newline ends a token. -/
def lineModes : List Mode :=
  [.command, .comment, .doubleBracket, .extGlob, .varSubName, .varSubOp, .regex]

theorem onlyLast_newline :
    ∀ mode ∈ lineModes, ∀ r ∈ (tableOf mode).rules, r.pattern.onlyLast 0x0a = true := by
  decide +kernel

/-! ### Single matches -/

theorem succ_eq_stop_of_newline (hmode : mode ∈ lineModes) (hij : i ≤ j)
    (hj : j < ((tableOf mode).bestMatch input i).stop) (hb : input[j]? = some 0x0a) :
    j + 1 = ((tableOf mode).bestMatch input i).stop := by
  have hbest := (tableOf mode).isBest_bestMatch input i
  obtain ⟨r, hr, _, he⟩ := hbest.exists_rule (Nat.lt_of_le_of_lt hij hj)
  have hwords : ∀ w ∈ r.pattern.language, (0x0a : UInt8) ∉ w.dropLast :=
    fun w hw => Pattern.not_mem_dropLast_of_mem (onlyLast_newline mode hmode r hr) hw
  exact (Pattern.spells_of_mem_ends he).succ_eq_of_getElem? hwords hij hj hb

theorem stopsWithin_of_newline (hmode : mode ∈ lineModes)
    (hlast : line.bytes.back? = some 0x0a) : (tableOf mode).StopsWithin line := by
  intro after i hi
  by_contra hlt
  have hb : (line.bytes ++ after)[line.size - 1]? = some 0x0a := by
    have hinside : line.size - 1 < line.bytes.size := Nat.sub_one_lt_of_lt hi
    rw [Array.getElem?_append_left hinside, Line.size, ← Array.back?_eq_getElem?]
    exact hlast
  have := succ_eq_stop_of_newline hmode (Nat.le_sub_one_of_lt hi) (by omega) hb
  omega

/-! ### Whole texts -/

theorem tokens_end (mode : Mode) (h : 0 ∉ line.bytes) :
    ((Cursor.atStart line).tokens grammar mode).2 = Cursor.atStop line := by
  rw [tokens_stop, Line.textEnd_eq_size h]
  rfl

/-- In these modes a newline is the last byte of its token, and reading a text without NUL bytes as
a whole gives the tokens of its lines one after the other. -/
theorem tokens_split (hmode : mode ∈ lineModes) (content : Bytes) :
    (∀ start found, grammar.tokenAt mode ⟨content⟩ start = .ok found →
      ∀ j, start ≤ j → j < found.stop → content[j]? = some 0x0a → j + 1 = found.stop) ∧
    (0 ∉ content → (Cursor.atStart ⟨content⟩).tokens grammar mode =
      (tokensOfLines grammar mode 0 (Line.split content), Cursor.atStop ⟨content⟩)) := by
  constructor
  · intro start found hfound j hij hj hb
    by_cases hstart : start ≤ Line.size ⟨content⟩
    · rw [Grammar.tokenAt_eq_ok grammar mode hstart] at hfound
      obtain rfl := Except.ok.inj hfound
      exact succ_eq_stop_of_newline hmode hij hj hb
    · have hsize := (Array.getElem?_eq_some_iff.1 hb).1
      exact absurd (Nat.le_trans hij (Nat.le_of_lt hsize)) hstart
  · intro hnul
    have hlines : ∀ line ∈ Line.split content,
        ((Cursor.atStart line).tokens grammar mode).2 = Cursor.atStop line := by
      intro line hline
      refine tokens_end mode fun hzero => hnul ?_
      rw [← Line.join_split content]
      exact Line.mem_join_of_mem hline hzero
    have hstop : ∀ line ∈ (Line.split content).dropLast, (grammar.table mode).StopsWithin line :=
      fun line hline => stopsWithin_of_newline hmode (Line.back?_of_mem_dropLast_split hline)
    have hlexes := Cursor.lexes_join hlines hstop
    rw [Line.join_split] at hlexes
    rw [Cursor.tokens_eq_iff (Nat.zero_le _)]
    exact ⟨hlexes, Cursor.isFallback_read_of_size_le rfl⟩

/-- An operator at the end of one line, the newline and a word on the next line. -/
theorem tokens_split_pipe :
    Mode.command ∈ lineModes ∧ 0 ∉ Bytes.ofString "ls |\nwc" ∧
      (∃ found, grammar.tokenAt .command ⟨Bytes.ofString "ls |\nwc"⟩ 4 = .ok found ∧
        4 < found.stop ∧ (Bytes.ofString "ls |\nwc")[4]? = some 0x0a ∧ 4 + 1 = found.stop) ∧
      (Cursor.atStart ⟨Bytes.ofString "ls |\nwc"⟩).tokens grammar .command =
        (tokensOfLines grammar .command 0 (Line.split (Bytes.ofString "ls |\nwc")),
          Cursor.atStop ⟨Bytes.ofString "ls |\nwc"⟩) := by
  have hmode : Mode.command ∈ lineModes := by decide
  have hnul : 0 ∉ Bytes.ofString "ls |\nwc" := by decide +kernel
  have hnewline : (Bytes.ofString "ls |\nwc")[4]? = some 0x0a := by decide +kernel
  have htoken : grammar.tokenAt .command ⟨Bytes.ofString "ls |\nwc"⟩ 4 = .ok ⟨.opNewline, 5⟩ := by
    decide +kernel
  obtain ⟨hlast, hsplit⟩ := tokens_split hmode (Bytes.ofString "ls |\nwc")
  have hstop := hlast 4 _ htoken 4 (Nat.le_refl 4) (by decide) hnewline
  exact ⟨hmode, hnul, ⟨_, htoken, by decide, hnewline, hstop⟩, hsplit hnul⟩

end ShellTokens.Shell
