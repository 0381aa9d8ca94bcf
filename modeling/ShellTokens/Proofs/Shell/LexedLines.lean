import ShellTokens.LexedLine
import ShellTokens.Proofs.Cursor.Lexes
import ShellTokens.Proofs.Lines
import ShellTokens.Proofs.Report.FileReport
import ShellTokens.Proofs.Shell.Progress

/-!
# Lines and files of the shell

The tokens of a line make up its bytes before the first NUL byte, and there, if anywhere, reading
stops. So the entries of the report on a text without NUL bytes make up the text, and each line with
a NUL byte has one more entry, which tells where it stopped.
-/

namespace ShellTokens

/-! ### The first NUL byte -/

namespace Line

variable {line : Line} {p : Nat}

theorem head?_nulPositions_eq_some_iff :
    line.nulPositions.head? = some p ↔
      line.bytes[p]? = some 0 ∧ ∀ j < p, line.bytes[j]? ≠ some 0 := by
  rw [nulPositions_head?, List.find?_range_eq_some, List.mem_range]
  simp only [beq_iff_eq, Bool.not_eq_true', beq_eq_false_iff_ne]
  constructor
  · rintro ⟨hnul, _, hbefore⟩
    exact ⟨hnul, hbefore⟩
  · rintro ⟨hnul, hbefore⟩
    exact ⟨hnul, (Array.getElem?_eq_some_iff.1 hnul).1, hbefore⟩

/-- The text of a line goes up to its first NUL byte. -/
theorem take_textEnd (line : Line) :
    line.bytes.toList.take line.textEnd = line.bytes.toList.takeWhile (· ≠ 0) := by
  have htext : ∀ b ∈ line.bytes.toList.take line.textEnd, decide (b ≠ 0) = true := by
    intro b hb
    obtain ⟨i, hi, rfl⟩ := List.mem_take_iff_getElem.1 hb
    have hlt : i < line.textEnd := Nat.lt_of_lt_of_le hi (Nat.min_le_left _ _)
    obtain ⟨b, hbyte, hne⟩ := exists_byte_of_lt_textEnd hlt
    obtain ⟨_, rfl⟩ := Array.getElem?_eq_some_iff.1 hbyte
    exact decide_eq_true hne
  have hrest : (line.bytes.toList.drop line.textEnd).takeWhile (· ≠ 0) = [] := by
    cases hbyte : line.bytes[line.textEnd]? with
    | none => rw [Bytes.drop_toList_of_getElem?_eq_none hbyte, List.takeWhile_nil]
    | some b =>
      rw [Bytes.drop_toList_of_getElem? hbyte, eq_nul_of_getElem?_textEnd hbyte]
      rfl
  calc line.bytes.toList.take line.textEnd
      = line.bytes.toList.take line.textEnd ++
          (line.bytes.toList.drop line.textEnd).takeWhile (· ≠ 0) := by
        rw [hrest, List.append_nil]
    _ = (line.bytes.toList.take line.textEnd ++ line.bytes.toList.drop line.textEnd).takeWhile
          (· ≠ 0) := (List.takeWhile_append_of_pos htext).symm
    _ = line.bytes.toList.takeWhile (· ≠ 0) := by rw [List.take_append_drop]

end Line

namespace Shell

/-! ### One line -/

theorem stopped?_lex (mode : Mode) (line : Line) :
    (line.lex grammar mode).stopped? = line.nulPositions.head? := by
  have hstopped : (line.lex grammar mode).stopped? =
      if line.textEnd = line.size then none else some line.textEnd := by
    unfold Line.lex
    simp only [tokens_stop, Cursor.atEnd, beq_iff_eq]
  rw [hstopped]
  cases hnul : line.nulPositions.head? with
  | none =>
    have hend : line.textEnd = line.size := by rw [Line.textEnd, hnul, Option.getD_none]
    exact if_pos hend
  | some p =>
    have hend : line.textEnd = p := by rw [Line.textEnd, hnul, Option.getD_some]
    have hlt : p < line.size :=
      (Array.getElem?_eq_some_iff.1 (Line.head?_nulPositions_eq_some_iff.1 hnul).1).1
    rw [hend, if_neg (Nat.ne_of_lt hlt)]

theorem flatMap_text_lex (mode : Mode) (line : Line) :
    (line.lex grammar mode).tokens.flatMap (fun t => (t.text line).toList) =
      line.bytes.toList.takeWhile (· ≠ 0) := by
  have htiles := tiles_tokens mode line
  calc (line.lex grammar mode).tokens.flatMap (fun t => (t.text line).toList)
      = (line.bytes.toList.take line.textEnd).drop 0 := htiles.flatMap_text line.textEnd_le_size
    _ = line.bytes.toList.takeWhile (· ≠ 0) := by rw [List.drop_zero, line.take_textEnd]

/-! ### Files -/

/-- The entries of a file are about the texts of its lines. -/
theorem flatMap_bytes_fileEntries (mode : Mode) (content : Bytes) :
    (fileEntries grammar mode content).flatMap FileEntry.bytes =
      (Line.split content).flatMap fun line => line.bytes.toList.takeWhile (· ≠ 0) := by
  have hline : ∀ x : Line × Nat,
      ((x.1.lex grammar mode).entries x.2).flatMap FileEntry.bytes =
        x.1.bytes.toList.takeWhile (· ≠ 0) := by
    intro x
    rw [flatMap_bytes_entries]
    exact flatMap_text_lex mode x.1
  calc (fileEntries grammar mode content).flatMap FileEntry.bytes
      = ((Line.split content).zipIdx 1).flatMap fun x => x.1.bytes.toList.takeWhile (· ≠ 0) := by
        rw [fileEntries, List.flatMap_assoc]
        exact congrArg (List.flatMap · _) (funext hline)
    _ = (((Line.split content).zipIdx 1).map Prod.fst).flatMap fun line =>
          line.bytes.toList.takeWhile (· ≠ 0) := by rw [List.flatMap_map]
    _ = (Line.split content).flatMap fun line => line.bytes.toList.takeWhile (· ≠ 0) := by
        rw [List.zipIdx_map_fst]

theorem filterMap_stop?_fileEntries (mode : Mode) (content : Bytes) :
    (fileEntries grammar mode content).filterMap FileEntry.stop? =
      ((Line.split content).zipIdx 1).filterMap fun (line, number) =>
        line.nulPositions.head?.map fun pos => (number, pos) := by
  rw [fileEntries, List.filterMap_flatMap, List.filterMap_eq_flatMap_toList]
  refine congrArg (List.flatMap · _) (funext fun x => ?_)
  rw [filterMap_stop?_entries, stopped?_lex]

theorem flatMap_bytes_of_no_nul (mode : Mode) {content : Bytes} (h : 0 ∉ content) :
    (fileEntries grammar mode content).flatMap FileEntry.bytes = content.toList := by
  have hline : ∀ line ∈ Line.split content,
      line.bytes.toList.takeWhile (· ≠ 0) = line.bytes.toList := by
    intro line hline
    rw [List.takeWhile_eq_self_iff]
    intro b hb
    apply decide_eq_true
    rintro rfl
    apply h
    rw [← Line.join_split content]
    exact Line.mem_join_of_mem hline (Array.mem_toList_iff.1 hb)
  calc (fileEntries grammar mode content).flatMap FileEntry.bytes
      = (Line.split content).flatMap fun line => line.bytes.toList := by
        rw [flatMap_bytes_fileEntries]
        exact List.flatMap_congr hline
    _ = content.toList := by
        rw [List.flatMap_def, ← Line.toList_join, Line.join_split]

/-- Splitting a file into lines, reading the lines and reporting the tokens lose nothing and add
nothing. The lines make up the file; the tokens of a line make up its bytes before the first NUL
byte, and only there it stops. What is written are the header, the entries and, if it is asked for,
the histogram. The entries make up a file without NUL bytes, and there is one stop for each line
with a NUL byte. -/
theorem fileEntries_lose_nothing (mode : Mode) (content : Bytes) :
    (Line.join (Line.split content) = content ∧
      (∀ line ∈ Line.split content, line.bytes ≠ #[] ∧ 0x0a ∉ line.bytes.toList.dropLast) ∧
      ∀ line ∈ (Line.split content).dropLast, line.bytes.back? = some 0x0a) ∧
    (∀ line ∈ Line.split content,
      (line.lex grammar mode).tokens = ((Cursor.atStart line).tokens grammar mode).1 ∧
      (line.lex grammar mode).tokens.flatMap (fun t => (t.text line).toList) =
        line.bytes.toList.takeWhile (· ≠ 0) ∧
      ∀ p, (line.lex grammar mode).stopped? = some p ↔
        line.bytes[p]? = some 0 ∧ ∀ j < p, line.bytes[j]? ≠ some 0) ∧
    (∀ read path options, read path = .ok content → options.mode = mode →
      (reportFile grammar read path options).runWith .unbounded =
        (.ok (), ⟨Bytes.ofString (String.join
          (fileHeader grammar path mode content ::
            (fileEntries grammar mode content).map FileEntry.text ++
            if options.stats then histogramTexts (fileTokens grammar mode content) else [])),
          none⟩)) ∧
    (0 ∉ content → (fileEntries grammar mode content).flatMap FileEntry.bytes = content.toList) ∧
    (fileEntries grammar mode content).filterMap FileEntry.stop? =
      ((Line.split content).zipIdx 1).filterMap fun (line, number) =>
        line.nulPositions.head?.map fun pos => (number, pos) := by
  refine ⟨⟨Line.join_split content, fun line => Line.newline_only_last_of_mem_split,
    fun line => Line.back?_of_mem_dropLast_split⟩, ?_, ?_, flatMap_bytes_of_no_nul mode,
    filterMap_stop?_fileEntries mode content⟩
  · intro line _
    refine ⟨rfl, flatMap_text_lex mode line, ?_⟩
    intro p
    rw [stopped?_lex, Line.head?_nulPositions_eq_some_iff]
  · rintro read path options hread rfl
    exact runWith_reportFile hread

/-- Two lines without NUL bytes, and a file with a newline behind a NUL byte, which is not read. -/
theorem fileEntries_lose_nothing_nul :
    (0 ∉ Bytes.ofString "ls |\nwc" ∧
      (fileEntries grammar .command (Bytes.ofString "ls |\nwc")).flatMap FileEntry.bytes =
        (Bytes.ofString "ls |\nwc").toList) ∧
    (fileEntries grammar .command (Bytes.ofString "a\x00\nb")).filterMap FileEntry.stop? =
      [(1, 1)] ∧
    (reportFile grammar (fun _ => .ok (Bytes.ofString "a\x00\nb")) "f" {}).runWith .unbounded =
      (.ok (), ⟨Bytes.ofString ("Tokens for 'f' (2 tokens, 2 lines, mode ShCommand):\n" ++
        "  1:0..1 Lit_Chars \"a\"\n" ++ "  1:1 stopped: no rule matches\n" ++
        "  2:0..1 Lit_Chars \"b\"\n"), none⟩) := by
  have hnul : 0 ∉ Bytes.ofString "ls |\nwc" := by decide +kernel
  obtain ⟨_, _, _, hbytes, _⟩ := fileEntries_lose_nothing .command (Bytes.ofString "ls |\nwc")
  obtain ⟨_, _, hreport, _, hstops⟩ :=
    fileEntries_lose_nothing .command (Bytes.ofString "a\x00\nb")
  refine ⟨⟨hnul, hbytes hnul⟩, ?_, ?_⟩
  · rw [hstops]
    decide +kernel
  · rw [hreport (fun _ => .ok (Bytes.ofString "a\x00\nb")) "f" {} rfl rfl]
    decide +kernel

end Shell

end ShellTokens
