import ShellTokens.Report.Commands

/-!
# What a report on a file consists of

The report on a file is a list of texts, written one after the other: a header, for each line the
entries of its tokens and of the place where it stopped, and the histogram if it is asked for. A
sink without bounds takes all of them.
-/

namespace ShellTokens

theorem Bytes.ofString_append (s t : String) :
    Bytes.ofString (s ++ t) = Bytes.ofString s ++ Bytes.ofString t := by
  simp [Bytes.ofString]

namespace CommandM

/-- Writes the texts one after the other, up to the first write that fails. -/
def writeAll (texts : List String) : CommandM Unit :=
  texts.forM write

theorem writeAll_cons (text : String) (texts : List String) :
    writeAll (text :: texts) = (do write text; writeAll texts) :=
  List.forM_cons

theorem writeAll_append (texts more : List String) :
    writeAll (texts ++ more) = (do writeAll texts; writeAll more) :=
  List.forM_append

theorem writeAll_singleton (text : String) : writeAll [text] = write text := by
  rw [writeAll_cons]
  exact bind_pure (write text)

theorem forM_write_eq_writeAll {α : Type} (xs : List α) (text : α → String) :
    (xs.forM fun x => write (text x)) = writeAll (xs.map text) :=
  List.forM_map.symm

theorem forM_eq_writeAll {α : Type} {xs : List α} {f : α → CommandM Unit} {texts : α → List String}
    (h : ∀ x ∈ xs, f x = writeAll (texts x)) : xs.forM f = writeAll (xs.flatMap texts) := by
  induction xs with
  | nil => rfl
  | cons x xs ih =>
    obtain ⟨hx, hxs⟩ := List.forall_mem_cons.1 h
    rw [List.flatMap_cons, writeAll_append, ← hx, ← ih hxs]
    exact List.forM_cons

/-- What a sink without bounds holds after the texts are written. -/
theorem runWith_writeAll (texts : List String) (written : Bytes) :
    (writeAll texts).runWith ⟨written, none⟩ =
      (.ok (), ⟨written ++ Bytes.ofString (String.join texts), none⟩) := by
  induction texts generalizing written with
  | nil =>
    have hempty : Bytes.ofString (String.join []) = #[] := rfl
    rw [hempty, Array.append_empty]
    rfl
  | cons text texts ih =>
    rw [writeAll_cons, String.join_cons, Bytes.ofString_append, ← Array.append_assoc, ← ih]
    rfl

end CommandM

open CommandM

/-! ### Entries -/

/-- An entry of the report on a file: a token of a line, or the place where the line stopped. -/
inductive FileEntry where
  | token (number : Nat) (line : Line) (t : Token)
  | stopped (number pos : Nat)
deriving DecidableEq, Repr

namespace FileEntry

/-- The entry as it is written. -/
def text : FileEntry → String
  | token number line t =>
    s!"  {number}:{t.span.start}..{t.span.stop} {t.terminal.name} {t.quotedText line}\n"
  | stopped number pos => s!"  {number}:{pos} stopped: no rule matches\n"

/-- The bytes of the file that the entry is about. -/
def bytes : FileEntry → List UInt8
  | token _ line t => (t.text line).toList
  | stopped _ _ => []

/-- The number of the line and the position at which it stopped. -/
def stop? : FileEntry → Option (Nat × Nat)
  | token _ _ _ => none
  | stopped number pos => some (number, pos)

end FileEntry

/-- The entries of one line. -/
def LexedLine.entries (lexed : LexedLine) (number : Nat) : List FileEntry :=
  lexed.tokens.map (.token number lexed.line) ++
    (lexed.stopped?.map (FileEntry.stopped number)).toList

theorem flatMap_bytes_entries (lexed : LexedLine) (number : Nat) :
    (lexed.entries number).flatMap FileEntry.bytes =
      lexed.tokens.flatMap fun t => (t.text lexed.line).toList := by
  rw [LexedLine.entries, List.flatMap_append, List.flatMap_map]
  cases lexed.stopped? with
  | none => simp [FileEntry.bytes]
  | some pos => simp [FileEntry.bytes]

theorem filterMap_stop?_entries (lexed : LexedLine) (number : Nat) :
    (lexed.entries number).filterMap FileEntry.stop? =
      (lexed.stopped?.map fun pos => (number, pos)).toList := by
  rw [LexedLine.entries, List.filterMap_append, List.filterMap_map]
  cases lexed.stopped? with
  | none => simp [FileEntry.stop?, Function.comp_def]
  | some pos => simp [FileEntry.stop?, Function.comp_def]

/-- The entries of all lines of a file, which are counted from one. -/
def fileEntries (g : Grammar) (mode : Mode) (content : Bytes) : List FileEntry :=
  ((Line.split content).zipIdx 1).flatMap fun (line, number) => (line.lex g mode).entries number

theorem reportLexedLine_eq (number : Nat) (lexed : LexedLine) :
    reportLexedLine number lexed = writeAll ((lexed.entries number).map FileEntry.text) := by
  rw [LexedLine.entries, List.map_append, writeAll_append, List.map_map]
  unfold reportLexedLine
  rw [forM_write_eq_writeAll]
  cases lexed.stopped? with
  | none => rfl
  | some pos =>
    rw [Option.map_some, Option.toList_some, List.map_singleton, writeAll_singleton]
    rfl

theorem forM_reportLexedLine (g : Grammar) (mode : Mode) (content : Bytes) :
    ((((Line.split content).map fun line => line.lex g mode).zipIdx 1).forM
        fun (lexed, number) => reportLexedLine number lexed) =
      writeAll ((fileEntries g mode content).map FileEntry.text) := by
  rw [forM_eq_writeAll fun x _ => reportLexedLine_eq x.2 x.1, fileEntries, List.zipIdx_map,
    List.flatMap_map, List.map_flatMap]
  rfl

/-! ### The whole report -/

def fileTokens (g : Grammar) (mode : Mode) (content : Bytes) : List Token :=
  (Line.split content).flatMap fun line => (line.lex g mode).tokens

def fileHeader (g : Grammar) (path : String) (mode : Mode) (content : Bytes) : String :=
  let tokens := (fileTokens g mode content).length
  let counts := s!"{tokens} tokens, {(Line.split content).length} lines, mode {mode.name}"
  s!"Tokens for '{path}' ({counts}):\n"

def histogramTexts (tokens : List Token) : List String :=
  "Token kinds:\n" :: (histogram tokens).map fun (c, n) => s!"  {Text.padRight 12 c.name} {n}\n"

theorem reportHistogram_eq (tokens : List Token) :
    reportHistogram tokens = writeAll (histogramTexts tokens) := by
  rw [histogramTexts, writeAll_cons, ← forM_write_eq_writeAll]
  rfl

/-- The texts of the report on a file with these contents. -/
def fileTexts (g : Grammar) (path : String) (options : FileOptions) (content : Bytes) :
    List String :=
  fileHeader g path options.mode content ::
    (fileEntries g options.mode content).map FileEntry.text ++
      if options.stats then histogramTexts (fileTokens g options.mode content) else []

variable {g : Grammar} {read : String → Except ReadError Bytes} {path : String}
  {options : FileOptions} {content : Bytes}

/-- A file that can be read is reported by writing the texts. -/
theorem reportFile_eq_writeAll (hread : read path = .ok content) :
    reportFile g read path options = writeAll (fileTexts g path options content) := by
  have hcontent : ((ofExcept ((read path).mapError (CommandError.unreadable path))) :
      CommandM Bytes) = pure content := by
    rw [hread]
    rfl
  have htokens : (((Line.split content).map fun line => line.lex g options.mode).flatMap
      fun lexed => lexed.tokens) = fileTokens g options.mode content :=
    List.flatMap_map _ _ _
  unfold reportFile
  rw [hcontent, pure_bind]
  dsimp only
  rw [forM_reportLexedLine, htokens, List.length_map, fileTexts, List.cons_append, writeAll_cons,
    writeAll_append]
  cases options.stats with
  | true =>
    rw [if_pos rfl, if_pos rfl, reportHistogram_eq]
    rfl
  | false => rfl

/-- A sink without bounds takes the whole report. -/
theorem runWith_reportFile (hread : read path = .ok content) :
    (reportFile g read path options).runWith .unbounded =
      (.ok (), ⟨Bytes.ofString (String.join (fileTexts g path options content)), none⟩) := by
  rw [reportFile_eq_writeAll hread, Sink.unbounded, runWith_writeAll, Array.empty_append]

end ShellTokens
