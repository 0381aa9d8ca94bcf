import ShellTokens.CommandLine
import ShellTokens.Proofs.Report.FileReport

/-!
# What a report on a line consists of

The report on one line is a header, an entry for each token and one more for the place where reading
stopped. Only the quoted texts of the tokens can have characters that are not ASCII, and these stand
for themselves there, so that the report has no more of them than the texts.
-/

namespace ShellTokens

open CommandM

/-! ### Characters that are not ASCII -/

namespace Text

variable {d : Char} {l : List Char}

def Ascii (l : List Char) : Prop :=
  ∀ c ∈ l, c.toNat < 0x80

instance (l : List Char) : Decidable (Ascii l) :=
  List.decidableBAll (fun c : Char => c.toNat < 0x80) l

@[simp]
theorem ascii_nil : Ascii [] :=
  nofun

@[simp]
theorem ascii_cons {c : Char} : Ascii (c :: l) ↔ c.toNat < 0x80 ∧ Ascii l :=
  List.forall_mem_cons

@[simp]
theorem ascii_append {m : List Char} : Ascii (l ++ m) ↔ Ascii l ∧ Ascii m := by
  simp [Ascii, or_imp, forall_and]

theorem Ascii.count_eq_zero (h : Ascii l) (hd : 0x80 ≤ d.toNat) : l.count d = 0 :=
  List.count_eq_zero.2 fun hmem => Nat.not_le.2 (h d hmem) hd

theorem ascii_digitChar (n : Nat) : n.digitChar.toNat < 0x80 := by
  obtain hlt | hge := Nat.lt_or_ge n 16
  · have hdigits : ∀ n < 16, n.digitChar.toNat < 0x80 := by decide
    exact hdigits n hlt
  · rw [Nat.digitChar_eq_star.2 hge]
    decide

theorem ascii_toDigits {base : Nat} (hbase : 1 < base) (n : Nat) : Ascii (Nat.toDigits base n) := by
  induction n using Nat.strongRecOn with
  | ind n ih =>
    rw [Nat.toDigits_eq_if hbase]
    split
    · simp [ascii_digitChar]
    · have hlt : n / base < n := Nat.div_lt_self (by omega) hbase
      simp [ascii_digitChar, ih _ hlt]

@[simp]
theorem ascii_decimal (n : Nat) : Ascii (Nat.toDigits 10 n) :=
  ascii_toDigits (by decide) n

/-- A character is escaped as itself or in ASCII. -/
theorem escapeChar_eq_or_ascii (c : Char) : escapeChar c = [c] ∨ Ascii (escapeChar c) := by
  unfold escapeChar
  split
  · exact .inr (by decide)
  split
  · exact .inr (by decide)
  split
  · exact .inr (by decide)
  split
  · exact .inr (by decide)
  split
  · next hquoted => rcases hquoted with rfl | rfl <;> exact .inr (by decide)
  split
  · exact .inl rfl
  · have hhex : Ascii (Nat.toDigits 16 c.toNat) := ascii_toDigits (by decide) _
    exact .inr (ascii_append.2 ⟨ascii_append.2 ⟨by decide, hhex⟩, by decide⟩)

theorem count_flatMap_le {α : Type} {f g : α → List Char} (xs : List α)
    (h : ∀ x, (f x).count d ≤ (g x).count d) : (xs.flatMap f).count d ≤ (xs.flatMap g).count d := by
  induction xs with
  | nil => exact Nat.le_refl _
  | cons x xs ih => simpa using Nat.add_le_add (h x) ih

theorem count_quoted_le (hd : 0x80 ≤ d.toNat) (text : String) :
    (quoted text).toList.count d ≤ text.toList.count d := by
  have hquote : Ascii ['"'] := by decide
  have hchar : ∀ c, (escapeChar c).count d ≤ [c].count d := by
    intro c
    obtain heq | hascii := escapeChar_eq_or_ascii c
    · simp [heq]
    · simp [hascii.count_eq_zero hd]
  rw [quoted, String.toList_ofList, ← List.singleton_append, List.append_assoc, List.count_append,
    List.count_append, hquote.count_eq_zero hd, Nat.zero_add, Nat.add_zero]
  simpa using count_flatMap_le text.toList hchar

end Text

theorem Category.ascii_name (c : Category) : Text.Ascii c.name.toList := by
  cases c <;> decide

theorem Terminal.ascii_word (t : Terminal) : Text.Ascii t.word.toList := by
  cases t <;> decide

@[simp]
theorem Terminal.ascii_name (t : Terminal) : Text.Ascii t.name.toList := by
  simp [name, t.category.ascii_name, t.ascii_word]

@[simp]
theorem Mode.ascii_name (mode : Mode) : Text.Ascii mode.name.toList := by
  cases mode <;> decide

/-! ### The texts of the report -/

theorem toString_string (s : String) : toString s = s :=
  rfl

/-- The entry of a token in the report on its line. -/
def Token.lineEntry (t : Token) (line : Line) : String :=
  s!"  {t.terminal.name} @ {t.span.start}..{t.span.stop} {t.quotedText line}\n"

def stopEntry (pos : Nat) : String :=
  s!"  stopped at byte {pos}: no rule matches\n"

namespace LexedLine

def header (lexed : LexedLine) (mode : Mode) : String :=
  s!"Tokens in mode {mode.name} ({lexed.tokens.length} tokens):\n"

/-- The texts of the report on the line. -/
def texts (lexed : LexedLine) (mode : Mode) : List String :=
  lexed.header mode :: lexed.tokens.map (Token.lineEntry · lexed.line) ++
    (lexed.stopped?.map stopEntry).toList

end LexedLine

theorem reportLine_eq_writeAll (g : Grammar) (mode : Mode) (text : String) :
    reportLine g mode text = writeAll (((Line.ofString text).lex g mode).texts mode) := by
  rw [LexedLine.texts, List.cons_append, writeAll_cons, writeAll_append, ← forM_write_eq_writeAll]
  unfold reportLine
  dsimp only
  cases ((Line.ofString text).lex g mode).stopped? with
  | none => rfl
  | some pos =>
    rw [Option.map_some, Option.toList_some, writeAll_singleton]
    rfl

/-- What the program writes on the tokens of a line. -/
theorem run_lex {g : Grammar} {read : String → Except ReadError Bytes} {name text : String}
    {mode : Mode} (hname : Mode.ofName name = .ok mode) :
    Command.run g read (.lex name text) =
      ⟨0, Bytes.ofString (String.join (((Line.ofString text).lex g mode).texts mode)), ""⟩ := by
  have hmode : ((ofExcept (readMode name)) : CommandM Mode) = pure mode := by
    rw [readMode, hname]
    rfl
  rw [Command.run, hmode, pure_bind, reportLine_eq_writeAll, Command.outcomeOf, Sink.unbounded,
    runWith_writeAll, Array.empty_append]

/-! ### Where characters that are not ASCII come from -/

theorem ascii_stopEntry (pos : Nat) : Text.Ascii (stopEntry pos).toList := by
  unfold stopEntry
  simp [toString_string]

theorem LexedLine.ascii_header (lexed : LexedLine) (mode : Mode) :
    Text.Ascii (lexed.header mode).toList := by
  unfold header
  simp [toString_string]

variable {d : Char}

theorem Token.count_lineEntry (hd : 0x80 ≤ d.toNat) (t : Token) (line : Line) :
    (t.lineEntry line).toList.count d = (t.quotedText line).toList.count d := by
  have hbefore : Text.Ascii
      (s!"  {t.terminal.name} @ {t.span.start}..{t.span.stop} ").toList := by
    simp [toString_string]
  have hbehind : Text.Ascii "\n".toList := by decide
  unfold lineEntry
  rw [String.toList_append, String.toList_append, List.count_append, List.count_append,
    hbefore.count_eq_zero hd, toString_string, toString_string, hbehind.count_eq_zero hd,
    Nat.zero_add, Nat.add_zero]

/-- They come from the quoted texts only. -/
theorem LexedLine.count_texts (hd : 0x80 ≤ d.toNat) (lexed : LexedLine) (mode : Mode) :
    (String.join (lexed.texts mode)).toList.count d =
      (lexed.tokens.flatMap fun t => (t.quotedText lexed.line).toList).count d := by
  have hlast : ((lexed.stopped?.map stopEntry).toList.flatMap String.toList).count d = 0 := by
    cases lexed.stopped? with
    | none => simp
    | some pos => simp [(ascii_stopEntry pos).count_eq_zero hd]
  rw [texts, String.toList_join, List.cons_append, List.flatMap_cons, List.flatMap_append,
    List.count_append, List.count_append, (lexed.ascii_header mode).count_eq_zero hd, hlast,
    Nat.zero_add, Nat.add_zero, List.flatMap_map, List.count_flatMap, List.count_flatMap]
  simp only [Function.comp_def, Token.count_lineEntry hd]

end ShellTokens
