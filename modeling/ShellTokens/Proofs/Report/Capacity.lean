import ShellTokens.Proofs.Report.LineReport

/-!
# Reports that do not fit

A command finds out all that can be wrong with its input before it writes. From then on only a write
can fail, and it ends the command: what a bounded sink holds then is as much of the whole report as
there is room for.
-/

namespace ShellTokens

namespace Bytes

variable {input more : Bytes} {n : Nat}

theorem take_of_size_le (h : input.size ≤ n) : input.take n = input := by
  rw [← Array.toList_inj, toList_take]
  exact List.take_of_length_le h

theorem take_append_of_size_le (h : input.size ≤ n) :
    (input ++ more).take n = input ++ more.take (n - input.size) := by
  rw [← Array.toList_inj, toList_take, Array.toList_append, Array.toList_append, toList_take,
    List.take_append, List.take_of_length_le h, Array.length_toList]

theorem take_append_of_le_size (h : n ≤ input.size) : (input ++ more).take n = input.take n := by
  rw [← Array.toList_inj, toList_take, toList_take, Array.toList_append]
  exact List.take_append_of_le_length h

end Bytes

namespace CommandM

/-! ### One step after the other -/

section Bind

variable {α β : Type} {first : CommandM α} {next : α → CommandM β} {sink sink' : Sink}

theorem runWith_bind_of_ok {a : α} (h : first.runWith sink = (.ok a, sink')) :
    (first >>= next).runWith sink = (next a).runWith sink' := by
  rw [runWith] at h ⊢
  rw [ExceptT.run_bind, StateT.run_bind, h]
  rfl

theorem runWith_bind_of_error {e : CommandError} (h : first.runWith sink = (.error e, sink')) :
    (first >>= next).runWith sink = (.error e, sink') := by
  rw [runWith] at h ⊢
  rw [ExceptT.run_bind, StateT.run_bind, h]
  rfl

end Bind

theorem runWith_write {text : String} {sink sink' : Sink} {fits : Bool}
    (h : sink.write (Bytes.ofString text) = (fits, sink')) :
    (write text).runWith sink = (if fits then .ok () else .error .outputFull, sink') := by
  have hmodify : (modifyGet fun sink : Sink => sink.write (Bytes.ofString text) :
      CommandM Bool).runWith sink = (.ok fits, sink') := by
    change (Except.ok (sink.write _).1, (sink.write _).2) = _
    rw [h]
  rw [write, runWith_bind_of_ok hmodify]
  cases fits with
  | true => rfl
  | false => rfl

/-! ### Writing to a bounded sink -/

/-- What writing all these bytes comes to if there is room for `n`, and the sink after it. -/
def filled (bytes : Bytes) (n : Nat) : Except CommandError Unit × Sink :=
  (if bytes.size ≤ n then .ok () else .error .outputFull, ⟨bytes.take n, some n⟩)

variable {written : Bytes} {n : Nat}

theorem filled_of_size_le (h : written.size ≤ n) :
    filled written n = (.ok (), ⟨written, some n⟩) := by
  rw [filled, if_pos h, Bytes.take_of_size_le h]

theorem filled_of_lt (h : n < written.size) :
    filled written n = (.error .outputFull, ⟨written.take n, some n⟩) := by
  rw [filled, if_neg (Nat.not_le.2 h)]

theorem filled_append_of_lt {more : Bytes} (h : n < written.size) :
    filled (written ++ more) n = filled written n := by
  have hmore : n < (written ++ more).size := by
    rw [Array.size_append]
    omega
  rw [filled_of_lt h, filled_of_lt hmore, Bytes.take_append_of_le_size (Nat.le_of_lt h)]

theorem runWith_write_bounded (text : String) (h : written.size ≤ n) :
    (write text).runWith ⟨written, some n⟩ = filled (written ++ Bytes.ofString text) n := by
  have hfits : (Bytes.ofString text).size ≤ n - written.size ↔
      (written ++ Bytes.ofString text).size ≤ n := by
    rw [Array.size_append]
    omega
  rw [runWith_write rfl, filled, Bytes.take_append_of_size_le h]
  simp only [hfits, decide_eq_true_eq]

/-- The first text that does not fit is the last one of which anything is written. -/
theorem runWith_writeAll_bounded (texts : List String) (h : written.size ≤ n) :
    (writeAll texts).runWith ⟨written, some n⟩ =
      filled (written ++ Bytes.ofString (String.join texts)) n := by
  induction texts generalizing written with
  | nil =>
    have hempty : Bytes.ofString (String.join []) = #[] := rfl
    rw [hempty, Array.append_empty, filled_of_size_le h]
    rfl
  | cons text texts ih =>
    -- the other texts are written only if this one fits, and then all written so far still does
    have hwrite := runWith_write_bounded text h
    rw [writeAll_cons, String.join_cons, Bytes.ofString_append, ← Array.append_assoc]
    obtain hfull | hfits := Nat.lt_or_ge n (written ++ Bytes.ofString text).size
    · rw [filled_of_lt hfull] at hwrite
      rw [runWith_bind_of_error hwrite, filled_append_of_lt hfull, filled_of_lt hfull]
    · rw [filled_of_size_le hfits] at hwrite
      rw [runWith_bind_of_ok hwrite, ih hfits]

end CommandM

open CommandM

/-! ### Prefixes of a report -/

/-- The fault is in what the command was to report on, and not in the sink. -/
def CommandError.IsRefusal : CommandError → Prop
  | .query _ | .unreadable _ _ => True
  | .outputFull | .invalidStart _ | .unknownOption _ => False

/-- With room for `n` bytes, the command writes nothing because it refuses its input, or it writes
what fits of the bytes that it writes to a sink without bounds. -/
def WritesPrefix (command : CommandM Unit) (n : Nat) : Prop :=
  let (result, sink) := command.runWith (.ofCapacity n)
  (∀ e, result = .error e → e.IsRefusal → sink.written = #[]) ∧
  ((∀ e, result = .error e → ¬ e.IsRefusal) →
    ∃ report, command.runWith .unbounded = (.ok (), ⟨report, none⟩) ∧
      (report.size ≤ n → result = .ok () ∧ sink.written = report) ∧
      (n < report.size → result = .error .outputFull ∧ sink.written = report.take n))

theorem writesPrefix_throw {e : CommandError} (h : e.IsRefusal) (n : Nat) :
    WritesPrefix (throw e) n :=
  ⟨fun _ _ _ => rfl, fun hnot => absurd h (hnot e rfl)⟩

theorem writesPrefix_writeAll (texts : List String) (n : Nat) :
    WritesPrefix (writeAll texts) n := by
  have hempty : (#[] : Bytes).size ≤ n := Nat.zero_le n
  have hunbounded := runWith_writeAll texts #[]
  have hbounded := runWith_writeAll_bounded texts hempty
  rw [Array.empty_append] at hunbounded hbounded
  unfold WritesPrefix
  rw [Sink.ofCapacity, hbounded]
  obtain hfull | hfits := Nat.lt_or_ge n (Bytes.ofString (String.join texts)).size
  · rw [filled_of_lt hfull]
    refine ⟨?_, fun _ => ⟨_, hunbounded, fun hfits => absurd hfull (Nat.not_lt.2 hfits),
      fun _ => ⟨rfl, rfl⟩⟩⟩
    rintro e ⟨⟩ hrefusal
    exact hrefusal.elim
  · rw [filled_of_size_le hfits]
    exact ⟨nofun, fun _ => ⟨_, hunbounded, fun _ => ⟨rfl, rfl⟩,
      fun hfull => absurd hfull (Nat.not_lt.2 hfits)⟩⟩

/-! ### The commands -/

section Commands

variable {g : Grammar} {mode : Mode} {text : String} {start : Nat}

theorem reportToken_of_error {e : MatchError}
    (h : g.tokenAt mode (.ofString text) start = .error e) :
    reportToken g mode text start = throw (.query e) := by
  rw [reportToken, h]
  rfl

theorem reportToken_eq_writeAll {found : Match}
    (h : g.tokenAt mode (.ofString text) start = .ok found) :
    reportToken g mode text start =
      writeAll [s!"id = {found.terminal.name}\n", s!"end_pos = {found.stop}\n"] := by
  rw [reportToken, h, writeAll_cons, writeAll_singleton]
  rfl

theorem reportFile_of_error {read : String → Except ReadError Bytes} {path : String}
    {options : FileOptions} {e : ReadError} (h : read path = .error e) :
    reportFile g read path options = throw (.unreadable path e) := by
  rw [reportFile, h]
  rfl

/-- The entry of a mode in the report on the modes. -/
def modeText (g : Grammar) (mode : Mode) : String :=
  let table := g.table mode
  let index := Text.padLeft 2 (toString mode.index)
  let name := Text.padRight 16 mode.name
  let size := Text.padLeft 3 (toString table.size)
  s!"  {index}  {name} {size} rules  fallback = {table.fallback.name}\n"

theorem reportModes_eq_writeAll (g : Grammar) :
    reportModes g =
      writeAll (s!"Lex modes ({Mode.all.length}):\n" :: Mode.all.map (modeText g)) := by
  rw [writeAll_cons, ← forM_write_eq_writeAll]
  rfl

end Commands

/-- Whatever there is room for, a command is refused before it writes or it writes a prefix of its
report. -/
theorem reports_write_prefix (g : Grammar) (n : Nat) :
    (∀ mode text start, WritesPrefix (reportToken g mode text start) n) ∧
    (∀ mode text, WritesPrefix (reportLine g mode text) n) ∧
    (∀ read path options, WritesPrefix (reportFile g read path options) n) ∧
    WritesPrefix (reportModes g) n := by
  refine ⟨?_, ?_, ?_, ?_⟩
  · intro mode text start
    cases h : g.tokenAt mode (.ofString text) start with
    | error e =>
      rw [reportToken_of_error h]
      exact writesPrefix_throw (e := .query e) trivial n
    | ok found =>
      rw [reportToken_eq_writeAll h]
      exact writesPrefix_writeAll _ n
  · intro mode text
    rw [reportLine_eq_writeAll]
    exact writesPrefix_writeAll _ n
  · intro read path options
    cases h : read path with
    | error e =>
      rw [reportFile_of_error h]
      exact writesPrefix_throw (e := .unreadable path e) trivial n
    | ok content =>
      rw [reportFile_eq_writeAll h]
      exact writesPrefix_writeAll _ n
  · rw [reportModes_eq_writeAll]
    exact writesPrefix_writeAll _ n

example : ((reportToken Shell.grammar .command "ls" 0).runWith (.ofCapacity 7)).2.written =
    Bytes.ofString "id = Li" := by
  decide +kernel

end ShellTokens
