import ShellTokens.Proofs.Grammar.Queries
import ShellTokens.Proofs.Report.Capacity

/-!
# Outcomes of command lines

A command line is checked in stages: whether there are enough arguments, then the name of the mode or
the options of a file, then the start, and last whether the line has that start or the file can be
read. A stage finds its fault whatever the others find. The first stage that finds one decides: the
exit status is one, the fault is written to the standard error, and nothing is written to the
standard output. Without a fault the exit status is zero and nothing is written to the standard error.
Only an unknown command has output on both.
-/

namespace ShellTokens

open CommandM

/-! ### Stages and their faults -/

/-- The checks of a command line. -/
inductive Stage where
  /-- Whether there are enough arguments. -/
  | arguments
  /-- The name of the mode, or the options of a file. -/
  | names
  | start
  /-- Whether the line has the start, or the file can be read. -/
  | subject
deriving DecidableEq, Repr

/-- What is wrong with a command line. -/
inductive Fault where
  /-- Arguments are missing; `text` says which. -/
  | usage (text : String)
  | refused (e : CommandError)
deriving DecidableEq, Repr

namespace Fault

def text : Fault → String
  | usage text => text
  | refused e => s!"error: {e.message}\n"

def outcome (fault : Fault) : Outcome :=
  ⟨1, #[], fault.text⟩

end Fault

def modeFault? (name : String) : Option CommandError :=
  match Mode.ofName name with
  | .error e => some (.query e)
  | .ok _ => none

def optionFault? (arg : String) : Option CommandError :=
  match FileOptions.afterMark? "--mode=".toList arg.toList with
  | some name => modeFault? (String.ofList name)
  | none => if arg = "--stats" ∨ arg = "--parallel" then none else some (.unknownOption arg)

def startFault? (start : String) : Option CommandError :=
  match Text.position? start with
  | some _ => none
  | none => some (.invalidStart start)

/-- A start that is none is no start beyond the end. -/
def rangeFault? (line start : String) : Option CommandError :=
  match Text.position? start with
  | some n =>
    if (Line.ofString line).size < n then
      some (.query (.startOutOfRange n (Line.ofString line).size))
    else none
  | none => none

def fileFault? (read : String → Except ReadError Bytes) (path : String) : Option CommandError :=
  match read path with
  | .error e => some (.unreadable path e)
  | .ok _ => none

namespace Stage

/-- The stages in the order of the checks. -/
def all : List Stage :=
  [.arguments, .names, .start, .subject]

/-- What the stage finds wrong with the arguments, whatever the other stages find. -/
def fault? (read : String → Except ReadError Bytes) (args : List String) : Stage → Option Fault
  | arguments =>
    match args with
    | "token" :: _ :: _ :: _ | "lex" :: _ :: _ :: _ | "lex-file" :: _ :: _ => none
    | "token" :: _ => some (.usage Command.tokenUsage)
    | "lex" :: _ => some (.usage Command.lexUsage)
    | "lex-file" :: _ => some (.usage Command.lexFileUsage)
    | _ => none
  | names =>
    match args with
    | "token" :: mode :: _ | "lex" :: mode :: _ => (modeFault? mode).map .refused
    | "lex-file" :: _ :: options => (options.findSome? optionFault?).map .refused
    | _ => none
  | start =>
    match args with
    | "token" :: _ :: _ :: text :: _ => (startFault? text).map .refused
    | _ => none
  | subject =>
    match args with
    | "token" :: _ :: line :: text :: _ => (rangeFault? line text).map .refused
    | "lex-file" :: path :: _ => (fileFault? read path).map .refused
    | _ => none

end Stage

/-- The fault of the first stage that finds one. -/
def firstFault? (read : String → Except ReadError Bytes) (args : List String) : Option Fault :=
  Stage.all.findSome? (Stage.fault? read args)

namespace Command

variable {g : Grammar} {read : String → Except ReadError Bytes} {report : CommandM Unit}
  {c : Command} {args : List String}

/-- The names of commands. -/
def names : List String :=
  ["token", "lex", "lex-file", "modes", "help", "--help", "-h", "version", "--version", "-V"]

theorem ofArgs_eq_unknown_iff {name : String} :
    ofArgs args = .unknown name ↔ ∃ rest, args = name :: rest ∧ name ∉ names := by
  constructor
  · intro h
    unfold ofArgs at h
    split at h
    · cases h
    · next first rest =>
      split at h <;> cases h
      next hfile hnone =>
      refine ⟨rest, rfl, ?_⟩
      cases rest <;> simp_all [names]
  · rintro ⟨rest, rfl, h⟩
    simp only [names, List.mem_cons, List.not_mem_nil, or_false, not_or] at h
    unfold ofArgs
    split <;> simp_all

/-! ### Reports and refusals -/

/-- The report that the command makes, if it makes one. -/
def report? (g : Grammar) (read : String → Except ReadError Bytes) : Command → Option (CommandM Unit)
  | token mode line start => some do
    let mode ← ofExcept (readMode mode)
    let start ← ofExcept ((start.map readStart).getD (.ok 0))
    reportToken g mode line start
  | lex mode line => some do
    let mode ← ofExcept (readMode mode)
    reportLine g mode line
  | lexFile path options => some do
    let options ← ofExcept (FileOptions.ofArgs options)
    reportFile g read path options
  | modes => some (reportModes g)
  | help | version | incomplete _ | unknown _ => none

theorem run_of_report? (h : c.report? g read = some report) :
    c.run g read = outcomeOf report := by
  cases c <;> cases h <;> rfl

/-- The error with which the command is refused. -/
def error? (read : String → Except ReadError Bytes) : Command → Option CommandError
  | token mode _ none => modeFault? mode
  | token mode line (some start) =>
    (modeFault? mode).or ((startFault? start).or (rangeFault? line start))
  | lex mode _ => modeFault? mode
  | lexFile path options => (options.findSome? optionFault?).or (fileFault? read path)
  | _ => none

def fault? (read : String → Except ReadError Bytes) : Command → Option Fault
  | incomplete usage => some (.usage usage)
  | c => (c.error? read).map .refused

theorem firstFault?_eq_or (read : String → Except ReadError Bytes) (args : List String) :
    firstFault? read args =
      (Stage.arguments.fault? read args).or ((Stage.names.fault? read args).or
        ((Stage.start.fault? read args).or (Stage.subject.fault? read args))) := by
  have hor (stage : Stage) (stages : List Stage) :
      (stage :: stages).findSome? (Stage.fault? read args) =
        (stage.fault? read args).or (stages.findSome? (Stage.fault? read args)) := by
    rw [List.findSome?_cons]
    cases stage.fault? read args <;> rfl
  rw [firstFault?, Stage.all, hor, hor, hor, hor, List.findSome?_nil, Option.or_none]

theorem stage_fault?_of_not_mem_names {name : String} (h : name ∉ names) (stage : Stage) :
    stage.fault? read (name :: args) = none := by
  simp only [names, List.mem_cons, List.not_mem_nil, or_false, not_or] at h
  cases stage <;> unfold Stage.fault? <;> split <;> simp_all

theorem firstFault?_eq (read : String → Except ReadError Bytes) (args : List String) :
    firstFault? read args = (ofArgs args).fault? read := by
  rw [firstFault?_eq_or]
  unfold ofArgs
  split
  · rfl
  · next name rest =>
    split
    case h_1 rest =>
      cases rest with
      | nil => simp [Stage.fault?, fault?, error?]
      | cons start rest => simp [Stage.fault?, fault?, error?, Option.map_or]
    case h_14 =>
      have hname : name ∉ names := by
        cases rest <;> simp_all [names]
      simp [stage_fault?_of_not_mem_names hname, fault?, error?]
    all_goals simp [Stage.fault?, fault?, error?, Option.map_or]

/-! ### Settled reports -/

/-- The report ends with the error before it writes, or nothing is wrong and it is a list of texts. -/
def Settles (report : CommandM Unit) : Option CommandError → Prop
  | some e => report = throw e
  | none => ∃ texts, report = writeAll texts

def errorOf? {α : Type} : Except CommandError α → Option CommandError
  | .error e => some e
  | .ok _ => none

theorem Settles.bind {α : Type} {x : Except CommandError α} {next : α → CommandM Unit}
    {rest? : Option CommandError} (h : ∀ a, x = .ok a → Settles (next a) rest?) :
    Settles (ofExcept x >>= next) ((errorOf? x).or rest?) := by
  cases x with
  | error e => exact rfl
  | ok a => exact h a rfl

theorem errorOf?_readMode (name : String) : errorOf? (readMode name) = modeFault? name := by
  unfold readMode modeFault?
  cases Mode.ofName name <;> rfl

theorem errorOf?_readStart (text : String) : errorOf? (readStart text) = startFault? text := by
  unfold readStart startFault?
  cases Text.position? text <;> rfl

theorem errorOf?_add (o : FileOptions) (arg : String) : errorOf? (o.add arg) = optionFault? arg := by
  unfold FileOptions.add optionFault?
  cases FileOptions.afterMark? "--mode=".toList arg.toList with
  | some name =>
    dsimp only
    rw [← errorOf?_readMode]
    cases readMode (String.ofList name) <;> rfl
  | none =>
    by_cases hstats : arg = "--stats"
    · simp [hstats, errorOf?]
    · by_cases hparallel : arg = "--parallel" <;> simp [hstats, hparallel, errorOf?]

/-- The first argument that is no option decides. -/
theorem errorOf?_foldlM_add (args : List String) (o : FileOptions) :
    errorOf? (args.foldlM FileOptions.add o) = args.findSome? optionFault? := by
  induction args generalizing o with
  | nil => rfl
  | cons arg args ih =>
    rw [List.foldlM_cons, List.findSome?_cons, ← errorOf?_add o arg]
    cases o.add arg with
    | error e => rfl
    | ok o => exact ih o

theorem settles_reportToken (g : Grammar) (mode : Mode) (line : String) (start : Nat) :
    Settles (reportToken g mode line start)
      (if (Line.ofString line).size < start then
        some (.query (.startOutOfRange start (Line.ofString line).size)) else none) := by
  split
  · next hlt => exact reportToken_of_error (Grammar.tokenAt_eq_error_iff.2 ⟨hlt, rfl⟩)
  · next hle =>
    exact ⟨_, reportToken_eq_writeAll (Grammar.tokenAt_eq_ok g mode (Nat.not_lt.1 hle))⟩

theorem settles_reportFile (g : Grammar) (read : String → Except ReadError Bytes) (path : String)
    (options : FileOptions) : Settles (reportFile g read path options) (fileFault? read path) := by
  unfold fileFault?
  cases h : read path with
  | error e => exact reportFile_of_error h
  | ok content => exact ⟨_, reportFile_eq_writeAll h⟩

/-- All that can be wrong with a command is found before its report begins. -/
theorem settles_of_report? (h : c.report? g read = some report) :
    Settles report (c.error? read) := by
  cases c with
  | token mode line start =>
    cases h
    cases start with
    | none =>
      rw [error?, ← @Option.or_none _ (modeFault? mode), ← errorOf?_readMode]
      refine Settles.bind fun mode _ => ?_
      exact ⟨_, reportToken_eq_writeAll (Grammar.tokenAt_eq_ok g mode (Nat.zero_le _))⟩
    | some start =>
      rw [error?, ← errorOf?_readMode, ← errorOf?_readStart]
      refine Settles.bind fun mode _ => Settles.bind fun n hn => ?_
      have hposition : Text.position? start = some n := by
        change readStart start = .ok n at hn
        rw [readStart] at hn
        split at hn <;> cases hn
        assumption
      rw [rangeFault?, hposition]
      exact settles_reportToken g mode line n
  | lex mode line =>
    cases h
    rw [error?, ← @Option.or_none _ (modeFault? mode), ← errorOf?_readMode]
    exact Settles.bind fun mode _ => ⟨_, reportLine_eq_writeAll g mode line⟩
  | lexFile path options =>
    cases h
    rw [error?, ← errorOf?_foldlM_add options {}]
    exact Settles.bind fun options _ => settles_reportFile g read path options
  | modes =>
    cases h
    exact ⟨_, reportModes_eq_writeAll g⟩
  | help | version | incomplete usage | unknown name => cases h

namespace Settles

variable {e : CommandError}

theorem outcomeOf_eq (h : Settles report (some e)) :
    outcomeOf report = (Fault.refused e).outcome := by
  cases h
  rfl

theorem exists_outcomeOf_eq (h : Settles report none) :
    ∃ stdout, outcomeOf report = ⟨0, stdout, ""⟩ := by
  obtain ⟨texts, rfl⟩ := h
  rw [outcomeOf, Sink.unbounded, runWith_writeAll]
  exact ⟨_, rfl⟩

theorem runWith_eq_error_iff {error? : Option CommandError} (h : Settles report error?) :
    (report.runWith .unbounded).1 = .error e ↔ error? = some e := by
  cases error? with
  | some e' =>
    cases h
    change Except.error e' = _ ↔ _
    simp
  | none =>
    obtain ⟨texts, rfl⟩ := h
    rw [Sink.unbounded, runWith_writeAll]
    simp

end Settles

/-! ### The outcome -/

theorem fault?_of_report? (h : c.report? g read = some report) :
    c.fault? read = (c.error? read).map .refused := by
  cases c <;> cases h <;> rfl

/-- A fault settles the outcome. -/
theorem run_of_fault? {fault : Fault} (h : c.fault? read = some fault) :
    c.run g read = fault.outcome := by
  cases hreport : c.report? g read with
  | some report =>
    rw [fault?_of_report? hreport] at h
    obtain ⟨e, he, rfl⟩ := Option.map_eq_some_iff.1 h
    have hsettles := settles_of_report? hreport
    rw [he] at hsettles
    rw [run_of_report? hreport, hsettles.outcomeOf_eq]
  | none =>
    cases c with
    | incomplete usage =>
      cases h
      rfl
    | help | version | unknown name => cases h
    | token mode line start | lex mode line | lexFile path options | modes => cases hreport

theorem run_of_fault?_eq_none (h : c.fault? read = none) :
    (∃ stdout, c.run g read = ⟨0, stdout, ""⟩) ∨ ∃ name, c = .unknown name := by
  cases hreport : c.report? g read with
  | some report =>
    rw [fault?_of_report? hreport, Option.map_eq_none_iff] at h
    have hsettles := settles_of_report? hreport
    rw [h] at hsettles
    rw [run_of_report? hreport]
    exact Or.inl hsettles.exists_outcomeOf_eq
  | none =>
    cases c with
    | help => exact Or.inl ⟨_, rfl⟩
    | version => exact Or.inl ⟨_, rfl⟩
    | unknown name => exact Or.inr ⟨name, rfl⟩
    | incomplete usage => cases h
    | token mode line start | lex mode line | lexFile path options | modes => cases hreport

theorem usage_ne_empty {usage : String} (h : ofArgs args = .incomplete usage) : usage ≠ "" := by
  unfold ofArgs at h
  split at h
  · cases h
  · split at h <;> cases h <;> decide

theorem text_ne_empty {fault : Fault} (h : firstFault? read args = some fault) :
    fault.text ≠ "" := by
  cases fault with
  | refused e =>
    unfold Fault.text
    simp [toString_string]
  | usage text =>
    rw [firstFault?_eq] at h
    cases hc : ofArgs args with
    | incomplete usage =>
      rw [hc] at h
      cases h
      exact usage_ne_empty hc
    | _ =>
      rw [hc] at h
      simp [fault?] at h

/-- A run is refused for the first fault, or the command is unknown, or the run succeeds. -/
theorem run_ofArgs_cases (g : Grammar) (read : String → Except ReadError Bytes)
    (args : List String) :
    (∃ fault, firstFault? read args = some fault ∧ (ofArgs args).run g read = fault.outcome) ∨
    (firstFault? read args = none ∧ ∃ name rest, args = name :: rest ∧ name ∉ names ∧
      (ofArgs args).run g read =
        ⟨1, Bytes.ofString usage, s!"Unknown command: {name}\n\n"⟩) ∨
    (firstFault? read args = none ∧ ∃ stdout, (ofArgs args).run g read = ⟨0, stdout, ""⟩) := by
  rw [firstFault?_eq]
  cases hfault : (ofArgs args).fault? read with
  | some fault => exact Or.inl ⟨fault, rfl, run_of_fault? hfault⟩
  | none =>
    obtain hsuccess | ⟨name, hname⟩ := run_of_fault?_eq_none (g := g) hfault
    · exact Or.inr (Or.inr ⟨rfl, hsuccess⟩)
    · obtain ⟨rest, hargs, hmem⟩ := ofArgs_eq_unknown_iff.1 hname
      refine Or.inr (Or.inl ⟨rfl, name, rest, hargs, hmem, ?_⟩)
      rw [hname]
      rfl

theorem firstFault?_of_report? {e : CommandError} (h : (ofArgs args).report? g read = some report)
    (he : (report.runWith .unbounded).1 = .error e) :
    firstFault? read args = some (.refused e) := by
  rw [firstFault?_eq, fault?_of_report? h, (settles_of_report? h).runWith_eq_error_iff.1 he,
    Option.map_some]

/-- The first fault of the arguments settles the outcome. Without one the program succeeds, unless
the command is unknown. -/
theorem outcome_of_args (g : Grammar) (read : String → Except ReadError Bytes)
    (args : List String) :
    let command := ofArgs args
    let outcome := command.run g read
    (outcome.status = 0 ∨ outcome.status = 1) ∧
    (outcome.status = 0 ↔ outcome.stderr = "") ∧
    (∀ report, command.report? g read = some report → outcome = outcomeOf report ∧
      ∀ e, (report.runWith .unbounded).1 = .error e →
        firstFault? read args = some (.refused e) ∧
          outcome = ⟨1, #[], s!"error: {e.message}\n"⟩) ∧
    (∀ fault, firstFault? read args = some fault → outcome = fault.outcome) ∧
    (firstFault? read args = none → outcome.status = 0 ∨
      ∃ name rest, args = name :: rest ∧ name ∉ names) ∧
    (outcome.status = 1 → outcome.stdout ≠ #[] →
      ∃ name rest, args = name :: rest ∧ name ∉ names) := by
  intro command outcome
  have hfault (fault : Fault) (h : firstFault? read args = some fault) :
      outcome = fault.outcome :=
    run_of_fault? ((firstFault?_eq read args).symm.trans h)
  -- the status and the standard error go together in each case
  refine and_assoc.1 ⟨?_, fun report h => ⟨run_of_report? h, fun e he => ?_⟩, hfault, ?_⟩
  · obtain ⟨fault, hfirst, hrun⟩ | ⟨-, name, -, -, -, hrun⟩ | ⟨-, stdout, hrun⟩ :=
      run_ofArgs_cases g read args
    · have houtcome : outcome = ⟨1, #[], fault.text⟩ := hrun
      simp [houtcome, text_ne_empty hfirst]
    · have houtcome : outcome = ⟨1, Bytes.ofString usage, s!"Unknown command: {name}\n\n"⟩ := hrun
      simp [houtcome, toString_string]
    · have houtcome : outcome = ⟨0, stdout, ""⟩ := hrun
      simp [houtcome]
  · have hfirst := firstFault?_of_report? h he
    exact ⟨hfirst, hfault _ hfirst⟩
  · obtain ⟨fault, hfirst, hrun⟩ | ⟨-, name, rest, hargs, hmem, -⟩ | ⟨-, stdout, hrun⟩ :=
      run_ofArgs_cases g read args
    · have houtcome : outcome = ⟨1, #[], fault.text⟩ := hrun
      simp [houtcome, hfirst]
    · exact ⟨fun _ => Or.inr ⟨name, rest, hargs, hmem⟩, fun _ _ => ⟨name, rest, hargs, hmem⟩⟩
    · have houtcome : outcome = ⟨0, stdout, ""⟩ := hrun
      simp [houtcome]

/-- Of two faults the mode is reported and not the start. A start beyond the end fails in the report.
An unknown command is neither. -/
theorem outcome_of_args_refused :
    let read := fun _ : String => (.error .notFound : Except ReadError Bytes)
    let twoFaults := ["token", "none", "ls", "-1"]
    let beyondEnd := ["token", "dq", "ls", "3"]
    ((startFault? "-1").isSome ∧
      firstFault? read twoFaults = some (.refused (.query (.unknownModeName "none"))) ∧
      (ofArgs twoFaults).run Shell.grammar read =
        ⟨1, #[], "error: unknown lex mode `none`\n"⟩) ∧
    (∃ report, (ofArgs beyondEnd).report? Shell.grammar read = some report ∧
      (report.runWith .unbounded).1 = .error (.query (.startOutOfRange 3 2)) ∧
      (ofArgs beyondEnd).run Shell.grammar read =
        ⟨1, #[], "error: start position 3 is past the end of the line (length 2)\n"⟩) ∧
    firstFault? read ["ls"] = none ∧ ((ofArgs ["ls"]).run Shell.grammar read).status = 1 ∧
      ((ofArgs ["ls"]).run Shell.grammar read).stdout ≠ #[] ∧
      ∃ name rest, ["ls"] = name :: rest ∧ name ∉ names := by
  intro read twoFaults beyondEnd
  refine ⟨?_, ?_, ?_⟩
  · obtain ⟨-, -, -, hfault, -, -⟩ := outcome_of_args Shell.grammar read twoFaults
    have hfirst : firstFault? read twoFaults =
        some (.refused (.query (.unknownModeName "none"))) := by
      decide +kernel
    refine ⟨by decide +kernel, hfirst, ?_⟩
    rw [hfault _ hfirst]
    decide +kernel
  · obtain ⟨-, -, hreport, -, -, -⟩ := outcome_of_args Shell.grammar read beyondEnd
    refine ⟨_, rfl, rfl, ?_⟩
    rw [((hreport _ rfl).2 _ rfl).2]
    decide +kernel
  · obtain ⟨-, -, -, -, -, hunknown⟩ := outcome_of_args Shell.grammar read ["ls"]
    have hstdout : ((ofArgs ["ls"]).run Shell.grammar read).stdout ≠ #[] := by
      decide +kernel
    exact ⟨rfl, rfl, hstdout, hunknown rfl hstdout⟩

end Command

end ShellTokens
