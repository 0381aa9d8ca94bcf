import ShellTokens.Report.Commands
import ShellTokens.Shell.Grammar

/-!
# The command line

The first argument names a command, and the others are for it. A command that succeeds writes its
report to the standard output; one that fails writes nothing but the reason, to the standard error.
-/

namespace ShellTokens

/-- What a run of the program leaves: its exit status and what it wrote. -/
structure Outcome where
  status : Nat
  stdout : Bytes
  stderr : String
deriving DecidableEq, Repr

/-- What the arguments ask for. -/
inductive Command where
  | token (mode line : String) (start : Option String)
  | lex (mode line : String)
  | lexFile (path : String) (options : List String)
  | modes
  | help
  | version
  /-- Arguments are missing; `usage` says which. -/
  | incomplete (usage : String)
  | unknown (name : String)
deriving DecidableEq, Repr

namespace Command

/-- A text of the given lines. -/
def linesText (lines : List String) : String :=
  String.join (lines.map fun line => line ++ "\n")

def usage : String :=
  linesText
    ["oshc: shell token matcher driver",
     "",
     "Usage: oshc <command> [options]",
     "",
     "Commands:",
     "  token <mode> <line> [start]  Match one token; print its id and end position",
     "  lex <mode> <line>            Print every token of a line, read in one mode",
     "  lex-file <path> [options]    Lex each line of a file in one mode",
     "  modes                        List lex modes and their fallback ids",
     "  help                         Show this help message",
     "  version                      Show version information",
     "",
     "Modes are named as listed by `oshc modes` (case-insensitive), e.g. ShCommand, DQ.",
     "",
     "Environment:",
     "  OSHC_LOG=<filter>   Enable logging (falls back to RUST_LOG)",
     "  OSHC_LOG_TREE=1     Show log spans as an indented tree"]

def tokenUsage : String :=
  linesText ["Usage: oshc token <mode> <line> [start]"]

def lexUsage : String :=
  linesText ["Usage: oshc lex <mode> <line>"]

def lexFileUsage : String :=
  linesText
    ["Usage: oshc lex-file <path> [options]",
     "",
     "Options:",
     "  --mode=<mode>   Mode every line is lexed in (default: ShCommand)",
     "  --stats         Print a histogram of token kinds",
     "  --parallel      Lex lines in parallel"]

def versionText : String :=
  linesText ["oshc 0.1.0"]

/-- Arguments beyond those that a command needs are ignored. -/
def ofArgs : List String → Command
  | [] => help
  | name :: args =>
    match name, args with
    | "token", mode :: line :: rest => token mode line rest.head?
    | "token", _ => incomplete tokenUsage
    | "lex", mode :: line :: _ => lex mode line
    | "lex", _ => incomplete lexUsage
    | "lex-file", path :: options => lexFile path options
    | "lex-file", [] => incomplete lexFileUsage
    | "modes", _ => modes
    | "help", _ | "--help", _ | "-h", _ => help
    | "version", _ | "--version", _ | "-V", _ => version
    | _, _ => unknown name

/-- The outcome of a report to an unbounded output. -/
def outcomeOf (report : CommandM Unit) : Outcome :=
  match report.runWith .unbounded with
  | (.ok (), sink) => ⟨0, sink.written, ""⟩
  | (.error e, sink) => ⟨1, sink.written, s!"error: {e.message}\n"⟩

/-- Runs the command; `read` gives the contents of files. -/
def run (g : Grammar) (read : String → Except ReadError Bytes) : Command → Outcome
  | token mode line start => outcomeOf do
    let mode ← ofExcept (readMode mode)
    let start ← ofExcept ((start.map readStart).getD (.ok 0))
    reportToken g mode line start
  | lex mode line => outcomeOf do
    let mode ← ofExcept (readMode mode)
    reportLine g mode line
  | lexFile path options => outcomeOf do
    let options ← ofExcept (FileOptions.ofArgs options)
    reportFile g read path options
  | modes => outcomeOf (reportModes g)
  | help => ⟨0, Bytes.ofString usage, ""⟩
  | version => ⟨0, Bytes.ofString versionText, ""⟩
  | incomplete usage => ⟨1, #[], usage⟩
  | unknown name => ⟨1, Bytes.ofString usage, s!"Unknown command: {name}\n\n"⟩

/-- The file that the command reads. -/
def path? : Command → Option String
  | lexFile path _ => some path
  | _ => none

end Command

end ShellTokens
