import ShellTokens.MatchError

/-!
# Lexing modes

The same bytes make different tokens in different contexts: a dollar sign and a parenthesis open a
substitution within double quotes and are plain text within single quotes. The mode names the
context, and whoever reads the line chooses it for each token.
-/

namespace ShellTokens

inductive Mode where
  /-- Words, operators and redirections of a command. -/
  | command
  /-- The rest of a line after `#`. -/
  | comment
  /-- Within backquotes. -/
  | backtick
  /-- Within double brackets. -/
  | doubleBracket
  | singleQuoted
  | doubleQuoted
  /-- Within single quotes after a dollar sign. -/
  | dollarSingleQuoted
  | arith
  /-- Within the parentheses of an extended glob. -/
  | extGlob
  /-- Right after the opening brace of a substitution: the name. -/
  | varSubName
  /-- After the name within braces: the operator. -/
  | varSubOp
  /-- The argument of the operator, outside quotes. -/
  | varSubArg
  /-- The argument of the operator, within double quotes. -/
  | quotedVarSubArg
  /-- The right side of `=~`. -/
  | regex
  /-- The body of a here-document that is expanded. -/
  | hereDoc
deriving DecidableEq, Repr

namespace Mode

def all : List Mode :=
  [.command, .comment, .backtick, .doubleBracket, .singleQuoted, .doubleQuoted,
   .dollarSingleQuoted, .arith, .extGlob, .varSubName, .varSubOp, .varSubArg, .quotedVarSubArg,
   .regex, .hereDoc]

theorem mem_all (m : Mode) : m ∈ all := by
  cases m <;> decide

/-- The place in the order of modes. -/
def index (m : Mode) : Nat :=
  m.ctorIdx

def name : Mode → String
  | command => "ShCommand"
  | comment => "Comment"
  | backtick => "Backtick"
  | doubleBracket => "DBracket"
  | singleQuoted => "SQ"
  | doubleQuoted => "DQ"
  | dollarSingleQuoted => "DollarSQ"
  | arith => "Arith"
  | extGlob => "ExtGlob"
  | varSubName => "VSub1"
  | varSubOp => "VSub2"
  | varSubArg => "VSubArgUnquoted"
  | quotedVarSubArg => "VSubArgDQ"
  | regex => "BashRegex"
  | hereDoc => "HereDoc"

/-- The mode whose place in the order is `tag`. -/
def ofTag (tag : UInt8) : Except MatchError Mode :=
  match all[tag.toNat]? with
  | some m => .ok m
  | none => .error (.invalidMode tag)

/-- Whether two names differ at most in the case of ASCII letters. -/
def sameName (s t : String) : Bool :=
  s.toList.map Char.toLower == t.toList.map Char.toLower

/-- The mode of that name, whatever the case of its letters. -/
def ofName (name : String) : Except MatchError Mode :=
  match all.find? fun m => sameName m.name name with
  | some m => .ok m
  | none => .error (.unknownModeName name)

end Mode

end ShellTokens
