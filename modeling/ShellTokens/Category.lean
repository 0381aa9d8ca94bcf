/-!
# Categories

Each token of the shell belongs to one lexical category.
-/

namespace ShellTokens

/-- The lexical categories, in the order in which reports list them. -/
inductive Category where
  /-- A placeholder for no token; no table produces it. -/
  | undefined
  /-- Bytes that make no sense in their mode, taken one or two at a time. -/
  | unknown
  /-- The end of the line, or a NUL byte, which ends what can be read. -/
  | endOfLine
  /-- Trivia, to be skipped. -/
  | ignored
  /-- White space that separates words. -/
  | space
  /-- Literal text and the marks within it. -/
  | literal
  /-- Operators between and around commands. -/
  | operator
  /-- Redirections. -/
  | redirect
  /-- What opens a new lexical context. -/
  | opener
  /-- What closes a lexical context. -/
  | closer
  /-- The inside of backquotes. -/
  | backtick
  /-- Variables and the names within braces. -/
  | varSub
  /-- Tests on a variable within braces. -/
  | varTest
  /-- Removal of a leading or trailing part within braces. -/
  | varTrim
  /-- Replacement, slicing and indexing within braces. -/
  | varSlice
  /-- Operators of arithmetic. -/
  | arith
  /-- Reserved words. -/
  | keyword
  /-- Builtins that take assignments as arguments. -/
  | assign
  /-- Builtins that leave a loop, a function or the shell. -/
  | controlFlow
  /-- Openers of extended globs. -/
  | extGlob
  /-- Tests on one operand. -/
  | boolUnary
  /-- Tests on two operands. -/
  | boolBinary
  /-- Escapes within `$` quotes. -/
  | charEscape
deriving DecidableEq, Repr

namespace Category

def all : List Category :=
  [.undefined, .unknown, .endOfLine, .ignored, .space, .literal, .operator, .redirect, .opener,
   .closer, .backtick, .varSub, .varTest, .varTrim, .varSlice, .arith, .keyword, .assign,
   .controlFlow, .extGlob, .boolUnary, .boolBinary, .charEscape]

theorem mem_all (c : Category) : c ∈ all := by
  cases c <;> decide

/-- The place in the order of categories. -/
def index (c : Category) : Nat :=
  c.ctorIdx

def name : Category → String
  | undefined => "Undefined"
  | unknown => "Unknown"
  | endOfLine => "Eol"
  | ignored => "Ignored"
  | space => "WS"
  | literal => "Lit"
  | operator => "Op"
  | redirect => "Redir"
  | opener => "Left"
  | closer => "Right"
  | backtick => "Backtick"
  | varSub => "VSub"
  | varTest => "VTest"
  | varTrim => "VOp1"
  | varSlice => "VOp2"
  | arith => "Arith"
  | keyword => "KW"
  | assign => "Assign"
  | controlFlow => "ControlFlow"
  | extGlob => "ExtGlob"
  | boolUnary => "BoolUnary"
  | boolBinary => "BoolBinary"
  | charEscape => "Char"

end Category

end ShellTokens
