import ShellTokens.Grammar
import ShellTokens.Shell.Tables

/-!
# The grammar of the shell
-/

namespace ShellTokens.Shell

def tableOf : Mode → Table
  | .command => command
  | .comment => comment
  | .backtick => backtick
  | .doubleBracket => doubleBracket
  | .singleQuoted => singleQuoted
  | .doubleQuoted => doubleQuoted
  | .dollarSingleQuoted => dollarSingleQuoted
  | .arith => arith
  | .extGlob => extGlob
  | .varSubName => varSubName
  | .varSubOp => varSubOp
  | .varSubArg => varSubArg
  | .quotedVarSubArg => quotedVarSubArg
  | .regex => regex
  | .hereDoc => hereDoc

def grammar : Grammar where
  table := tableOf
  firstBarren?_eq_none mode := by cases mode <;> rfl

/-- Whether the bytes are the name of a variable. -/
def isVarName (name : Bytes) : Bool :=
  match name.toList with
  | b :: rest => ByteSet.nameStart.contains b && rest.all ByteSet.nameRest.contains
  | [] => false

end ShellTokens.Shell
