import ShellTokens.Table

/-!
# Groups of rules

The tables of the shell share groups of rules: escapes, substitutions, quotes, variables, keywords.
The order within a table decides only between matches of one length: keywords stand before words, so
that `for` is a keyword and `format` is a word.
-/

namespace ShellTokens.Shell

open Pattern

def rule (p : Pattern) (t : Terminal) : Rule := { pattern := p, terminal := t }

/-- Rules for fixed texts. -/
def fixed (items : List (String × Terminal)) : List Rule :=
  items.map fun (s, t) => rule (text s) t

/-- The characters of an unquoted word. -/
def wordChar : ByteSet := ByteSet.nameRest ∪ ByteSet.ofText "/.-"

/-- The characters of a user name after a tilde. -/
def userChar : ByteSet := ByteSet.nameRest ∪ ByteSet.ofText ".-"

/-- Every byte but NUL and those of the text. -/
def plainExcept (s : String) : ByteSet :=
  ByteSet.noneOf (0 :: s.toUTF8.data.toList)

def varName : Pattern :=
  concat [oneOf .nameStart, star .nameRest]

/-- A backslash and one byte of the set. -/
def escaped (set : ByteSet) : Pattern :=
  concat [byte 0x5c, oneOf set]

def lineContinuation : Rule :=
  rule (text "\\\n") .ignoredLineCont

def unquotedEscapes : List Rule :=
  [rule (escaped .notNulOrNewline) .litEscapedChar, lineContinuation]

/-- Within double quotes only a dollar sign, a backquote, a double quote and a backslash can be
escaped. -/
def quotedEscapes : List Rule :=
  [rule (escaped (.ofText "$`\"\\")) .litEscapedChar, lineContinuation]

def substitutions : List Rule :=
  fixed [
    ("`", .leftBacktick), ("$(", .leftCommandSub), ("$\x7b", .leftVarSub), ("$((", .leftArithSub),
    ("$[", .leftArithSub2)]

def quotedSubstitutions : List Rule :=
  fixed [
    ("`", .leftDqBacktick), ("$(", .leftDqCommandSub), ("$\x7b", .leftDqVarSub),
    ("$((", .leftDqArithSub), ("$[", .leftDqArithSub2)]

def quotes : List Rule :=
  fixed [
    ("\"", .leftDoubleQuote), ("'", .leftSingleQuote), ("$\"", .leftDollarDoubleQuote),
    ("$'", .leftDollarSingleQuote), ("<(", .leftProcSubIn), (">(", .leftProcSubOut)]

def varRefs : List Rule :=
  [rule (concat [byte 0x24, varName]) .vSubDollarName,
   rule (concat [byte 0x24, oneOf .digit]) .vSubNumber] ++
  fixed [
    ("$!", .vSubBang), ("$@", .vSubAt), ("$#", .vSubPound), ("$$", .vSubDollar), ("$*", .vSubStar),
    ("$-", .vSubHyphen), ("$?", .vSubQMark)]

def extGlobs : List Rule :=
  fixed [
    ("@(", .extGlobAt), ("*(", .extGlobStar), ("+(", .extGlobPlus), ("?(", .extGlobQMark),
    ("!(", .extGlobBang)]

def keywords : List Rule :=
  fixed [
    ("[[", .kwDLeftBracket), ("!", .kwBang), ("for", .kwFor), ("while", .kwWhile),
    ("until", .kwUntil), ("do", .kwDo), ("done", .kwDone), ("in", .kwIn), ("case", .kwCase),
    ("esac", .kwEsac), ("if", .kwIf), ("fi", .kwFi), ("then", .kwThen), ("else", .kwElse),
    ("elif", .kwElif), ("function", .kwFunction), ("time", .kwTime), ("declare", .assignDeclare),
    ("typeset", .assignTypeset), ("local", .assignLocal), ("readonly", .assignReadonly),
    ("export", .assignExport), ("break", .controlFlowBreak), ("continue", .controlFlowContinue),
    ("return", .controlFlowReturn), ("exit", .controlFlowExit)]

/-- The parts of an unquoted word. Whether `#` begins a comment depends on its place in the word, so
it is a terminal of its own. -/
def wordParts : List Rule :=
  unquotedEscapes ++ substitutions ++ quotes ++ varRefs ++
    [rule (plus wordChar) .litChars, rule (text "#") .litPound]

/-- The parts of a word in which `a+(b)` is an extended glob. -/
def wordPartsWithGlobs : List Rule :=
  wordParts ++ extGlobs

/-- A redirection, with the number of the file descriptor right before the operator. -/
def redirect (op : String) (t : Terminal) : Rule :=
  rule (concat [star .digit, text op]) t

def redirects : List Rule :=
  [redirect "<" .redirLess, redirect ">" .redirGreat, redirect "<<" .redirDLess,
   redirect "<<<" .redirTLess, redirect ">>" .redirDGreat, redirect ">&" .redirGreatAnd,
   redirect "<&" .redirLessAnd, redirect "<<-" .redirDLessDash, redirect "<>" .redirLessGreat,
   redirect ">|" .redirClobber] ++
  fixed [("&>", .redirAndGreat), ("&>>", .redirAndDGreat)]

end ShellTokens.Shell
