import ShellTokens.Category

/-!
# Terminals

The terminals are the tokens of the shell grammar. Each belongs to one category and is written as
the name of its category, an underscore and a word of its own.
-/

namespace ShellTokens

/-- The terminals, grouped by category. -/
inductive Terminal where
  | undefinedTok
  | unknownTok | unknownBackslash
  | eolTok
  | ignoredLineCont | ignoredSpace | ignoredComment
  | wsSpace
  | litChars | litVarLike | litArrayLhsOpen | litOther | litEscapedChar | litLBrace | litRBrace
  | litComma | litTildeLike | litPound | litDigits | litAt | litArithVarLike | litDRightBracket
  | litSlash
  | opNewline | opAmp | opPipe | opPipeAmp | opDAmp | opDPipe | opSemi | opDSemi | opLParen
  | opRParen | opDLeftParen
  | redirLess | redirGreat | redirDLess | redirTLess | redirDGreat | redirGreatAnd | redirLessAnd
  | redirDLessDash | redirLessGreat | redirClobber | redirAndGreat | redirAndDGreat
  | leftDoubleQuote | leftSingleQuote | leftDollarDoubleQuote | leftDollarSingleQuote
  | leftBacktick | leftCommandSub | leftVarSub | leftArithSub | leftArithSub2 | leftProcSubIn
  | leftProcSubOut | leftDqBacktick | leftDqCommandSub | leftDqVarSub | leftDqArithSub
  | leftDqArithSub2
  | rightDoubleQuote | rightSingleQuote | rightVarSub
  | backtickRight | backtickQuoted | backtickOther
  | vSubDollarName | vSubName | vSubNumber | vSubBang | vSubAt | vSubPound | vSubDollar | vSubStar
  | vSubHyphen | vSubQMark
  | vTestColonHyphen | vTestHyphen | vTestColonEquals | vTestEquals | vTestColonQMark | vTestQMark
  | vTestColonPlus | vTestPlus
  | vOp1Percent | vOp1DPercent | vOp1Pound | vOp1DPound
  | vOp2Slash | vOp2Colon | vOp2LBracket
  | arithPlus | arithMinus | arithStar | arithSlash | arithPercent | arithDStar | arithDPlus
  | arithDMinus | arithLess | arithGreat | arithLessEqual | arithGreatEqual | arithDEqual
  | arithNEqual | arithDAmp | arithDPipe | arithBang | arithAmp | arithPipe | arithCaret
  | arithTilde | arithDLess | arithDGreat | arithEqual | arithPlusEqual | arithMinusEqual
  | arithStarEqual | arithSlashEqual | arithPercentEqual | arithDLessEqual | arithDGreatEqual
  | arithAmpEqual | arithPipeEqual | arithCaretEqual | arithQMark | arithColon | arithComma
  | arithSemi | arithLParen | arithRParen | arithLBracket | arithRBracket | arithRBrace
  | kwDLeftBracket | kwBang | kwFor | kwWhile | kwUntil | kwDo | kwDone | kwIn | kwCase | kwEsac
  | kwIf | kwFi | kwThen | kwElse | kwElif | kwFunction | kwTime
  | assignDeclare | assignTypeset | assignLocal | assignReadonly | assignExport
  | controlFlowBreak | controlFlowContinue | controlFlowReturn | controlFlowExit
  | extGlobAt | extGlobStar | extGlobPlus | extGlobQMark | extGlobBang
  | boolUnaryZ | boolUnaryN | boolUnaryE | boolUnaryF | boolUnaryD | boolUnaryR | boolUnaryW
  | boolUnaryX | boolUnaryS | boolUnaryL | boolUnaryH | boolUnaryT | boolUnaryO | boolUnaryV
  | boolBinaryEqual | boolBinaryDEqual | boolBinaryNEqual | boolBinaryEqualTilde
  | boolBinaryStrLess | boolBinaryStrGreat | boolBinaryEq | boolBinaryNe | boolBinaryLt
  | boolBinaryLe | boolBinaryGt | boolBinaryGe | boolBinaryNt | boolBinaryOt | boolBinaryEf
  | charOneChar | charStop | charHex | charOctal | charUnicode4 | charUnicode8
deriving DecidableEq, Repr

namespace Terminal

def all : List Terminal :=
  [.undefinedTok, .unknownTok, .unknownBackslash, .eolTok, .ignoredLineCont, .ignoredSpace,
   .ignoredComment, .wsSpace, .litChars, .litVarLike, .litArrayLhsOpen, .litOther,
   .litEscapedChar, .litLBrace, .litRBrace, .litComma, .litTildeLike, .litPound, .litDigits,
   .litAt, .litArithVarLike, .litDRightBracket, .litSlash, .opNewline, .opAmp, .opPipe,
   .opPipeAmp, .opDAmp, .opDPipe, .opSemi, .opDSemi, .opLParen, .opRParen, .opDLeftParen,
   .redirLess, .redirGreat, .redirDLess, .redirTLess, .redirDGreat, .redirGreatAnd,
   .redirLessAnd, .redirDLessDash, .redirLessGreat, .redirClobber, .redirAndGreat,
   .redirAndDGreat, .leftDoubleQuote, .leftSingleQuote, .leftDollarDoubleQuote,
   .leftDollarSingleQuote, .leftBacktick, .leftCommandSub, .leftVarSub, .leftArithSub,
   .leftArithSub2, .leftProcSubIn, .leftProcSubOut, .leftDqBacktick, .leftDqCommandSub,
   .leftDqVarSub, .leftDqArithSub, .leftDqArithSub2, .rightDoubleQuote, .rightSingleQuote,
   .rightVarSub, .backtickRight, .backtickQuoted, .backtickOther, .vSubDollarName, .vSubName,
   .vSubNumber, .vSubBang, .vSubAt, .vSubPound, .vSubDollar, .vSubStar, .vSubHyphen,
   .vSubQMark, .vTestColonHyphen, .vTestHyphen, .vTestColonEquals, .vTestEquals,
   .vTestColonQMark, .vTestQMark, .vTestColonPlus, .vTestPlus, .vOp1Percent, .vOp1DPercent,
   .vOp1Pound, .vOp1DPound, .vOp2Slash, .vOp2Colon, .vOp2LBracket, .arithPlus, .arithMinus,
   .arithStar, .arithSlash, .arithPercent, .arithDStar, .arithDPlus, .arithDMinus, .arithLess,
   .arithGreat, .arithLessEqual, .arithGreatEqual, .arithDEqual, .arithNEqual, .arithDAmp,
   .arithDPipe, .arithBang, .arithAmp, .arithPipe, .arithCaret, .arithTilde, .arithDLess,
   .arithDGreat, .arithEqual, .arithPlusEqual, .arithMinusEqual, .arithStarEqual,
   .arithSlashEqual, .arithPercentEqual, .arithDLessEqual, .arithDGreatEqual, .arithAmpEqual,
   .arithPipeEqual, .arithCaretEqual, .arithQMark, .arithColon, .arithComma, .arithSemi,
   .arithLParen, .arithRParen, .arithLBracket, .arithRBracket, .arithRBrace, .kwDLeftBracket,
   .kwBang, .kwFor, .kwWhile, .kwUntil, .kwDo, .kwDone, .kwIn, .kwCase, .kwEsac, .kwIf, .kwFi,
   .kwThen, .kwElse, .kwElif, .kwFunction, .kwTime, .assignDeclare, .assignTypeset,
   .assignLocal, .assignReadonly, .assignExport, .controlFlowBreak, .controlFlowContinue,
   .controlFlowReturn, .controlFlowExit, .extGlobAt, .extGlobStar, .extGlobPlus, .extGlobQMark,
   .extGlobBang, .boolUnaryZ, .boolUnaryN, .boolUnaryE, .boolUnaryF, .boolUnaryD, .boolUnaryR,
   .boolUnaryW, .boolUnaryX, .boolUnaryS, .boolUnaryL, .boolUnaryH, .boolUnaryT, .boolUnaryO,
   .boolUnaryV, .boolBinaryEqual, .boolBinaryDEqual, .boolBinaryNEqual, .boolBinaryEqualTilde,
   .boolBinaryStrLess, .boolBinaryStrGreat, .boolBinaryEq, .boolBinaryNe, .boolBinaryLt,
   .boolBinaryLe, .boolBinaryGt, .boolBinaryGe, .boolBinaryNt, .boolBinaryOt, .boolBinaryEf,
   .charOneChar, .charStop, .charHex, .charOctal, .charUnicode4, .charUnicode8]

/-- The place in the order of terminals. -/
def index (t : Terminal) : Nat :=
  t.ctorIdx

/-- The category to which the terminal belongs. -/
def category : Terminal → Category
  | undefinedTok => .undefined
  | unknownTok | unknownBackslash => .unknown
  | eolTok => .endOfLine
  | ignoredLineCont | ignoredSpace | ignoredComment => .ignored
  | wsSpace => .space
  | litChars | litVarLike | litArrayLhsOpen | litOther | litEscapedChar | litLBrace | litRBrace
  | litComma | litTildeLike | litPound | litDigits | litAt | litArithVarLike | litDRightBracket
  | litSlash => .literal
  | opNewline | opAmp | opPipe | opPipeAmp | opDAmp | opDPipe | opSemi | opDSemi | opLParen
  | opRParen | opDLeftParen => .operator
  | redirLess | redirGreat | redirDLess | redirTLess | redirDGreat | redirGreatAnd
  | redirLessAnd | redirDLessDash | redirLessGreat | redirClobber | redirAndGreat
  | redirAndDGreat => .redirect
  | leftDoubleQuote | leftSingleQuote | leftDollarDoubleQuote | leftDollarSingleQuote
  | leftBacktick | leftCommandSub | leftVarSub | leftArithSub | leftArithSub2 | leftProcSubIn
  | leftProcSubOut | leftDqBacktick | leftDqCommandSub | leftDqVarSub | leftDqArithSub
  | leftDqArithSub2 => .opener
  | rightDoubleQuote | rightSingleQuote | rightVarSub => .closer
  | backtickRight | backtickQuoted | backtickOther => .backtick
  | vSubDollarName | vSubName | vSubNumber | vSubBang | vSubAt | vSubPound | vSubDollar
  | vSubStar | vSubHyphen | vSubQMark => .varSub
  | vTestColonHyphen | vTestHyphen | vTestColonEquals | vTestEquals | vTestColonQMark
  | vTestQMark | vTestColonPlus | vTestPlus => .varTest
  | vOp1Percent | vOp1DPercent | vOp1Pound | vOp1DPound => .varTrim
  | vOp2Slash | vOp2Colon | vOp2LBracket => .varSlice
  | arithPlus | arithMinus | arithStar | arithSlash | arithPercent | arithDStar | arithDPlus
  | arithDMinus | arithLess | arithGreat | arithLessEqual | arithGreatEqual | arithDEqual
  | arithNEqual | arithDAmp | arithDPipe | arithBang | arithAmp | arithPipe | arithCaret
  | arithTilde | arithDLess | arithDGreat | arithEqual | arithPlusEqual | arithMinusEqual
  | arithStarEqual | arithSlashEqual | arithPercentEqual | arithDLessEqual | arithDGreatEqual
  | arithAmpEqual | arithPipeEqual | arithCaretEqual | arithQMark | arithColon | arithComma
  | arithSemi | arithLParen | arithRParen | arithLBracket | arithRBracket | arithRBrace => .arith
  | kwDLeftBracket | kwBang | kwFor | kwWhile | kwUntil | kwDo | kwDone | kwIn | kwCase
  | kwEsac | kwIf | kwFi | kwThen | kwElse | kwElif | kwFunction | kwTime => .keyword
  | assignDeclare | assignTypeset | assignLocal | assignReadonly | assignExport => .assign
  | controlFlowBreak | controlFlowContinue | controlFlowReturn | controlFlowExit => .controlFlow
  | extGlobAt | extGlobStar | extGlobPlus | extGlobQMark | extGlobBang => .extGlob
  | boolUnaryZ | boolUnaryN | boolUnaryE | boolUnaryF | boolUnaryD | boolUnaryR | boolUnaryW
  | boolUnaryX | boolUnaryS | boolUnaryL | boolUnaryH | boolUnaryT | boolUnaryO
  | boolUnaryV => .boolUnary
  | boolBinaryEqual | boolBinaryDEqual | boolBinaryNEqual | boolBinaryEqualTilde
  | boolBinaryStrLess | boolBinaryStrGreat | boolBinaryEq | boolBinaryNe | boolBinaryLt
  | boolBinaryLe | boolBinaryGt | boolBinaryGe | boolBinaryNt | boolBinaryOt
  | boolBinaryEf => .boolBinary
  | charOneChar | charStop | charHex | charOctal | charUnicode4 | charUnicode8 => .charEscape

/-- The word that tells the terminal apart within its category. -/
def word : Terminal → String
  | undefinedTok => "Tok"
  | unknownTok => "Tok"
  | unknownBackslash => "Backslash"
  | eolTok => "Tok"
  | ignoredLineCont => "LineCont"
  | ignoredSpace => "Space"
  | ignoredComment => "Comment"
  | wsSpace => "Space"
  | litChars => "Chars"
  | litVarLike => "VarLike"
  | litArrayLhsOpen => "ArrayLhsOpen"
  | litOther => "Other"
  | litEscapedChar => "EscapedChar"
  | litLBrace => "LBrace"
  | litRBrace => "RBrace"
  | litComma => "Comma"
  | litTildeLike => "TildeLike"
  | litPound => "Pound"
  | litDigits => "Digits"
  | litAt => "At"
  | litArithVarLike => "ArithVarLike"
  | litDRightBracket => "DRightBracket"
  | litSlash => "Slash"
  | opNewline => "Newline"
  | opAmp => "Amp"
  | opPipe => "Pipe"
  | opPipeAmp => "PipeAmp"
  | opDAmp => "DAmp"
  | opDPipe => "DPipe"
  | opSemi => "Semi"
  | opDSemi => "DSemi"
  | opLParen => "LParen"
  | opRParen => "RParen"
  | opDLeftParen => "DLeftParen"
  | redirLess => "Less"
  | redirGreat => "Great"
  | redirDLess => "DLess"
  | redirTLess => "TLess"
  | redirDGreat => "DGreat"
  | redirGreatAnd => "GreatAnd"
  | redirLessAnd => "LessAnd"
  | redirDLessDash => "DLessDash"
  | redirLessGreat => "LessGreat"
  | redirClobber => "Clobber"
  | redirAndGreat => "AndGreat"
  | redirAndDGreat => "AndDGreat"
  | leftDoubleQuote => "DoubleQuote"
  | leftSingleQuote => "SingleQuote"
  | leftDollarDoubleQuote => "DollarDoubleQuote"
  | leftDollarSingleQuote => "DollarSingleQuote"
  | leftBacktick => "Backtick"
  | leftCommandSub => "CommandSub"
  | leftVarSub => "VarSub"
  | leftArithSub => "ArithSub"
  | leftArithSub2 => "ArithSub2"
  | leftProcSubIn => "ProcSubIn"
  | leftProcSubOut => "ProcSubOut"
  | leftDqBacktick => "DqBacktick"
  | leftDqCommandSub => "DqCommandSub"
  | leftDqVarSub => "DqVarSub"
  | leftDqArithSub => "DqArithSub"
  | leftDqArithSub2 => "DqArithSub2"
  | rightDoubleQuote => "DoubleQuote"
  | rightSingleQuote => "SingleQuote"
  | rightVarSub => "VarSub"
  | backtickRight => "Right"
  | backtickQuoted => "Quoted"
  | backtickOther => "Other"
  | vSubDollarName => "DollarName"
  | vSubName => "Name"
  | vSubNumber => "Number"
  | vSubBang => "Bang"
  | vSubAt => "At"
  | vSubPound => "Pound"
  | vSubDollar => "Dollar"
  | vSubStar => "Star"
  | vSubHyphen => "Hyphen"
  | vSubQMark => "QMark"
  | vTestColonHyphen => "ColonHyphen"
  | vTestHyphen => "Hyphen"
  | vTestColonEquals => "ColonEquals"
  | vTestEquals => "Equals"
  | vTestColonQMark => "ColonQMark"
  | vTestQMark => "QMark"
  | vTestColonPlus => "ColonPlus"
  | vTestPlus => "Plus"
  | vOp1Percent => "Percent"
  | vOp1DPercent => "DPercent"
  | vOp1Pound => "Pound"
  | vOp1DPound => "DPound"
  | vOp2Slash => "Slash"
  | vOp2Colon => "Colon"
  | vOp2LBracket => "LBracket"
  | arithPlus => "Plus"
  | arithMinus => "Minus"
  | arithStar => "Star"
  | arithSlash => "Slash"
  | arithPercent => "Percent"
  | arithDStar => "DStar"
  | arithDPlus => "DPlus"
  | arithDMinus => "DMinus"
  | arithLess => "Less"
  | arithGreat => "Great"
  | arithLessEqual => "LessEqual"
  | arithGreatEqual => "GreatEqual"
  | arithDEqual => "DEqual"
  | arithNEqual => "NEqual"
  | arithDAmp => "DAmp"
  | arithDPipe => "DPipe"
  | arithBang => "Bang"
  | arithAmp => "Amp"
  | arithPipe => "Pipe"
  | arithCaret => "Caret"
  | arithTilde => "Tilde"
  | arithDLess => "DLess"
  | arithDGreat => "DGreat"
  | arithEqual => "Equal"
  | arithPlusEqual => "PlusEqual"
  | arithMinusEqual => "MinusEqual"
  | arithStarEqual => "StarEqual"
  | arithSlashEqual => "SlashEqual"
  | arithPercentEqual => "PercentEqual"
  | arithDLessEqual => "DLessEqual"
  | arithDGreatEqual => "DGreatEqual"
  | arithAmpEqual => "AmpEqual"
  | arithPipeEqual => "PipeEqual"
  | arithCaretEqual => "CaretEqual"
  | arithQMark => "QMark"
  | arithColon => "Colon"
  | arithComma => "Comma"
  | arithSemi => "Semi"
  | arithLParen => "LParen"
  | arithRParen => "RParen"
  | arithLBracket => "LBracket"
  | arithRBracket => "RBracket"
  | arithRBrace => "RBrace"
  | kwDLeftBracket => "DLeftBracket"
  | kwBang => "Bang"
  | kwFor => "For"
  | kwWhile => "While"
  | kwUntil => "Until"
  | kwDo => "Do"
  | kwDone => "Done"
  | kwIn => "In"
  | kwCase => "Case"
  | kwEsac => "Esac"
  | kwIf => "If"
  | kwFi => "Fi"
  | kwThen => "Then"
  | kwElse => "Else"
  | kwElif => "Elif"
  | kwFunction => "Function"
  | kwTime => "Time"
  | assignDeclare => "Declare"
  | assignTypeset => "Typeset"
  | assignLocal => "Local"
  | assignReadonly => "Readonly"
  | assignExport => "Export"
  | controlFlowBreak => "Break"
  | controlFlowContinue => "Continue"
  | controlFlowReturn => "Return"
  | controlFlowExit => "Exit"
  | extGlobAt => "At"
  | extGlobStar => "Star"
  | extGlobPlus => "Plus"
  | extGlobQMark => "QMark"
  | extGlobBang => "Bang"
  | boolUnaryZ => "z"
  | boolUnaryN => "n"
  | boolUnaryE => "e"
  | boolUnaryF => "f"
  | boolUnaryD => "d"
  | boolUnaryR => "r"
  | boolUnaryW => "w"
  | boolUnaryX => "x"
  | boolUnaryS => "s"
  | boolUnaryL => "L"
  | boolUnaryH => "h"
  | boolUnaryT => "t"
  | boolUnaryO => "o"
  | boolUnaryV => "v"
  | boolBinaryEqual => "Equal"
  | boolBinaryDEqual => "DEqual"
  | boolBinaryNEqual => "NEqual"
  | boolBinaryEqualTilde => "EqualTilde"
  | boolBinaryStrLess => "StrLess"
  | boolBinaryStrGreat => "StrGreat"
  | boolBinaryEq => "eq"
  | boolBinaryNe => "ne"
  | boolBinaryLt => "lt"
  | boolBinaryLe => "le"
  | boolBinaryGt => "gt"
  | boolBinaryGe => "ge"
  | boolBinaryNt => "nt"
  | boolBinaryOt => "ot"
  | boolBinaryEf => "ef"
  | charOneChar => "OneChar"
  | charStop => "Stop"
  | charHex => "Hex"
  | charOctal => "Octal"
  | charUnicode4 => "Unicode4"
  | charUnicode8 => "Unicode8"

/-- The written form, such as `Lit_Chars`. -/
def name (t : Terminal) : String :=
  t.category.name ++ "_" ++ t.word

/-- Reserved words and the builtins that the grammar treats like them. -/
def isKeywordLike (t : Terminal) : Bool :=
  match t.category with
  | .keyword | .assign | .controlFlow => true
  | _ => false

/-- Substitutions that are opened within double quotes, so that their result is not split. -/
def isQuotedSub : Terminal → Bool
  | leftDqBacktick | leftDqCommandSub | leftDqVarSub | leftDqArithSub | leftDqArithSub2 => true
  | _ => false

/-- Trivia that can be skipped without a change of meaning. -/
def isIgnored (t : Terminal) : Bool :=
  t.category = .ignored

end Terminal

/-- The terminals of the category, in their order. -/
def Category.terminals (c : Category) : List Terminal :=
  Terminal.all.filter fun t => t.category = c

end ShellTokens
