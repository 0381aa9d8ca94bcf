import ShellTokens.Shell.Rules

/-!
# The tables of the shell

Each table takes every byte but NUL by some rule, so its fallback stands only for the end of the
line and for a NUL byte.
-/

namespace ShellTokens.Shell

open Pattern

/-- A table that falls back on the end of the line. -/
def table (rules : List Rule) : Table where
  rules
  fallback := .eolTok

/-- The last rule of most tables: any byte but NUL. -/
def anyByte (t : Terminal) : Rule :=
  rule (oneOf .notNul) t

def command : Table :=
  table <|
    rule (text "\n") .opNewline ::
    fixed [
      ("&", .opAmp), ("|", .opPipe), ("|&", .opPipeAmp), ("&&", .opDAmp), ("||", .opDPipe),
      (";", .opSemi), (";;", .opDSemi), ("(", .opLParen), (")", .opRParen),
      ("((", .opDLeftParen)] ++
    redirects ++
    [rule (concat [varName, text "="]) .litVarLike,
     rule (concat [varName, text "+="]) .litVarLike,
     rule (concat [varName, text "["]) .litArrayLhsOpen] ++
    fixed [("\x7b", .litLBrace), ("\x7d", .litRBrace), (",", .litComma)] ++
    [rule (concat [text "~", star userChar]) .litTildeLike] ++
    keywords ++
    wordPartsWithGlobs ++
    [rule (plus .blank) .wsSpace, anyByte .litOther]

def comment : Table :=
  table [rule (plus .notNulOrNewline) .ignoredComment, rule (text "\n") .opNewline]

def backtick : Table :=
  table
    [rule (text "`") .backtickRight,
     rule (escaped (.ofText "$`\\")) .backtickQuoted,
     rule (plus (plainExcept "`\\")) .backtickOther,
     anyByte .backtickOther]

def doubleBracket : Table :=
  table <|
    rule (text "]]") .litDRightBracket ::
    fixed [
      ("!", .kwBang), ("(", .opLParen), (")", .opRParen), ("&&", .opDAmp), ("||", .opDPipe),
      ("\n", .opNewline), ("-z", .boolUnaryZ), ("-n", .boolUnaryN), ("-e", .boolUnaryE),
      ("-f", .boolUnaryF), ("-d", .boolUnaryD), ("-r", .boolUnaryR), ("-w", .boolUnaryW),
      ("-x", .boolUnaryX), ("-s", .boolUnaryS), ("-L", .boolUnaryL), ("-h", .boolUnaryH),
      ("-t", .boolUnaryT), ("-o", .boolUnaryO), ("-v", .boolUnaryV), ("=", .boolBinaryEqual),
      ("==", .boolBinaryDEqual), ("!=", .boolBinaryNEqual), ("=~", .boolBinaryEqualTilde),
      ("<", .boolBinaryStrLess), (">", .boolBinaryStrGreat), ("-eq", .boolBinaryEq),
      ("-ne", .boolBinaryNe), ("-lt", .boolBinaryLt), ("-le", .boolBinaryLe),
      ("-gt", .boolBinaryGt), ("-ge", .boolBinaryGe), ("-nt", .boolBinaryNt),
      ("-ot", .boolBinaryOt), ("-ef", .boolBinaryEf)] ++
    wordPartsWithGlobs ++
    [rule (plus .blank) .wsSpace, anyByte .litOther]

def singleQuoted : Table :=
  table [rule (plus (plainExcept "'")) .litChars, rule (text "'") .rightSingleQuote]

def doubleQuoted : Table :=
  table <|
    quotedEscapes ++ quotedSubstitutions ++ varRefs ++
    [rule (plus (plainExcept "$`\"\\")) .litChars,
     rule (text "\"") .rightDoubleQuote,
     anyByte .litOther]

def dollarSingleQuoted : Table :=
  table
    [rule (escaped (.ofText "abeEfnrtv\\'\"?")) .charOneChar,
     rule (text "\\c") .charStop,
     rule (concat [text "\\x", times (oneOf .hexDigit) 1 (some 2)]) .charHex,
     rule (concat [byte 0x5c, times (oneOf .octalDigit) 1 (some 3)]) .charOctal,
     rule (concat [text "\\u", times (oneOf .hexDigit) 1 (some 4)]) .charUnicode4,
     rule (concat [text "\\U", times (oneOf .hexDigit) 1 (some 8)]) .charUnicode8,
     rule (plus (plainExcept "'\\")) .litChars,
     rule (text "'") .rightSingleQuote,
     rule (escaped .notNul) .unknownBackslash,
     rule (byte 0x5c) .unknownBackslash]

/-- A number is one token, whether decimal, hexadecimal (`0x1F`) or with a base (`16#ff`). -/
def arith : Table :=
  table <|
    [rule (plus (.ofText " \t\r\n")) .ignoredSpace,
     lineContinuation,
     rule varName .litArithVarLike,
     rule (concat [oneOf .digit, star .nameRest]) .litDigits,
     rule (concat [plus .digit, text "#", plus (ByteSet.nameRest.insert 0x40)]) .litDigits] ++
    fixed [
      ("@", .litAt), ("#", .litPound), ("+", .arithPlus), ("-", .arithMinus), ("*", .arithStar),
      ("/", .arithSlash), ("%", .arithPercent), ("**", .arithDStar), ("++", .arithDPlus),
      ("--", .arithDMinus), ("<", .arithLess), (">", .arithGreat), ("<=", .arithLessEqual),
      (">=", .arithGreatEqual), ("==", .arithDEqual), ("!=", .arithNEqual), ("&&", .arithDAmp),
      ("||", .arithDPipe), ("!", .arithBang), ("&", .arithAmp), ("|", .arithPipe),
      ("^", .arithCaret), ("~", .arithTilde), ("<<", .arithDLess), (">>", .arithDGreat),
      ("=", .arithEqual), ("+=", .arithPlusEqual), ("-=", .arithMinusEqual),
      ("*=", .arithStarEqual), ("/=", .arithSlashEqual), ("%=", .arithPercentEqual),
      ("<<=", .arithDLessEqual), (">>=", .arithDGreatEqual), ("&=", .arithAmpEqual),
      ("|=", .arithPipeEqual), ("^=", .arithCaretEqual), ("?", .arithQMark), (":", .arithColon),
      (",", .arithComma), (";", .arithSemi), ("(", .arithLParen), (")", .arithRParen),
      ("[", .arithLBracket), ("]", .arithRBracket), ("\x7d", .arithRBrace),
      ("\"", .leftDoubleQuote)] ++
    substitutions ++ varRefs ++ [anyByte .unknownTok]

def extGlob : Table :=
  table <|
    wordPartsWithGlobs ++
    [rule (text "|") .opPipe, rule (text ")") .opRParen, anyByte .litOther]

def varSubName : Table :=
  table <|
    [rule varName .vSubName, rule (plus .digit) .vSubNumber] ++
    fixed [
      ("!", .vSubBang), ("@", .vSubAt), ("#", .vSubPound), ("$", .vSubDollar), ("*", .vSubStar),
      ("-", .vSubHyphen), ("?", .vSubQMark), ("\x7d", .rightVarSub), ("\\\n", .ignoredLineCont)] ++
    [anyByte .unknownTok]

def varSubOp : Table :=
  table <|
    fixed [
      (":-", .vTestColonHyphen), ("-", .vTestHyphen), (":=", .vTestColonEquals),
      ("=", .vTestEquals), (":?", .vTestColonQMark), ("?", .vTestQMark), (":+", .vTestColonPlus),
      ("+", .vTestPlus), ("%", .vOp1Percent), ("%%", .vOp1DPercent), ("#", .vOp1Pound),
      ("##", .vOp1DPound), ("/", .vOp2Slash), (":", .vOp2Colon), ("[", .vOp2LBracket),
      ("\x7d", .rightVarSub), ("\\\n", .ignoredLineCont)] ++
    [anyByte .unknownTok]

def varSubArg : Table :=
  table <|
    unquotedEscapes ++ substitutions ++ quotes ++ varRefs ++
    [rule (plus (plainExcept "\\$`\"'\x7d/<>")) .litChars,
     rule (text "/") .litSlash,
     rule (text "\x7d") .rightVarSub,
     anyByte .litOther]

/-- Quotes nest: a double quote within the argument opens a string of its own. -/
def quotedVarSubArg : Table :=
  table <|
    quotedEscapes ++ quotedSubstitutions ++ varRefs ++
    [rule (plus (plainExcept "\\$`\"\x7d/")) .litChars,
     rule (text "/") .litSlash,
     rule (text "\x7d") .rightVarSub,
     rule (text "\"") .leftDoubleQuote,
     anyByte .litOther]

/-- In a regular expression `a+(b)` is no extended glob. -/
def regex : Table :=
  table <|
    wordParts ++
    [rule (plus .blank) .wsSpace, rule (text "\n") .opNewline, anyByte .litOther]

/-- As within double quotes, but a double quote is an ordinary character. -/
def hereDoc : Table :=
  table <|
    [rule (escaped (.ofText "$`\\")) .litEscapedChar, lineContinuation] ++
    quotedSubstitutions ++ varRefs ++
    [rule (plus (plainExcept "$`\\")) .litChars, anyByte .litOther]

end ShellTokens.Shell
