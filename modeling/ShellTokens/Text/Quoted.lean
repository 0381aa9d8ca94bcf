import ShellTokens.Text.Visible

/-!
# Quoted text and escaped bytes

A quoted text stands between double quotes on one line. A backslash and one letter stand for the
usual control characters, and a code point in hexadecimal digits for every other character that is
not visible.
-/

namespace ShellTokens.Text

/-- A character as it stands within double quotes. -/
def escapeChar (c : Char) : List Char :=
  if c = '\x00' then ['\\', '0']
  else if c = '\t' then ['\\', 't']
  else if c = '\r' then ['\\', 'r']
  else if c = '\n' then ['\\', 'n']
  else if c = '\\' ∨ c = '"' then ['\\', c]
  else if isVisible c then [c]
  else ['\\', 'u', '\x7b'] ++ Nat.toDigits 16 c.toNat ++ ['\x7d']

def quoted (text : String) : String :=
  String.ofList ('"' :: text.toList.flatMap escapeChar ++ ['"'])

/-- A byte as it stands within a class: printable ASCII as itself, except quotes and backslashes. -/
def escapeByte (b : UInt8) : List Char :=
  let c := Char.ofNat b.toNat
  if c = '\t' then ['\\', 't']
  else if c = '\r' then ['\\', 'r']
  else if c = '\n' then ['\\', 'n']
  else if c = '\'' ∨ c = '"' ∨ c = '\\' then ['\\', c]
  else if 0x20 ≤ b ∧ b < 0x7f then [c]
  else ['\\', 'x'] ++ List.leftpad 2 '0' (Nat.toDigits 16 b.toNat)

end ShellTokens.Text
