/-!
# Numerals

A position is written in decimal ASCII digits, with a plus sign before them or without, and fits
into 64 bits.
-/

namespace ShellTokens.Text

/-- The number that the digits write after the digits of `n`. -/
def readDigits? : Nat → List Char → Option Nat
  | n, [] => some n
  | n, c :: rest => if c.isDigit then readDigits? (10 * n + (c.toNat - 48)) rest else none

/-- One digit at least. -/
def unsigned? : List Char → Option Nat
  | [] => none
  | digits => readDigits? 0 digits

def position? (text : String) : Option Nat :=
  let n? :=
    match text.toList with
    | '+' :: digits => unsigned? digits
    | digits => unsigned? digits
  n?.filter (· < UInt64.size)

end ShellTokens.Text
