import ShellTokens.ByteSet.Basic

/-!
# Character classes

The classes of bytes from which the shell's tokens are made.
-/

namespace ShellTokens.ByteSet

def digit : ByteSet := range 0x30 0x39

def octalDigit : ByteSet := range 0x30 0x37

def hexDigit : ByteSet := digit ∪ range 0x61 0x66 ∪ range 0x41 0x46

/-- What a variable name begins with: an ASCII letter or an underscore. -/
def nameStart : ByteSet := (range 0x61 0x7a ∪ range 0x41 0x5a).insert 0x5f

/-- What a variable name goes on with: an ASCII letter, an underscore or a digit. -/
def nameRest : ByteSet := nameStart ∪ digit

def notNul : ByteSet := noneOf [0]

def notNulOrNewline : ByteSet := noneOf [0, 0x0a]

/-- The white space that separates words within a line. -/
def blank : ByteSet := ofText " \t\r"

end ShellTokens.ByteSet
