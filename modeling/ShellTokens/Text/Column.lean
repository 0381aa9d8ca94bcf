/-!
# Columns

A text is brought to the width of a column with spaces. A text that is wider than its column is left
as it is.
-/

namespace ShellTokens.Text

/-- The text with spaces behind it. -/
def padRight (width : Nat) (text : String) : String :=
  String.ofList (List.rightpad width ' ' text.toList)

/-- The text with spaces before it. -/
def padLeft (width : Nat) (text : String) : String :=
  String.ofList (List.leftpad width ' ' text.toList)

end ShellTokens.Text
