import ShellTokens.ByteSet.Lemmas
import ShellTokens.Main
import ShellTokens.Positions.Lemmas
import ShellTokens.Proofs.Pattern.Language
import ShellTokens.Proofs.Pattern.MatchEnds
import ShellTokens.Proofs.Pattern.FirstBytes
import ShellTokens.Proofs.Pattern.LongestMatch
import ShellTokens.Proofs.Pattern.Rounds
import ShellTokens.Proofs.Pattern.ByteRuns
import ShellTokens.Proofs.Table.LongestRule
import ShellTokens.Proofs.Table.RuleOrder
import ShellTokens.Proofs.Pattern.Alphabet
import ShellTokens.Proofs.Tiling
import ShellTokens.Proofs.Shell.Progress
import ShellTokens.Proofs.Pattern.Exactness
import ShellTokens.Proofs.Grammar.BarrenRules
import ShellTokens.Proofs.Locality
import ShellTokens.Proofs.Cursor.Lexes
import ShellTokens.Proofs.Lines
import ShellTokens.Proofs.Shell.LineBreaks
import ShellTokens.Proofs.Cursor.Requests
import ShellTokens.Proofs.Grammar.Queries
import ShellTokens.Proofs.Report.FileReport
import ShellTokens.Proofs.Shell.LexedLines
import ShellTokens.Proofs.Pattern.Derivative
import ShellTokens.Proofs.Pattern.ByteClasses
import ShellTokens.Proofs.Pattern.SimpleForm
import ShellTokens.Proofs.Table.NextByte
import ShellTokens.Proofs.Table.States
import ShellTokens.Proofs.Cursor.Iteration
import ShellTokens.Proofs.Cursor.LookAhead
import ShellTokens.Proofs.Shell.Blanks
import ShellTokens.Proofs.Table.RenamedBytes
import ShellTokens.Proofs.Shell.Closers
import ShellTokens.Proofs.Shell.HereDocs
import ShellTokens.Proofs.Shell.EscapedText
import ShellTokens.Proofs.Shell.DollarSigns
import ShellTokens.Proofs.Shell.Keywords
import ShellTokens.Proofs.Shell.Redirections
import ShellTokens.Proofs.Shell.AnsiEscapes
import ShellTokens.Proofs.Shell.VariableNames
import ShellTokens.Proofs.Shell.MaximalRuns
import ShellTokens.Proofs.Text.Utf8
import ShellTokens.Proofs.Report.LineReport
import ShellTokens.Proofs.Shell.Characters
import ShellTokens.Proofs.Shell.Numbers
import ShellTokens.Proofs.Grammar.Registration
import ShellTokens.Proofs.Report.Capacity
import ShellTokens.Proofs.Report.CategoryCounts
import ShellTokens.Proofs.ByteSet.Expressions
import ShellTokens.Proofs.Pattern.BeyondEnd
import ShellTokens.Proofs.Pattern.CheckedSums
import ShellTokens.Proofs.CommandLine.Outcomes
