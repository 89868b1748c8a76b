import ExprLang.CommandLine.Arguments
import ExprLang.CommandLine.Run
import ExprLang.Console
import ExprLang.Diagnostic.Basic
import ExprLang.Diagnostic.Excerpt
import ExprLang.Evaluation.Basic
import ExprLang.Evaluation.Machine
import ExprLang.Evaluation.Operator
import ExprLang.Evaluation.Program
import ExprLang.Fault
import ExprLang.Limits
import ExprLang.Main
import ExprLang.Parsing.Expression
import ExprLang.Parsing.Program
import ExprLang.Parsing.State
import ExprLang.Proofs.Console
import ExprLang.Proofs.Console.Exchanges
import ExprLang.Proofs.Diagnostic.Detailed
import ExprLang.Proofs.Diagnostic.Excerpt
import ExprLang.Proofs.Diagnostic.Listed
import ExprLang.Proofs.Ending
import ExprLang.Proofs.Evaluation.Arithmetic
import ExprLang.Proofs.Evaluation.Change
import ExprLang.Proofs.Evaluation.Final
import ExprLang.Proofs.Evaluation.Frame
import ExprLang.Proofs.Evaluation.Heap
import ExprLang.Proofs.Evaluation.Limit
import ExprLang.Proofs.Evaluation.Mirror
import ExprLang.Proofs.Evaluation.Operator
import ExprLang.Proofs.Evaluation.ReadBack
import ExprLang.Proofs.Evaluation.Repeat
import ExprLang.Proofs.Evaluation.Run
import ExprLang.Proofs.Evaluation.Session
import ExprLang.Proofs.Evaluation.Sound
import ExprLang.Proofs.Evaluation.Word
import ExprLang.Proofs.Grammar.Basic
import ExprLang.Proofs.Grammar.Climbing
import ExprLang.Proofs.Grammar.Complete
import ExprLang.Proofs.Grammar.Content
import ExprLang.Proofs.Grammar.Grouping
import ExprLang.Proofs.Grammar.Identifiers
import ExprLang.Proofs.Grammar.Printed
import ExprLang.Proofs.Grammar.Sequence
import ExprLang.Proofs.Grammar.Sound
import ExprLang.Proofs.Machine
import ExprLang.Proofs.OperatorChain
import ExprLang.Proofs.Parsing.Alike
import ExprLang.Proofs.Parsing.Building
import ExprLang.Proofs.Parsing.Charging
import ExprLang.Proofs.Parsing.Correct
import ExprLang.Proofs.Parsing.Depth
import ExprLang.Proofs.Parsing.Integers
import ExprLang.Proofs.Parsing.Lookahead
import ExprLang.Proofs.Parsing.Loop
import ExprLang.Proofs.Parsing.Orderly
import ExprLang.Proofs.Parsing.Parentheses
import ExprLang.Proofs.Parsing.Places
import ExprLang.Proofs.Parsing.Program
import ExprLang.Proofs.Parsing.Routines
import ExprLang.Proofs.Parsing.Run
import ExprLang.Proofs.Parsing.Sources
import ExprLang.Proofs.Parsing.Steps
import ExprLang.Proofs.Parsing.Termination
import ExprLang.Proofs.Parsing.Truncation
import ExprLang.Proofs.Scope
import ExprLang.Proofs.Scope.History
import ExprLang.Proofs.Syntax.Moving
import ExprLang.Proofs.Syntax.Nodes
import ExprLang.Proofs.Syntax.Places
import ExprLang.Proofs.Syntax.Scanning
import ExprLang.Proofs.Syntax.Tokens
import ExprLang.Proofs.Syntax.Unplaced
import ExprLang.Proofs.Syntax.WellFormed
import ExprLang.Proofs.Text.Numeral
import ExprLang.Proofs.Token.Branches
import ExprLang.Proofs.Token.Joined
import ExprLang.Proofs.Token.Lines
import ExprLang.Proofs.Token.Longest
import ExprLang.Proofs.Token.Pulls
import ExprLang.Proofs.Token.Reading
import ExprLang.Proofs.Token.Scanned
import ExprLang.Proofs.Token.Tiling
import ExprLang.Proofs.Value.Part
import ExprLang.Proofs.Value.Renaming
import ExprLang.Scope
import ExprLang.Span
import ExprLang.Syntax.Node
import ExprLang.Syntax.Printer
import ExprLang.Syntax.Traversal
import ExprLang.Text.Blank
import ExprLang.Text.Line
import ExprLang.Text.Numeral
import ExprLang.Text.Printable
import ExprLang.Text.Quoted
import ExprLang.Text.Slice
import ExprLang.Text.Utf8
import ExprLang.Token.Basic
import ExprLang.Token.Kind
import ExprLang.Token.Lexeme
import ExprLang.Token.Scan
import ExprLang.Token.Scanner
import ExprLang.Value.Basic
import ExprLang.Value.Display
import ExprLang.Value.Failure
