import Sting.Command.Options
import Sting.Command.Report
import Sting.Console
import Sting.Console.Stream
import Sting.Diagnostic
import Sting.Environment
import Sting.Expression
import Sting.Expression.Evaluation
import Sting.Expression.Instruction
import Sting.Expression.Lexeme
import Sting.Expression.Operator
import Sting.Failure
import Sting.Json
import Sting.Json.Report
import Sting.Machine
import Sting.Main
import Sting.Number
import Sting.Number.Decimal
import Sting.Number.Magnitude
import Sting.Number.Typed
import Sting.Position
import Sting.Proofs.Expression.Climbing
import Sting.Proofs.Expression.Conservation
import Sting.Proofs.Expression.Conversion
import Sting.Proofs.Expression.Equality
import Sting.Proofs.Expression.Height
import Sting.Proofs.Expression.Isolation
import Sting.Proofs.Expression.Numerals
import Sting.Proofs.Expression.OneLine
import Sting.Proofs.Expression.Parentheses
import Sting.Proofs.Expression.Strays
import Sting.Proofs.Expression.Tokens
import Sting.Proofs.Expression.Tree
import Sting.Proofs.Expression.Types
import Sting.Proofs.Json.Decoder
import Sting.Proofs.Json.Numbers
import Sting.Proofs.Json.Reports
import Sting.Proofs.Json.RoundTrip
import Sting.Proofs.Machine.Atomicity
import Sting.Proofs.Machine.Execution
import Sting.Proofs.Machine.Faults
import Sting.Proofs.Machine.Frames
import Sting.Proofs.Machine.Interference
import Sting.Proofs.Machine.Journal
import Sting.Proofs.Machine.Laziness
import Sting.Proofs.Machine.Loops
import Sting.Proofs.Machine.OneLine
import Sting.Proofs.Machine.Single
import Sting.Proofs.Machine.Steps
import Sting.Proofs.Machine.TypedNumbers
import Sting.Proofs.Machine.Typing
import Sting.Proofs.Machine.Variables
import Sting.Proofs.Number.Doubles
import Sting.Proofs.Statement.Accumulation
import Sting.Proofs.Statement.Blocks
import Sting.Proofs.Statement.EndOfInput
import Sting.Proofs.Statement.Lines
import Sting.Proofs.Statement.Lookahead
import Sting.Proofs.Statement.Nesting
import Sting.Proofs.Statement.OneLine
import Sting.Proofs.Statement.Parts
import Sting.Proofs.Statement.Places
import Sting.Proofs.Statement.Progress
import Sting.Proofs.Statement.Rereading
import Sting.Proofs.Statement.Separators
import Sting.Proofs.Statement.Shape
import Sting.Proofs.Statement.Source
import Sting.Proofs.Statement.Spacing
import Sting.Proofs.Statement.WellFormed
import Sting.Proofs.Statement.Written
import Sting.Proofs.Text.ByteOrder
import Sting.Proofs.Text.OneLine
import Sting.Proofs.Token.Comments
import Sting.Proofs.Token.Keywords
import Sting.Proofs.Token.Positions
import Sting.Proofs.Token.Spelling
import Sting.Proofs.Token.Strays
import Sting.Record
import Sting.Session
import Sting.Statement
import Sting.Statement.Clause
import Sting.Statement.Printer
import Sting.Statement.Reader
import Sting.Text.Blank
import Sting.Text.Cut
import Sting.Text.DecimalDigit
import Sting.Text.Letters
import Sting.Text.Lines
import Sting.Token
import Sting.Token.Piece
import Sting.Value
