import LazyExpr.Lowering.Code
import LazyExpr.Lowering.Eager
import LazyExpr.Lowering.Lower
import LazyExpr.Lowering.Mode
import LazyExpr.Lowering.Setting
import LazyExpr.Lowering.Storage
import LazyExpr.Machine.Drive
import LazyExpr.Machine.Failure
import LazyExpr.Machine.Frame
import LazyExpr.Machine.Handle
import LazyExpr.Machine.Host
import LazyExpr.Machine.Operation
import LazyExpr.Machine.Program
import LazyExpr.Machine.Site
import LazyExpr.Number.Binary
import LazyExpr.Number.Numeral
import LazyExpr.Number.Positional
import LazyExpr.Number.Shortest
import LazyExpr.Number.Word
import LazyExpr.Source.Diagnostic
import LazyExpr.Source.Location
import LazyExpr.Source.Span
import LazyExpr.Syntax.Chain
import LazyExpr.Syntax.Grammar
import LazyExpr.Syntax.Mismatch
import LazyExpr.Syntax.Read
import LazyExpr.Syntax.Rule
import LazyExpr.Syntax.Token
import LazyExpr.Text.Escaped
import LazyExpr.Text.Quoted
import LazyExpr.Text.Unprintable
import LazyExpr.Tree.Expr
import LazyExpr.Tree.Operator
import LazyExpr.Tree.Print
import LazyExpr.Tree.Printable
import LazyExpr.Value.Basic
import LazyExpr.Value.Diagnostic
import LazyExpr.Value.Text
import LazyExpr.Proofs.Induction
import LazyExpr.Proofs.Machine.Steps
import LazyExpr.Proofs.Machine.Layout
import LazyExpr.Proofs.Machine.Evaluation
import LazyExpr.Proofs.Machine.Performance
import LazyExpr.Proofs.Machine.Assembly
import LazyExpr.Proofs.Machine.Readiness
import LazyExpr.Proofs.Machine.Registers
import LazyExpr.Proofs.Machine.Knowledge
import LazyExpr.Proofs.Machine.Execution
import LazyExpr.Proofs.Machine.Failing
import LazyExpr.Proofs.Machine.Soundness
import LazyExpr.Proofs.Machine.Session
import LazyExpr.Proofs.Machine.Paths
import LazyExpr.Proofs.Machine.Protocol
import LazyExpr.Proofs.Machine.Completion
import LazyExpr.Proofs.Machine.Replay
import LazyExpr.Proofs.Machine.Script
import LazyExpr.Proofs.Machine.Retelling
import LazyExpr.Proofs.Machine.Attempts
import LazyExpr.Proofs.Machine.Retry
import LazyExpr.Proofs.Machine.Kinds
import LazyExpr.Proofs.Lowering.Rules
import LazyExpr.Proofs.Lowering.Derivation
import LazyExpr.Proofs.Lowering.Meaning
import LazyExpr.Proofs.Lowering.Correctness
import LazyExpr.Proofs.Lowering.Discipline
import LazyExpr.Proofs.Lowering.Suspension
import LazyExpr.Proofs.Lowering.Schedule
import LazyExpr.Proofs.Syntax.Grouping
import LazyExpr.Proofs.Syntax.Climbing
import LazyExpr.Proofs.Syntax.Readable
import LazyExpr.Proofs.Syntax.Erasure
import LazyExpr.Proofs.Syntax.Phrase
import LazyExpr.Proofs.Syntax.Reading
import LazyExpr.Proofs.Syntax.Lookahead
import LazyExpr.Proofs.Syntax.Lexing
import LazyExpr.Proofs.Syntax.Writing
import LazyExpr.Proofs.Syntax.Placing
import LazyExpr.Proofs.Number.Sign
import LazyExpr.Proofs.Syntax.Printing
import LazyExpr.Proofs.Syntax.RoundTrip
import LazyExpr.Proofs.Number.Digits
import LazyExpr.Proofs.Syntax.Splits
import LazyExpr.Proofs.Syntax.Tokens
import LazyExpr.Proofs.Syntax.Operands
import LazyExpr.Proofs.Lowering.Representation
import LazyExpr.Proofs.Lowering.Selection
import LazyExpr.Proofs.Lowering.Numbering
import LazyExpr.Proofs.Lowering.Declining
import LazyExpr.Proofs.Lowering.Widening
import LazyExpr.Proofs.Lowering.Waiting
import LazyExpr.Proofs.Lowering.Promptness
import LazyExpr.Proofs.Machine.Standing
import LazyExpr.Proofs.Machine.Driving
import LazyExpr.Proofs.Syntax.Regrouping
import LazyExpr.Proofs.Syntax.Parentheses
import LazyExpr.Proofs.Syntax.Parsing
import LazyExpr.Proofs.Syntax.Deriving
import LazyExpr.Proofs.Syntax.Nesting
import LazyExpr.Proofs.Syntax.Spacing
import LazyExpr.Proofs.Syntax.Literals
import LazyExpr.Proofs.Number.Packing
import LazyExpr.Proofs.Number.Rounding
import LazyExpr.Proofs.Number.Decimals
import LazyExpr.Proofs.Number.Overflow
import LazyExpr.Proofs.Number.Shortest
import LazyExpr.Proofs.Number.Numerals
import LazyExpr.Proofs.Number.Negation
import LazyExpr.Proofs.Syntax.Building
import LazyExpr.Proofs.Syntax.Stability
import LazyExpr.Proofs.Number.Ordering
import LazyExpr.Proofs.Number.Nearest
import LazyExpr.Proofs.Machine.Comparing
import LazyExpr.Proofs.Machine.Calculating
import LazyExpr.Proofs.Lowering.Agreement
import LazyExpr.Proofs.Machine.Validating
import LazyExpr.Proofs.Machine.Limiting
import LazyExpr.Proofs.Lowering.Renumbering
import LazyExpr.Proofs.Lowering.Wrapping
import LazyExpr.Proofs.Machine.Polling
import LazyExpr.Syntax.Draft
import LazyExpr.Proofs.Syntax.Drafting
import LazyExpr.Proofs.Syntax.Reporting
import LazyExpr.Proofs.Syntax.Balance
import LazyExpr.Proofs.Syntax.Framing
import LazyExpr.Proofs.Syntax.Slicing
import LazyExpr.Proofs.Syntax.Members
import LazyExpr.Proofs.Source.Locating
import LazyExpr.Proofs.Source.Underlining
import LazyExpr.Proofs.Source.Retracing
import LazyExpr.Proofs.Machine.Equality
import LazyExpr.Proofs.Syntax.Quoting
import LazyExpr.Proofs.Syntax.Patterns
import LazyExpr.Proofs.Syntax.Terminals
import LazyExpr.Proofs.Syntax.Following
import LazyExpr.Proofs.Syntax.Alternatives
import LazyExpr.Proofs.Syntax.Accessing
import LazyExpr.Proofs.Syntax.Matching
