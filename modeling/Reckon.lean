import Reckon.Arity
import Reckon.Builtins
import Reckon.Calculator
import Reckon.Compile
import Reckon.Error
import Reckon.Expr.Basic
import Reckon.Expr.Dependencies
import Reckon.Expr.Evaluate
import Reckon.Expr.Graft
import Reckon.Expr.Simplify
import Reckon.Function
import Reckon.Grammar
import Reckon.Lookahead
import Reckon.Number.Arithmetic
import Reckon.Number.Binary
import Reckon.Number.Decimal
import Reckon.Number.Double
import Reckon.Number.Hypotenuse
import Reckon.Number.Remainder
import Reckon.Number.Shortest
import Reckon.Operator
import Reckon.Proofs.Accepting
import Reckon.Proofs.Agreement
import Reckon.Proofs.Binding
import Reckon.Proofs.Chains
import Reckon.Proofs.Comparison
import Reckon.Proofs.Compiling
import Reckon.Proofs.Contents
import Reckon.Proofs.Cursor
import Reckon.Proofs.Delivery
import Reckon.Proofs.Dependence
import Reckon.Proofs.Derivation
import Reckon.Proofs.Descent
import Reckon.Proofs.EndOfInput
import Reckon.Proofs.Entering
import Reckon.Proofs.Exact
import Reckon.Proofs.Extremes
import Reckon.Proofs.Faults
import Reckon.Proofs.Folding
import Reckon.Proofs.Frames
import Reckon.Proofs.Grafting
import Reckon.Proofs.Independence
import Reckon.Proofs.Indifference
import Reckon.Proofs.Interruption
import Reckon.Proofs.Layout
import Reckon.Proofs.Lexing
import Reckon.Proofs.LiveLinks
import Reckon.Proofs.Locality
import Reckon.Proofs.Magnitude
import Reckon.Proofs.MinusSign
import Reckon.Proofs.NormalForm
import Reckon.Proofs.Numerals
import Reckon.Proofs.Occurrences
import Reckon.Proofs.Overflow
import Reckon.Proofs.Parsing
import Reckon.Proofs.Patching
import Reckon.Proofs.Pipes
import Reckon.Proofs.Placement
import Reckon.Proofs.Precedence
import Reckon.Proofs.Preservation
import Reckon.Proofs.Procedure
import Reckon.Proofs.Protection
import Reckon.Proofs.Range
import Reckon.Proofs.Reachable
import Reckon.Proofs.Reading
import Reckon.Proofs.Recompilation
import Reckon.Proofs.Regrouping
import Reckon.Proofs.Resolution
import Reckon.Proofs.Respacing
import Reckon.Proofs.Rewriting
import Reckon.Proofs.RoundTrip
import Reckon.Proofs.Rounding
import Reckon.Proofs.Sameness
import Reckon.Proofs.Scanning
import Reckon.Proofs.Sealing
import Reckon.Proofs.Simplification
import Reckon.Proofs.Spacing
import Reckon.Proofs.Spelling
import Reckon.Proofs.Stepping
import Reckon.Proofs.Termination
import Reckon.Proofs.Walks
import Reckon.Proofs.Zeros
import Reckon.Run
import Reckon.Scope
import Reckon.Settings
import Reckon.Store
import Reckon.Table
import Reckon.Text.Case
import Reckon.Text.CaseIgnorable
import Reckon.Text.Cased
import Reckon.Text.CharRange
import Reckon.Text.Glyph
import Reckon.Text.Lower
import Reckon.Text.Names
import Reckon.Text.Position
import Reckon.Text.Source
import Reckon.Token.Basic
import Reckon.Token.Gap
import Reckon.Token.Lexeme
import Reckon.Token.Lexer
import Reckon.Workspace
