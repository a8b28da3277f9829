import Formula.Alphabet
import Formula.Binary64
import Formula.Decimal
import Formula.Decimal.Shortest
import Formula.Decimal.Layout
import Formula.Operator
import Formula.Token
import Formula.Error
import Formula.Token.Scan
import Formula.Expr
import Formula.Expr.Draft
import Formula.Expr.Reading
import Formula.Expr.Descent
import Formula.Expr.Walk
import Formula.Builtin
import Formula.Builtin.Declaration
import Formula.Expr.Eval
import Formula.Evaluator
import Formula.Log
import Formula.Demo
import Formula.Proofs.Completeness
import Formula.Proofs.Soundness
import Formula.Proofs.Bits
import Formula.Proofs.Nearest
import Formula.Proofs.Numerals
import Formula.Proofs.Reading
import Formula.Proofs.Leaves
import Formula.Proofs.Rendering
import Formula.Proofs.Scanning
import Formula.Proofs.RoundTrip
import Formula.Proofs.Height
import Formula.Proofs.Limit
import Formula.Proofs.Viable
import Formula.Proofs.OnePass
import Formula.Proofs.Substitution
import Formula.Proofs.Fault
import Formula.Proofs.Lexemes
import Formula.Proofs.Split
import Formula.Proofs.Spacing
import Formula.Proofs.Variables
import Formula.Proofs.Calls
import Formula.Proofs.Account
import Formula.Proofs.Closing
import Formula.Proofs.Levels
import Formula.Proofs.Deepest
import Formula.Proofs.Recursion
import Formula.Proofs.Rereading
import Formula.Proofs.Failure
import Formula.Proofs.Misfit
import Formula.Proofs.Joining
import Formula.Proofs.Declaration
import Formula.Proofs.Descent
import Formula.Proofs.Stages
import Formula.Proofs.Room
import Formula.Proofs.Counters
import Formula.Proofs.Walk
