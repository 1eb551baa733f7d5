import Reckoner.Calculator
import Reckoner.Expression.Rendering
import Reckoner.Factorial
import Reckoner.Proofs.Accounting
import Reckoner.Proofs.Calculator
import Reckoner.Proofs.Degrees
import Reckoner.Proofs.Evaluation
import Reckoner.Proofs.Exactness
import Reckoner.Proofs.Infix
import Reckoner.Proofs.Literal
import Reckoner.Proofs.MalformedNumber
import Reckoner.Proofs.Operands
import Reckoner.Proofs.Order
import Reckoner.Proofs.Outcome
import Reckoner.Proofs.Parentheses
import Reckoner.Proofs.Pending
import Reckoner.Proofs.Postorder
import Reckoner.Proofs.Printing
import Reckoner.Proofs.Rendering
import Reckoner.Proofs.Rounding
import Reckoner.Proofs.Shortest
import Reckoner.Proofs.Sign
import Reckoner.Proofs.Spelling
import Reckoner.Proofs.Step
import Reckoner.Scalar.Rational
import Reckoner.Token.Parentheses
import Reckoner.Token.WellFormed
import Reckoner.Proofs.Lexemes
import Reckoner.Proofs.Seam
import Reckoner.Proofs.BareCall
import Reckoner.Proofs.Comparison
import Reckoner.Proofs.ExponentialRounding
import Reckoner.Proofs.Inverse
import Reckoner.Proofs.SquareRoot
import Reckoner.Proofs.SquareRootSteps
import Reckoner.Proofs.ExponentialTruncation
import Reckoner.Proofs.LogarithmTruncation
import Reckoner.Proofs.Monotonicity
import Reckoner.Proofs.Periodicity
import Reckoner.Proofs.TrigonometryTruncation
import Reckoner.Proofs.Remainder
import Reckoner.Proofs.Power
import Reckoner.Proofs.Factorial
import Reckoner.Proofs.Cutoff
import Reckoner.Proofs.Parity
import Reckoner.Proofs.OrderedRounding
import Reckoner.Proofs.ExponentialRange
import Reckoner.Proofs.Precedence
import Reckoner.Proofs.LogarithmStopping
import Reckoner.Proofs.Continuation
import Reckoner.Proofs.Journal
import Reckoner.Proofs.Rank
import Reckoner.Proofs.NotANumber
import Reckoner.Proofs.AngleRange
import Reckoner.Token.Cursor
import Reckoner.Proofs.Cursor
