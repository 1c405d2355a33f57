import Abacus.Main
import Abacus.Proofs.Digits
import Abacus.Proofs.Decimal.Rounding
import Abacus.Proofs.Decimal.Division
import Abacus.Proofs.Decimal.Arithmetic
import Abacus.Proofs.Decimal.Canonical
import Abacus.Proofs.Decimal.Exact
import Abacus.Proofs.Decimal.Integral
import Abacus.Proofs.Builtin
import Abacus.Proofs.Bitwise
import Abacus.Proofs.Environment
import Abacus.Proofs.Evaluation.Invariant
import Abacus.Proofs.Evaluation.Trace
import Abacus.Proofs.Evaluation.Frame
import Abacus.Proofs.Evaluation.Congruence
import Abacus.Proofs.Evaluation.Failure
import Abacus.Proofs.Evaluation.FreeVariables
import Abacus.Proofs.Evaluation.Rules
import Abacus.Proofs.Evaluation.Termination
import Abacus.Proofs.Evaluation.Series
import Abacus.Proofs.Evaluation.Product
import Abacus.Proofs.Evaluation.Scope
import Abacus.Proofs.Evaluation.Contexts
import Abacus.Proofs.Factorial
import Abacus.Proofs.Prime
import Abacus.Proofs.Expr.Simplify
import Abacus.Proofs.Expr.Folding
import Abacus.Proofs.Expr.NormalForm
import Abacus.Proofs.Grammar.Derivation
import Abacus.Proofs.Grammar.Unambiguous
import Abacus.Proofs.Grammar.Reading
import Abacus.Proofs.Grammar.Soundness
import Abacus.Proofs.Grammar.Completeness
import Abacus.Proofs.Grammar.Acceptance
import Abacus.Proofs.Grammar.Lines
import Abacus.Proofs.Grammar.Failures
import Abacus.Proofs.Grammar.Progress
import Abacus.Proofs.Token.Numeral
import Abacus.Proofs.Token.Lexing
import Abacus.Proofs.Token.Lines
import Abacus.Proofs.Token.Pattern
import Abacus.Proofs.Token.LongestMatch
import Abacus.Proofs.Token.Segmentation
import Abacus.Proofs.Expr.Literals
import Abacus.Proofs.Expr.RoundTrip
import Abacus.Proofs.Expr.Spelling
import Abacus.Proofs.Program
import Abacus.Proofs.ParseErrors
import Abacus.Proofs.Session
import Abacus.Proofs.Evaluation.Assignment
import Abacus.Proofs.WellFormed
import Abacus.Proofs.CommandLine
