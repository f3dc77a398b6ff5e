import Reckon.DenseMatrix.Eigenvalues
import Reckon.DenseMatrix.Kernels
import Reckon.Main
import Reckon.Proofs.Calculator.Equations
import Reckon.Proofs.Calculator.Operands
import Reckon.Proofs.Calculator.Translation
import Reckon.Proofs.DenseMatrix.Accumulation
import Reckon.Proofs.DenseMatrix.Calls
import Reckon.Proofs.DenseMatrix.Determinant
import Reckon.Proofs.DenseMatrix.Inverse
import Reckon.Proofs.DenseMatrix.Text
import Reckon.Proofs.Display.Rounding
import Reckon.Proofs.Expr.Bounds
import Reckon.Proofs.Expr.Evaluation
import Reckon.Proofs.Expr.Parentheses
import Reckon.Proofs.Expr.Substitution
import Reckon.Proofs.Json.Numbers
import Reckon.Proofs.Latex.Meaning
import Reckon.Proofs.Normalize.Again
import Reckon.Proofs.Repl.Transcript
import Reckon.Proofs.Series.Domain
import Reckon.Proofs.Series.Sampling
import Reckon.Proofs.Service.Replies
import Reckon.Proofs.Session.History
import Reckon.Proofs.Sidecar.Distinct
import Reckon.Proofs.Sidecar.Exchange
import Reckon.Proofs.Statistics.Carried
import Reckon.Proofs.Statistics.Correlation
import Reckon.Proofs.Statistics.Median
import Reckon.Proofs.Statistics.Windows
import Reckon.Proofs.Token.Slices
