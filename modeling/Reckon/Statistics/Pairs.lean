import Reckon.Statistics.Basic

/-!
Statistics of paired sequences: covariance, correlation and the line of ordinary least squares.
-/

namespace Reckon.Statistics

variable {α : Type} [Scalar α]

/-- The sample covariance, divided by one less than the count. -/
def covariance (xs ys : List α) : Except Failure (Measured α) := do
  requirePairs "covariance" xs ys
  return ⟨coDeviation xs ys / Scalar.ofNat (xs.length - 1), xs.length + ys.length⟩

/-- The nearest number between `low` and `high`; what compares with neither stays. -/
def clamp (low high x : α) : α :=
  let x := if Scalar.less x low then low else x
  if Scalar.less high x then high else x

/-- The correlation coefficient, kept within `[-1, 1]`. -/
def correlation {β : Type} [RootScalar β] (xs ys : List β) : Except Failure (Measured β) := do
  requirePairs "correlation" xs ys
  let sxy := coDeviation xs ys
  let sxx := coDeviation xs xs
  let syy := coDeviation ys ys
  if Scalar.isZero sxx || Scalar.isZero syy then .error (.of (.argument .constantSequence))
  else
    let r := sxy / RootScalar.sqrt (sxx * syy)
    return ⟨clamp (-Scalar.one) Scalar.one r, xs.length + ys.length⟩

/-- The line `slope * x + intercept`. -/
structure LinearFit (α : Type) where
  slope : α
  intercept : α
  /-- The coefficient of determination, one for a constant sequence. -/
  rSquared : α

def LinearFit.predict (fit : LinearFit α) (x : α) : α := fit.slope * x + fit.intercept

def linearRegression (xs ys : List α) : Except Failure (Measured (LinearFit α)) := do
  requirePairs "linear_regression" xs ys
  let sxx := coDeviation xs xs
  if Scalar.isZero sxx then .error (.of (.argument .repeatedAbscissa))
  else
    let sxy := coDeviation xs ys
    let syy := coDeviation ys ys
    let slope := sxy / sxx
    let fit : LinearFit α := {
      slope := slope
      intercept := average ys - slope * average xs
      rSquared := if Scalar.isZero syy then Scalar.one else sxy * sxy / (sxx * syy) }
    return ⟨fit, xs.length + ys.length⟩

end Reckon.Statistics
