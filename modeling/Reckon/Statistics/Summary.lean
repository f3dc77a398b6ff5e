import Reckon.Statistics.Basic

/-!
Statistics of one sequence: mean, median, variance and standard deviation. The plain variance is
that of a population, divided by the count; the sample variance divides by one less.
-/

namespace Reckon.Statistics

variable {α : Type} [Scalar α]

def mean (xs : List α) : Except Failure (Measured α) := do
  requireValues "mean" xs
  return ⟨average xs, xs.length⟩

def sorted (xs : List α) : List α := xs.mergeSort Scalar.ordered

/-- The middle of a sorted sequence, or half the sum of the two middle values. -/
def middle (xs : List α) : α :=
  let upper := xs.getD (xs.length / 2) Scalar.zero
  if xs.length % 2 = 1 then upper
  else (xs.getD (xs.length / 2 - 1) Scalar.zero + upper) / Scalar.ofNat 2

def median (xs : List α) : Except Failure (Measured α) := do
  requireValues "median" xs
  return ⟨middle (sorted xs), xs.length⟩

/-- The sum of the squared deviations from the mean. -/
def squaredDeviation (xs : List α) : α :=
  let m := average xs
  Scalar.sum (xs.map fun x => (x - m) * (x - m))

def variance (xs : List α) : Except Failure (Measured α) := do
  requireValues "variance" xs
  return ⟨squaredDeviation xs / Scalar.ofNat xs.length, xs.length⟩

def sampleVariance (xs : List α) : Except Failure (Measured α) := do
  requireValues "sample_variance" xs
  requireCount "sample_variance" 2 xs
  return ⟨squaredDeviation xs / Scalar.ofNat (xs.length - 1), xs.length⟩

variable {β : Type} [RootScalar β]

def standardDeviation (xs : List β) : Except Failure (Measured β) := do
  requireValues "stddev" xs
  return ⟨RootScalar.sqrt (squaredDeviation xs / Scalar.ofNat xs.length), xs.length⟩

def sampleStandardDeviation (xs : List β) : Except Failure (Measured β) := do
  requireValues "sample_stddev" xs
  requireCount "sample_stddev" 2 xs
  return ⟨RootScalar.sqrt (squaredDeviation xs / Scalar.ofNat (xs.length - 1)), xs.length⟩

end Reckon.Statistics
