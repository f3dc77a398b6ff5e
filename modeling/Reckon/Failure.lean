import Reckon.Token

/-!
Failures are values: a cause, and where it helps a position in the text and a suggestion. Each
cause keeps the data it is about; its kind and its wording are functions of the cause alone.
Causes that a caller words itself are the `stated` ones.
-/

namespace Reckon

inductive Failure.Kind where
  | parse
  | unboundVariable
  | divisionByZero
  | domain
  | unsupportedForm
  | invalidArgument
  | dimensionMismatch
  | singularMatrix
  | emptyInput
  | insufficientData
  | noConvergence
  | delegateTimeout
  | delegateFailure
  | delegateUnsupported
deriving DecidableEq, Repr

/-- What is wrong with a text that is no expression. -/
inductive ParseFault where
  | emptyExpression
  | unexpected (found : Token.Kind)
  | unexpectedCharacter (c : Char)
  | numberOutOfRange (numeral : String)
  | unclosed (opener : Char)
  | nestedTooDeeply
  | unknownFunction (name : String)
  | missingArgumentList (name : String)
  | missingLeftSide
  | missingRightSide
  | stated (reason : String)
deriving DecidableEq

/-- Why an argument lies outside the domain of a function. -/
inductive DomainFault where
  | outsideUnitInterval (func : String) (x : Binary64)
  | negative (func : String) (x : Binary64)
  | logarithmBase (base : Binary64)
  | factorial (x : Binary64)
  | stated (details : String)
deriving DecidableEq

/-- Why arguments do not fit the operation they are given to. -/
inductive ArgumentFault where
  | unknownFunction (name : String)
  | count (func expected : String) (got : Nat)
  | listAsNumber
  | expectedList (func : String)
  | expectedMatrix (func : String)
  | emptyShape (rows cols : Nat)
  | constantSequence
  | repeatedAbscissa
  | window (length got : Nat)
  | sampleDomain (low high : Binary64)
  | pointCount (limit got : Nat)
  | expectedVariable (func found : String)
  | derivativeOrder (found : String)
  | stated (details : String)
deriving DecidableEq

/-- Which sizes disagree. -/
inductive DimensionFault where
  | raggedRow (index got expected : Nat)
  | entryCount (rows cols needed got : Nat)
  | notSquare (op : String) (rows cols : Nat)
  | product (op : String) (rows cols nextRows nextCols : Nat)
  | vectorLengths (op : String) (left right : Nat)
  | sequenceLengths (op : String) (left right : Nat)
  | rightHandSide (got expected : Nat)
  | stated (details : String)
deriving DecidableEq

inductive Cause where
  | parse (position : Nat) (fault : ParseFault)
  | unbound (name : String)
  | noPreviousAnswer
  | divisionByZero
  | domain (fault : DomainFault)
  | needsSymbolic (func : String)
  | argument (fault : ArgumentFault)
  | dimension (fault : DimensionFault)
  | singularMatrix
  | emptyInput (op : String)
  | insufficientData (op : String) (needed got : Nat)
  | noConvergence (op : String) (iterations : Nat)
  | delegateTimeout
  | delegateFailure (details : String)
  | delegateUnsupported (details : String)
  | stated (kind : Failure.Kind) (message : String)
deriving DecidableEq

structure Failure where
  cause : Cause
  position : Option Nat
  suggestion : Option String
deriving DecidableEq

namespace ParseFault

def reason : ParseFault → String
  | emptyExpression => "empty expression"
  | unexpected found => "unexpected " ++ found.describe
  | unexpectedCharacter c => "unexpected character '" ++ c.toString ++ "'"
  | numberOutOfRange numeral => "number '" ++ numeral ++ "' is out of range"
  | unclosed opener => "unclosed '" ++ opener.toString ++ "'"
  | nestedTooDeeply => "expression nested too deeply"
  | unknownFunction name => "unknown function '" ++ name ++ "'"
  | missingArgumentList name => "function '" ++ name ++ "' needs an argument list"
  | missingLeftSide => "missing left side of equation"
  | missingRightSide => "missing right side of equation"
  | stated reason => reason

end ParseFault

namespace DomainFault

def details : DomainFault → String
  | outsideUnitInterval func x =>
    func ++ "() requires an argument in [-1, 1], got " ++ Decimal.plain x
  | negative func x => func ++ "() of a negative number, got " ++ Decimal.plain x
  | logarithmBase base => "log() base must be positive and not 1, got " ++ Decimal.plain base
  | factorial x => "factorial requires a non-negative integer, got " ++ Decimal.plain x
  | stated details => details

end DomainFault

namespace ArgumentFault

def details : ArgumentFault → String
  | unknownFunction name => s!"Unknown function: {name}"
  | count func expected got => s!"{func}() expects {expected} arguments, got {got}"
  | listAsNumber => "A list cannot be used where a number is expected"
  | expectedList func => s!"{func}() expects a list such as [1, 2, 3]"
  | expectedMatrix func => s!"{func}() expects a matrix such as [[1, 2], [3, 4]]"
  | emptyShape rows cols => s!"matrix dimensions must be positive, got {rows}×{cols}"
  | constantSequence => "correlation() is undefined for a constant sequence"
  | repeatedAbscissa => "linear_regression() needs at least two distinct x values"
  | window length got => s!"moving_average() window must be between 1 and {length}, got {got}"
  | sampleDomain low high =>
    "sample domain needs finite xMin < xMax, got [" ++ Decimal.plain low ++ ", " ++
      Decimal.plain high ++ "]"
  | pointCount limit got => s!"pointCount must be between 2 and {limit}, got {got}"
  | expectedVariable func found => s!"{func}() expects a variable name, got {found}"
  | derivativeOrder found => s!"diff() order must be a positive integer, got {found}"
  | stated details => details

end ArgumentFault

namespace DimensionFault

def details : DimensionFault → String
  | raggedRow index got expected => s!"row {index} has {got} columns, expected {expected}"
  | entryCount rows cols needed got => s!"{rows}×{cols} matrix needs {needed} values, got {got}"
  | notSquare op rows cols => s!"{op}: requires square matrix, got {rows}×{cols}"
  | product op rows cols nextRows nextCols =>
    s!"{op}: incompatible dimensions {rows}×{cols} and {nextRows}×{nextCols}"
  | vectorLengths op left right => s!"{op}: vectors have lengths {left} and {right}"
  | sequenceLengths op left right =>
    s!"{op}() needs sequences of equal length, got {left} and {right}"
  | rightHandSide got expected =>
    s!"solve: right-hand side has {got} values, expected {expected}"
  | stated details => details

end DimensionFault

namespace Cause

def kind : Cause → Failure.Kind
  | parse _ _ => .parse
  | unbound _ | noPreviousAnswer => .unboundVariable
  | divisionByZero => .divisionByZero
  | domain _ => .domain
  | needsSymbolic _ => .unsupportedForm
  | argument _ => .invalidArgument
  | dimension _ => .dimensionMismatch
  | singularMatrix => .singularMatrix
  | emptyInput _ => .emptyInput
  | insufficientData _ _ _ => .insufficientData
  | noConvergence _ _ => .noConvergence
  | delegateTimeout => .delegateTimeout
  | delegateFailure _ => .delegateFailure
  | delegateUnsupported _ => .delegateUnsupported
  | stated kind _ => kind

def message : Cause → String
  | parse position fault => s!"Parse error at position {position}: " ++ fault.reason
  | unbound name => s!"Undefined variable: {name}"
  | noPreviousAnswer => "No previous answer to use for Ans"
  | divisionByZero => "Division by zero"
  | domain fault => "Domain error: " ++ fault.details
  | needsSymbolic func => s!"{func}() needs symbolic evaluation"
  | argument fault => fault.details
  | dimension fault => "Dimension mismatch: " ++ fault.details
  | singularMatrix => "Matrix is singular and has no inverse"
  | emptyInput op => s!"{op}() requires at least one value"
  | insufficientData op needed got => s!"{op}() requires at least {needed} values, got {got}"
  | noConvergence op iterations => s!"{op}() did not converge after {iterations} iterations"
  | delegateTimeout => "symbolic evaluation timed out"
  | delegateFailure details => details
  | delegateUnsupported details => details
  | stated _ message => message

end Cause

namespace Failure

/-- A failure with the position and the suggestion that belong to its cause. -/
def of (cause : Cause) : Failure where
  cause := cause
  position := match cause with
    | .parse position _ => some position
    | _ => none
  suggestion := match cause with
    | .noPreviousAnswer => some "Evaluate an expression first"
    | _ => none

def atPosition (position : Nat) (f : Failure) : Failure := { f with position := some position }

def suggest (suggestion : String) (f : Failure) : Failure :=
  { f with suggestion := some suggestion }

def kind (f : Failure) : Kind := f.cause.kind

def message (f : Failure) : String := f.cause.message

namespace Kind

/-- A stable code for logs. -/
def code : Kind → String
  | parse => "PARSE_ERROR"
  | unboundVariable => "UNDEFINED_VAR"
  | divisionByZero => "DIV_ZERO"
  | domain => "DOMAIN_ERROR"
  | unsupportedForm => "UNSUPPORTED_FORM"
  | invalidArgument => "INVALID_ARGUMENT"
  | dimensionMismatch => "DIMENSION_MISMATCH"
  | singularMatrix => "SINGULAR_MATRIX"
  | emptyInput => "EMPTY_INPUT"
  | insufficientData => "INSUFFICIENT_DATA"
  | noConvergence => "NO_CONVERGENCE"
  | delegateTimeout => "DELEGATE_TIMEOUT"
  | delegateFailure => "DELEGATE_FAILURE"
  | delegateUnsupported => "DELEGATE_UNSUPPORTED"

/-- Every kind, in declaration order. -/
def all : List Kind :=
  [parse, unboundVariable, divisionByZero, domain, unsupportedForm, invalidArgument,
   dimensionMismatch, singularMatrix, emptyInput, insufficientData, noConvergence,
   delegateTimeout, delegateFailure, delegateUnsupported]

/-- Domain and arithmetic failures met while evaluating a tree. -/
def isEvaluation : Kind → Bool
  | unboundVariable | divisionByZero | domain | unsupportedForm | invalidArgument => true
  | _ => false

/-- Failures of the symbolic delegate. -/
def isDelegation : Kind → Bool
  | delegateTimeout | delegateFailure | delegateUnsupported => true
  | _ => false

end Kind
end Failure
end Reckon
