/-! # Faults

    A fault is a request that the library refuses to carry out at all: an
    argument outside the range for which an operation is defined, or a number
    that does not fit the width it is stored in.  Faults end the computation
    that raised them.  They are different from contradictions, which are
    ordinary answers of a solver ("this domain has become empty") and are
    handled by the search.

    Every fault is a cause; its wording is the function `Fault.message`. -/

namespace FiniteDomain

/-- Why a computation cannot be carried out. -/
inductive Fault where
  /-- A table, a set or an adjacency list has no slot with the requested number. -/
  | indexOutOfBounds
  /-- A result does not fit the width it is computed in. -/
  | overflow
  /-- A division has divisor zero. -/
  | divisionByZero
  /-- A requirement that needs no further words is not met. -/
  | assertionFailed
  /-- A checkpoint lies beyond the end of the trail. -/
  | undoBeyondTrail (checkpoint length : Nat)
  /-- A view is asked to multiply by zero. -/
  | zeroScale
  /-- Scaling a view leaves the range of its coefficients. -/
  | scaleOverflow (scale offset factor : Int)
  /-- Shifting a view leaves the range of its coefficients. -/
  | offsetOverflow (offset shift : Int)
  /-- A random draw is asked for from an empty range. -/
  | emptyRange
  /-- A branch has fewer than two alternatives; their texts are given. -/
  | tooFewAlternatives (alternatives : List String)
  /-- A selector for a least value was given a tie breaker for the greatest. -/
  | tieBreakerDirection (selector : String)
  /-- A solution is asked for a variable that it leaves open. -/
  | unassignedVariable
  /-- A model is changed while a search is in progress. -/
  | searchInProgress
  /-- A computation did not end within its step bound. -/
  | outOfFuel
deriving DecidableEq, Repr, Inhabited

/-- The wording of a fault. -/
def Fault.message : Fault → String
  | .indexOutOfBounds => "index out of bounds"
  | .overflow => "arithmetic overflow"
  | .divisionByZero => "division by zero"
  | .assertionFailed => "assertion failed"
  | .undoBeyondTrail checkpoint length =>
      s!"cannot undo to checkpoint {checkpoint} on a trail of length {length}"
  | .zeroScale => "Multiplication by zero is not invertable"
  | .scaleOverflow scale offset factor =>
      s!"Scaling a view with scale {scale} and offset {offset} by {factor} overflows"
  | .offsetOverflow offset shift =>
      s!"Offsetting a view with offset {offset} by {shift} overflows"
  | .emptyRange => "cannot sample empty range"
  | .tooFewAlternatives alternatives =>
      "A branch requires at least two alternatives, got ["
        ++ String.intercalate ", " alternatives ++ "]"
  | .tieBreakerDirection selector =>
      s!"The provided tie-breaker to {selector} attempts to find the Maximum value"
        ++ "\n             instead of the Minimum value, please ensure "
        ++ "that you have passed the correct tie-breaker"
  | .unassignedVariable => "Expected retrieved integer variable from solution to be assigned"
  | .searchInProgress => "The model can only be changed when no search is in progress"
  | .outOfFuel => "the computation did not end within its step bound"

end FiniteDomain
