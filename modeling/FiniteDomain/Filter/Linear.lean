import FiniteDomain.Propagation.Propagator

/-! # Linear inequalities

    The sum of a list of variables is at most a constant.  The room that the
    least values leave is what any single variable may exceed its least value
    by; sums are computed in 64 bits and checked.

    The room is computed once, while the bounds of a term are read when its turn
    comes: earlier turns may have moved them, if terms have a variable below them
    in common.  A new bound is stored with the width of values, unchecked. -/

namespace FiniteDomain.LinearAtMost

/-- The sum of a bound over all terms. -/
def sumOf (terms : List IntVar) (bound : IntVar → Int) : Except Fault Int :=
  terms.foldlM (fun sum x => Width.sum.checked (sum + bound x)) 0

/-- Lowers the upper bound of a term to its least value and the room. -/
def restrict (room : Int) (x : IntVar) : Filtering Unit := do
  let bound ← Filtering.checked (Width.sum.checked ((← Filtering.read x.lowerBound) + room))
  if bound < (← Filtering.read x.upperBound) then
    -- the bound lies between those of the term, so wrapping it leaves it as it is
    Filtering.narrowing (x.tightenUpper · (Width.value.wrap bound))

/-- Lowers the upper bound of every term to what the others leave room for. -/
def filter (terms : List IntVar) (limit : Int) : Filtering Unit := do
  let least ← Filtering.checked (sumOf terms (·.lowerBound (← get)))
  let room ← Filtering.checked (Width.sum.checked (limit - least))
  if room < 0 then Filtering.refuse
  terms.forM (restrict room)

/-- What is known about the contents that are left. -/
def entailment (terms : List IntVar) (limit : Int) (s : Store) : Except Fault Entailment := do
  if (← sumOf terms (·.upperBound s)) ≤ limit then return .holds
  else if limit < (← sumOf terms (·.lowerBound s)) then return .fails
  else return .undecided

end FiniteDomain.LinearAtMost
