import FiniteDomain.Propagation.Propagator

/-! # Comparing two variables

    `AtMost`: one variable is at most the other.  `Distinct`: the two variables
    differ. -/

namespace FiniteDomain

namespace AtMost

/-- Lowers the upper bound of `a` to that of `b`, raises the lower bound of `b` to that of
    `a`. -/
def filter (a b : IntVar) : Filtering Unit := do
  let upper ← Filtering.read b.upperBound
  Filtering.narrowing (a.tightenUpper · upper)
  let lower ← Filtering.read a.lowerBound
  Filtering.narrowing (b.tightenLower · lower)

/-- What is known about the contents that are left. -/
def entailment (a b : IntVar) (s : Store) : Entailment :=
  if a.upperBound s ≤ b.lowerBound s then .holds
  else if b.upperBound s < a.lowerBound s then .fails
  else .undecided

end AtMost

namespace Distinct

/-- Removes the value of either variable from the other once it is fixed. -/
def filter (a b : IntVar) : Filtering Unit := do
  if ← Filtering.read a.isFixed then
    let value ← Filtering.read a.lowerBound
    Filtering.narrowing (b.removeValue · value)
  if ← Filtering.read b.isFixed then
    let value ← Filtering.read b.lowerBound
    Filtering.narrowing (a.removeValue · value)

/-- What is known about the contents that are left. -/
def entailment (a b : IntVar) (s : Store) : Entailment :=
  if a.upperBound s < b.lowerBound s ∨ b.upperBound s < a.lowerBound s then .holds
  else if a.isFixed s && b.isFixed s then .fails
  else if a.isFixed s && !b.contains s (a.lowerBound s) then .holds
  else if b.isFixed s && !a.contains s (b.lowerBound s) then .holds
  else .undecided

end Distinct

end FiniteDomain
