import FiniteDomain.Event

/-! # Outcomes of narrowing a domain

    Narrowing a domain has one of three outcomes.  `empty`: no content would be
    left, and nothing is changed.  `unchanged`: the domain obeys the request
    already.  `changed`: the domain after the request, the entries by which the
    change can be taken back, oldest first, and the event that describes it. -/

namespace FiniteDomain

/-- The outcome of narrowing a domain of type `D` whose changes are recorded by entries of
    type `E`. -/
inductive Outcome (D : Type u) (E : Type v) where
  /-- The domain would become empty. -/
  | empty
  /-- Nothing has to be changed. -/
  | unchanged
  /-- The domain after the change. -/
  | changed (domain : D) (entries : List E) (event : Event)
deriving DecidableEq, Repr

/-- The domain after the request, if one is left. -/
def Outcome.domain? {D : Type u} {E : Type v} (before : D) : Outcome D E → Option D
  | .empty => none
  | .unchanged => some before
  | .changed after _ _ => some after

/-- The entries of the change. -/
def Outcome.entries {D : Type u} {E : Type v} : Outcome D E → List E
  | .changed _ entries _ => entries
  | _ => []

end FiniteDomain
