import FiniteDomain.Propagation.Propagator

/-! # Constraints on sets

    `Subset`: every element of one set belongs to the other.  `Disjoint`: no
    element belongs to both.  `Member`: the value of an integer variable belongs
    to the set. -/

namespace FiniteDomain

namespace Subset

/-- Adds the certain elements of `a` to `b`, removes the impossible elements of `b` from
    `a`. -/
def filter (a b : SetId) : Filtering Unit := do
  let required ← Filtering.read fun s => (s.set a).kernelElements
  required.forM fun e => Filtering.narrowing (·.includeElement b e)
  let excluded ← Filtering.read fun s =>
    (s.set a).envelopeElements.filter fun e => !(s.set b).inEnvelope e
  excluded.forM fun e => Filtering.narrowing (·.excludeElement a e)

/-- What is known about the contents that are left. -/
def entailment (a b : SetId) (s : Store) : Entailment :=
  if (s.set a).envelopeElements.all (s.set b).inKernel then .holds
  else if (s.set a).kernelElements.any fun e => !(s.set b).inEnvelope e then .fails
  else .undecided

end Subset

namespace Disjoint

/-- Removes the certain elements of `a` from `b`. -/
def excludeKernel (a b : SetId) : Filtering Unit := do
  let required ← Filtering.read fun s => (s.set a).kernelElements
  required.forM fun e => Filtering.narrowing (·.excludeElement b e)

/-- Removes the certain elements of either set from the other. -/
def filter (a b : SetId) : Filtering Unit := do
  excludeKernel a b
  excludeKernel b a

/-- What is known about the contents that are left. -/
def entailment (a b : SetId) (s : Store) : Entailment :=
  if (s.set a).envelopeElements.all fun e => !(s.set b).inEnvelope e then .holds
  else if (s.set a).kernelElements.any (s.set b).inKernel then .fails
  else .undecided

end Disjoint

namespace Member

/-- Keeps the values of the variable that are possible elements of the set; a variable that is
    fixed makes its value a certain element. -/
def filter (x : IntVar) (y : SetId) : Filtering Unit := do
  let (supported, unsupported) ← Filtering.read fun s =>
    (x.values s).partition (s.set y).inEnvelope
  match supported.head?, supported.getLast? with
  | some least, some greatest =>
    Filtering.narrowing (x.tightenLower · least)
    Filtering.narrowing (x.tightenUpper · greatest)
    (unsupported.filter fun v => least < v && v < greatest).forM fun v =>
      Filtering.narrowing (x.removeValue · v)
    if ← Filtering.read x.isFixed then
      let value ← Filtering.read x.lowerBound
      Filtering.narrowing (·.includeElement y value)
  | _, _ => Filtering.refuse

/-- What is known about the contents that are left. -/
def entailment (x : IntVar) (y : SetId) (s : Store) : Entailment :=
  if x.isFixed s && (s.set y).inKernel (x.lowerBound s) then .holds
  else if (x.values s).all fun v => !(s.set y).inEnvelope v then .fails
  else .undecided

end Member

end FiniteDomain
