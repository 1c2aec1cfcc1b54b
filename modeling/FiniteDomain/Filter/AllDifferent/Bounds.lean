import FiniteDomain.Filter.AllDifferent.Basic

/-! # All different, by bounds

    The strong filter for *all different*.  A Hall interval is an interval of
    values that contains the domains of as many variables as it has values;
    these variables use it up, so no other variable can take a value of it.  A
    pass looks at the intervals from the lower bound of some variable to the
    upper bound of some variable and moves the bounds of the others out of every
    Hall interval; an interval with more variables than values is a conflict.
    Passes are repeated until one changes nothing, then assigned values are
    removed from the other variables. -/

namespace FiniteDomain.AllDifferent

/-- The numbers of a list in ascending order, each once. -/
def sortedDistinct (l : List Int) : List Int :=
  (l.mergeSort (fun a b => decide (a ≤ b))).eraseReps

/-- The intervals from a lower bound to an upper bound. -/
def candidateIntervals (bounds : List (Int × Int)) : List (Int × Int) :=
  (sortedDistinct (bounds.map (·.1))).flatMap fun low =>
    ((sortedDistinct (bounds.map (·.2))).filter (low ≤ ·)).map fun high => (low, high)

/-- The interval contains the domain between the bounds. -/
def encloses (low high : Int) (bounds : Int × Int) : Bool :=
  decide (low ≤ bounds.1) && decide (bounds.2 ≤ high)

/-- Moves the bounds of a variable out of a Hall interval; tells whether anything changed. -/
def moveOut (x : IntVar) (low high : Int) : Filtering Bool := do
  let lower ← Filtering.read x.lowerBound
  let raised ←
    if low ≤ lower ∧ lower ≤ high then do
      let bound ← Filtering.checked (Width.value.checked (high + 1))
      Filtering.narrowOr .inconsistent (x.tightenLower · bound)
    else pure false
  let upper ← Filtering.read x.upperBound
  let dropped ←
    if low ≤ upper ∧ upper ≤ high then do
      let bound ← Filtering.checked (Width.value.checked (low - 1))
      Filtering.narrowOr .inconsistent (x.tightenUpper · bound)
    else pure false
  return raised || dropped

/-- Treats one interval, for domains that had the given bounds when the pass began; tells
    whether anything changed. -/
def treatInterval (vars : List IntVar) (bounds : List (Int × Int)) (low high : Int) :
    Filtering Bool := do
  let inside : Int := bounds.countP (encloses low high)
  let room := high - low + 1
  if room < inside then Filtering.refuse
  else if inside < room then return false
  else
    (vars.zip bounds).foldlM
      (fun changed (x, b) => do
        if encloses low high b then return changed
        return (← moveOut x low high) || changed)
      false

/-- Treats all intervals once; tells whether anything changed. -/
def hallPass (vars : List IntVar) : Filtering Bool := do
  let bounds ← Filtering.read fun s => vars.map fun x => (x.lowerBound s, x.upperBound s)
  (candidateIntervals bounds).foldlM
    (fun changed (low, high) => return (← treatInterval vars bounds low high) || changed)
    false

/-- Repeats passes until one changes nothing, at most `fuel` times. -/
def hallPasses (vars : List IntVar) : (fuel : Nat) → Filtering Unit
  | 0 => Filtering.fault .outOfFuel
  | fuel + 1 => do
    if ← hallPass vars then hallPasses vars fuel

/-- Removes the value of every fixed variable from all others. -/
def removeFixedValues (vars : List IntVar) : Filtering Unit :=
  vars.zipIdx.forM fun (x, i) => do
    if ← Filtering.read x.isFixed then
      let value ← Filtering.read x.lowerBound
      vars.zipIdx.forM fun (y, j) => do
        if i ≠ j then Filtering.narrowing (y.removeValue · value)

/-- Moves all bounds out of Hall intervals and removes assigned values; a pass that changes
    something lowers the slack of the store, which bounds the number of passes. -/
def byBounds (vars : List IntVar) : Filtering Unit := do
  hallPasses vars ((← Filtering.read Store.slack) + 1)
  removeFixedValues vars

end FiniteDomain.AllDifferent
