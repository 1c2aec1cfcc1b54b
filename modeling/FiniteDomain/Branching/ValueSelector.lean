import FiniteDomain.Branching.Branch
import FiniteDomain.Random

/-! # Choosing how to branch on a variable

    A value selector turns a variable that is not fixed into a branch.  Most pick
    a value and branch on it: the variable has the value, or it is below, or it
    is above (a value at a bound leaves two alternatives).  `split` halves the
    domain, `enumerate` makes one alternative for each value. -/

namespace FiniteDomain

/-! ### Orders of values -/

/-- An order in which values are tried. -/
inductive ValueOrdering where
  /-- From the least to the greatest. -/
  | ascending
  /-- From the greatest to the least. -/
  | descending
  /-- By the distance to the middle of least and greatest, the smaller value first. -/
  | middleOut
  /-- Another order, with the first values moved to the end. -/
  | dropFirst (count : Nat) (inner : ValueOrdering)
deriving DecidableEq, Repr, Inhabited

namespace ValueOrdering

/-- Whether value `a` comes not after `b` when the doubled middle is `center`. -/
def closer (center a b : Int) : Bool :=
  let da := (2 * a - center).natAbs
  let db := (2 * b - center).natAbs
  decide (da < db) || (da == db && decide (a ≤ b))

/-- The values in the order in which they are tried; `ascending` takes them as they come. -/
def order : ValueOrdering → List Int → List Int
  | .ascending, values => values
  | .descending, values => values.reverse
  | .middleOut, values =>
    match values.min?, values.max? with
    | some least, some greatest => values.mergeSort (closer (least + greatest))
    | _, _ => values
  | .dropFirst count inner, values =>
    let ordered := inner.order values
    ordered.drop count ++ ordered.take count

end ValueOrdering

/-! ### Branches -/

/-- A rule for branching on a variable. -/
inductive ValueSelector where
  /-- On the least value. -/
  | min
  /-- On the greatest value. -/
  | max
  /-- On the value nearest to the middle of the bounds. -/
  | middle
  /-- On the two halves of the domain. -/
  | split
  /-- On any value. -/
  | random
  /-- On every value. -/
  | enumerate (ordering : ValueOrdering)
deriving DecidableEq, Repr, Inhabited

namespace ValueSelector

/-- The middle of the bounds, rounded down. -/
def midpoint (x : IntVar) (s : Store) : Int := divFloor (x.lowerBound s + x.upperBound s) 2

/-- The value of the domain nearest to the middle of the bounds; of two, the smaller. -/
def nearestToMiddle (x : IntVar) (s : Store) : Int :=
  let middle := midpoint x s
  if x.contains s middle then middle
  else
    let below := x.previousValue s middle
    let above := x.nextValue s middle
    if middle - below ≤ above - middle then below else above

/-- The branch on a value: to have it, to be below, to be above. -/
def branchOnValue (x : IntVar) (s : Store) (v : Int) : Except Fault Branch := do
  if v = x.lowerBound s ∨ v = x.upperBound s then
    return .binary (.impose (x.equals v)) (.impose (x.differs v))
  else
    let below ← Width.value.checked (v - 1)
    let above ← Width.value.checked (v + 1)
    Branch.ofList [.impose (x.equals v), .impose (x.atMost below), .impose (x.atLeast above)]

/-- The branch on a variable. -/
def select (selector : ValueSelector) (x : IntVar) (s : Store) (r : Random) :
    Except Fault (Branch × Random) := do
  match selector with
  | .min => return (← branchOnValue x s (x.lowerBound s), r)
  | .max => return (← branchOnValue x s (x.upperBound s), r)
  | .middle => return (← branchOnValue x s (nearestToMiddle x s), r)
  | .split =>
    let bound := midpoint x s
    let above ← Width.value.checked (bound + 1)
    return (.binary (.impose (x.atMost bound)) (.impose (x.atLeast above)), r)
  | .random =>
    let (i, r) ← r.index 0 (x.size s)
    let v := (x.valueAt? s i).getD (x.lowerBound s)
    return (← branchOnValue x s v, r)
  | .enumerate ordering =>
    let alternatives := (ordering.order (x.values s)).map fun v => Decision.impose (x.equals v)
    return (← Branch.ofList alternatives, r)

end ValueSelector

end FiniteDomain
