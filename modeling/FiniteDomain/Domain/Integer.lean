import FiniteDomain.BitSet
import FiniteDomain.Width
import FiniteDomain.Domain.Outcome

/-! # Integer domains

    An integer domain is the set of values that an integer variable can still
    take.  A *bounded* domain is an interval; values between its bounds cannot be
    removed.  An *enumerated* domain holds in addition a set of values, any of
    which can be removed; the values outside the bounds stay in that set, so
    moving a bound is recorded by the old bound alone.

    `contains` is the view of a domain.  Each narrowing keeps the values that
    obey its request, or for a bounded domain the interval from the least to the
    greatest of them. -/

namespace FiniteDomain

/-! ### Representation -/

/-- A set of values, stored relative to an offset. -/
structure Enumeration where
  /-- The value with index zero. -/
  offset : Int
  /-- The indices of the values. -/
  present : BitSet
deriving DecidableEq, Repr, Inhabited

namespace Enumeration

/-- The index of a value. -/
def index (s : Enumeration) (v : Int) : Nat := (v - s.offset).toNat

/-- The value with an index. -/
def value (s : Enumeration) (i : Nat) : Int := s.offset + i

/-- The value is a member. -/
def contains (s : Enumeration) (v : Int) : Bool := s.present.contains (s.index v)

/-- The set without a value. -/
def erase (s : Enumeration) (v : Int) : Enumeration :=
  { s with present := s.present.erase (s.index v) }

/-- The set with a value. -/
def insert (s : Enumeration) (v : Int) : Enumeration :=
  { s with present := s.present.insert (s.index v) }

/-- The members from `lower` to `upper`, both included, in ascending order. -/
def valuesIn (s : Enumeration) (lower upper : Int) : List Int :=
  (s.present.membersIn (s.index lower) (s.index upper)).map s.value

end Enumeration

/-- The values that an integer variable can take. -/
structure IntegerDomain where
  /-- The least value. -/
  lower : Int
  /-- The greatest value. -/
  upper : Int
  /-- The number of values. -/
  size : Nat
  /-- The values, if not all between the bounds belong to the domain. -/
  values? : Option Enumeration
deriving DecidableEq, Repr

namespace IntegerDomain

/-- How a change of an integer domain is taken back. -/
inductive Entry where
  /-- The lower bound and the size before. -/
  | lowerBound (lower : Int) (size : Nat)
  /-- The upper bound and the size before. -/
  | upperBound (upper : Int) (size : Nat)
  /-- A value that was removed between the bounds. -/
  | removal (value : Int)
deriving DecidableEq, Repr, Inhabited

/-- The number of integers from `lower` to `upper`; the count has 64 bits without a sign, so a
    negative one wraps around. -/
def span (lower upper : Int) : Nat := ((upper - lower + 1) % 18446744073709551616).toNat

/-- The interval from `lower` to `upper`. -/
def bounded (lower upper : Int) : IntegerDomain := ⟨lower, upper, span lower upper, none⟩

instance : Inhabited IntegerDomain := ⟨bounded 0 0⟩

/-- The domain of the listed values, which are sorted and distinct; no value is a fault. -/
def enumerated (values : List Int) : Except Fault IntegerDomain :=
  match values with
  | [] => .error .indexOutOfBounds
  | lower :: rest =>
    let upper := rest.getLastD lower
    let none : Enumeration := ⟨lower, BitSet.empty (upper - lower + 1).toNat⟩
    .ok ⟨lower, upper, values.length, some (values.foldl Enumeration.insert none)⟩

/-! ### Reading -/

/-- The domain is stored as a set of values. -/
def isEnumerated (d : IntegerDomain) : Bool := d.values?.isSome

/-- The two bounds agree. -/
def isFixed (d : IntegerDomain) : Bool := d.lower == d.upper

/-- The value belongs to the domain. -/
def contains (d : IntegerDomain) (v : Int) : Bool :=
  decide (d.lower ≤ v) && decide (v ≤ d.upper)
    && match d.values? with
       | none => true
       | some s => s.contains v

/-- The least value from `v` on; `v` has to lie between the bounds. -/
def firstFrom (d : IntegerDomain) (v : Int) : Int :=
  match d.values? with
  | none => v
  | some s => ((s.present.next? (s.index v)).map s.value).getD d.upper

/-- The greatest value up to `v`; `v` has to lie between the bounds. -/
def lastUpTo (d : IntegerDomain) (v : Int) : Int :=
  match d.values? with
  | none => v
  | some s => ((s.present.previous? (s.index v)).map s.value).getD d.lower

/-- The least value above `v`, or `maxValue` if there is none. -/
def nextValue (d : IntegerDomain) (v : Int) : Int :=
  if d.upper ≤ v then maxValue
  else if v < d.lower then d.lower
  else
    match d.values? with
    | none => v + 1
    | some s => ((s.present.next? (s.index v + 1)).map s.value).getD maxValue

/-- The greatest value below `v`, or `minValue` if there is none. -/
def previousValue (d : IntegerDomain) (v : Int) : Int :=
  if v ≤ d.lower then minValue
  else if d.upper < v then d.upper
  else
    match d.values? with
    | none => v - 1
    | some s => ((s.present.previous? (s.index v - 1)).map s.value).getD minValue

/-- The numbers from `v` on, each followed by the next one, until a number is not below `upper`;
    at most `count`. -/
def ascend (next : Int → Int) (upper : Int) : (count : Nat) → (v : Int) → List Int
  | 0, _ => []
  | count + 1, v => v :: if v < upper then ascend next upper count (next v) else []

/-- The number that is reached from `v` after the given number of steps, if no number before it is
    at least `upper`. -/
def climb? (next : Int → Int) (upper : Int) : (steps : Nat) → (v : Int) → Option Int
  | 0, v => some v
  | steps + 1, v => if v < upper then climb? next upper steps (next v) else none

theorem climb?_eq_getElem?_ascend (next : Int → Int) (upper : Int) (steps : Nat) (v : Int) :
    climb? next upper steps v = (ascend next upper (steps + 1) v)[steps]? := by
  induction steps generalizing v with
  | zero => rfl
  | succ steps ih =>
    rw [climb?, ascend]
    by_cases h : v < upper <;> simp [h, ih]

/-- The values in ascending order; the lower bound is always the first of them. -/
def values (d : IntegerDomain) : List Int :=
  ascend d.nextValue d.upper (span d.lower d.upper + 1) d.lower

/-! ### Narrowing -/

/-- The number of values from `lower` to `upper`, which lie between the bounds. -/
def countBetween (d : IntegerDomain) (lower upper : Int) : Nat :=
  match d.values? with
  | none => (upper - lower + 1).toNat
  | some s => s.present.countIn (s.index lower) (s.index upper)

/-- The domain with its lower bound raised to the value `v`. -/
def raiseLower (d : IntegerDomain) (v : Int) : IntegerDomain :=
  { d with lower := v, size := d.size - d.countBetween d.lower (v - 1) }

/-- The domain with its upper bound lowered to the value `v`. -/
def dropUpper (d : IntegerDomain) (v : Int) : IntegerDomain :=
  { d with upper := v, size := d.size - d.countBetween (v + 1) d.upper }

/-- The event of a moved bound: an assignment if one value is left. -/
def boundEvent (d : IntegerDomain) (e : Event) : Event := if d.isFixed then .assign else e

/-- Keeps the values that are at least `v`. -/
def tightenLower (d : IntegerDomain) (v : Int) : Outcome IntegerDomain Entry :=
  if v ≤ d.lower then .unchanged
  else if d.upper < v then .empty
  else
    let after := d.raiseLower (d.firstFrom v)
    .changed after [.lowerBound d.lower d.size] (after.boundEvent .lowerBound)

/-- Keeps the values that are at most `v`. -/
def tightenUpper (d : IntegerDomain) (v : Int) : Outcome IntegerDomain Entry :=
  if d.upper ≤ v then .unchanged
  else if v < d.lower then .empty
  else
    let after := d.dropUpper (d.lastUpTo v)
    .changed after [.upperBound d.upper d.size] (after.boundEvent .upperBound)

/-- Keeps the values other than `v`; between the bounds of a bounded domain nothing happens. -/
def remove (d : IntegerDomain) (v : Int) : Outcome IntegerDomain Entry :=
  if !d.contains v then .unchanged
  else if v = d.lower then d.tightenLower (v + 1)
  else if v = d.upper then d.tightenUpper (v - 1)
  else
    match d.values? with
    | none => .unchanged
    | some s => .changed { d with values? := some (s.erase v), size := d.size - 1 }
        [.removal v] .removal

/-- Keeps the values below `lower` and above `upper`; between the bounds of a bounded domain
    nothing happens. -/
def removeInterval (d : IntegerDomain) (lower upper : Int) : Outcome IntegerDomain Entry :=
  let lower := max lower d.lower
  let upper := min upper d.upper
  if upper < lower then .unchanged
  else if lower = d.lower then d.tightenLower (upper + 1)
  else if upper = d.upper then d.tightenUpper (lower - 1)
  else
    match d.values? with
    | none => .unchanged
    | some s =>
      let removed := s.valuesIn lower upper
      if removed.isEmpty then .unchanged
      else .changed
        { d with values? := some (removed.foldl Enumeration.erase s)
                 size := d.size - removed.length }
        (removed.map .removal) .removal

/-- Keeps the value `v` alone. -/
def instantiate (d : IntegerDomain) (v : Int) : Outcome IntegerDomain Entry :=
  if !d.contains v then .empty
  else if d.isFixed then .unchanged
  else
    let raised := if d.lower < v then d.raiseLower v else d
    let after := if v < raised.upper then raised.dropUpper v else raised
    .changed after
      ((if d.lower < v then [.lowerBound d.lower d.size] else [])
        ++ (if v < d.upper then [.upperBound d.upper raised.size] else []))
      .assign

/-! ### Taking back -/

/-- The domain before the change that the entry records. -/
def undo (d : IntegerDomain) : Entry → IntegerDomain
  | .lowerBound lower size => { d with lower, size }
  | .upperBound upper size => { d with upper, size }
  | .removal v =>
    match d.values? with
    | none => d
    | some s => { d with values? := some (s.insert v), size := d.size + 1 }

end IntegerDomain

end FiniteDomain
