import FiniteDomain.Store

/-! # Integer variables and views

    An integer variable of a constraint is either a variable of the store or a
    *view*, an affine image `scale · x + offset` of another one.  A view has no
    domain of its own: it reads and narrows the domain of the variable below it,
    through the map and its inverse.

    Images are computed exactly and then saturated to the range of values, so a
    reader never sees a number outside it.  Narrowings go the other way: the
    bound or value is pulled back through the map, rounding towards the values
    that satisfy the request. -/

namespace FiniteDomain

/-! ### Affine maps -/

/-- The map `v ↦ scale · v + offset`, which is injective since the scale is not zero. -/
structure AffineMap where
  /-- The factor. -/
  scale : Int
  /-- The summand. -/
  offset : Int
  /-- The factor is not zero. -/
  scale_ne_zero : scale ≠ 0
deriving DecidableEq, Repr

namespace AffineMap

/-- The map with the given coefficients; scale zero is a fault. -/
def make (scale offset : Int) : Except Fault AffineMap :=
  if h : scale = 0 then .error .zeroScale else .ok ⟨scale, offset, h⟩

/-- The map reverses the order. -/
def reverses (m : AffineMap) : Bool := decide (m.scale < 0)

/-- The image. -/
def image (m : AffineMap) (v : Int) : Int := m.scale * v + m.offset

/-- The image, saturated to the range of values. -/
def apply (m : AffineMap) (v : Int) : Int := Width.value.clamp (m.image v)

/-- The exact preimage of `v`, rounded up. -/
def pullUp (m : AffineMap) (v : Int) : Int := divCeil (v - m.offset) m.scale

/-- The exact preimage of `v`, rounded down. -/
def pullDown (m : AffineMap) (v : Int) : Int := divFloor (v - m.offset) m.scale

/-- The least value that is not below the preimage of `v`, if there is one. -/
def pullLower? (m : AffineMap) (v : Int) : Option Int :=
  let w := m.pullUp v
  if w ≤ maxValue then some (max w minValue) else none

/-- The greatest value that is not above the preimage of `v`, if there is one. -/
def pullUpper? (m : AffineMap) (v : Int) : Option Int :=
  let w := m.pullDown v
  if minValue ≤ w then some (min w maxValue) else none

/-- The value whose image is `v`, if there is one. -/
def preimage? (m : AffineMap) (v : Int) : Option Int :=
  if (v - m.offset) % m.scale = 0 then
    let w := Int.tdiv (v - m.offset) m.scale
    if Width.value.Fits w then some w else none
  else none

/-- The map followed by multiplication; the coefficients have to stay in range. -/
def scaled (m : AffineMap) (factor : Int) : Except Fault AffineMap :=
  if Width.value.Fits (m.scale * factor) ∧ Width.value.Fits (m.offset * factor) then
    make (m.scale * factor) (m.offset * factor)
  else .error (.scaleOverflow m.scale m.offset factor)

/-- The map followed by addition; the offset has to stay in range. -/
def shifted (m : AffineMap) (shift : Int) : Except Fault AffineMap :=
  if Width.value.Fits (m.offset + shift) then .ok { m with offset := m.offset + shift }
  else .error (.offsetOverflow m.offset shift)

end AffineMap

/-! ### Variables -/

/-- An integer variable as constraints see it. -/
inductive IntVar where
  /-- A variable of the store. -/
  | plain (x : IntId)
  /-- An affine image of another variable. -/
  | view (inner : IntVar) (map : AffineMap)
deriving DecidableEq, Repr

namespace IntVar

instance : Inhabited IntVar := ⟨.plain default⟩

/-- The variable of the store below all views. -/
def base : IntVar → IntId
  | .plain x => x
  | .view inner _ => inner.base

/-- The view `scale · x + offset` of a variable. -/
def affine (x : IntVar) (scale offset : Int) : Except Fault IntVar := do
  return .view x (← AffineMap.make scale offset)

/-- The variable multiplied by a factor. -/
def scaled (x : IntVar) (factor : Int) : Except Fault IntVar := do
  match x with
  | .plain y => return .view (.plain y) (← AffineMap.make factor 0)
  | .view inner map => return .view inner (← map.scaled factor)

/-- The variable plus a constant. -/
def shifted (x : IntVar) (shift : Int) : Except Fault IntVar := do
  match x with
  | .plain y => return .view (.plain y) (← AffineMap.make 1 shift)
  | .view inner map => return .view inner (← map.shifted shift)

/-- The variable with its sign changed. -/
def negated (x : IntVar) : Except Fault IntVar := x.scaled (-1)

/-- The text of a variable. -/
def text : IntVar → String
  | .plain x => toString x
  | .view inner map =>
    (if map.scale = -1 then "-" else if map.scale = 1 then "" else s!"{map.scale} * ")
      ++ "(" ++ inner.text ++ ")"
      ++ (if map.offset < 0 then s!" - {map.offset.natAbs}"
          else if map.offset = 0 then "" else s!" + {map.offset}")

instance : ToString IntVar := ⟨text⟩

/-! ### Values -/

/-- The exact value of the variable when the variables of the store have the given values. -/
def exactValue (value : IntId → Int) : IntVar → Int
  | .plain x => value x
  | .view inner map => map.image (inner.exactValue value)

/-! ### Reading -/

mutual

/-- The least value. -/
def lowerBound (x : IntVar) (s : Store) : Int :=
  match x with
  | .plain y => (s.int y).lower
  | .view inner map =>
    map.apply (if map.reverses then inner.upperBound s else inner.lowerBound s)

/-- The greatest value. -/
def upperBound (x : IntVar) (s : Store) : Int :=
  match x with
  | .plain y => (s.int y).upper
  | .view inner map =>
    map.apply (if map.reverses then inner.lowerBound s else inner.upperBound s)

end

/-- The value belongs to the domain. -/
def contains (x : IntVar) (s : Store) (v : Int) : Bool :=
  match x with
  | .plain y => (s.int y).contains v
  | .view inner map => (map.preimage? v).any (inner.contains s)

/-- The number of values. -/
def size (x : IntVar) (s : Store) : Nat := (s.int x.base).size

/-- The two bounds agree. -/
def isFixed (x : IntVar) (s : Store) : Bool := x.lowerBound s == x.upperBound s

mutual

/-- The least value above `v`, or `maxValue` if there is none. -/
def nextValue (x : IntVar) (s : Store) (v : Int) : Int :=
  match x with
  | .plain y => (s.int y).nextValue v
  | .view inner map =>
    let next :=
      if map.reverses then inner.previousValue s (Width.value.clamp (map.pullUp v))
      else inner.nextValue s (Width.value.clamp (map.pullDown v))
    if next = maxValue ∨ next = minValue then maxValue else map.apply next

/-- The greatest value below `v`, or `minValue` if there is none. -/
def previousValue (x : IntVar) (s : Store) (v : Int) : Int :=
  match x with
  | .plain y => (s.int y).previousValue v
  | .view inner map =>
    let previous :=
      if map.reverses then inner.nextValue s (Width.value.clamp (map.pullDown v))
      else inner.previousValue s (Width.value.clamp (map.pullUp v))
    if previous = maxValue ∨ previous = minValue then minValue else map.apply previous

end

/-- The first values, at most `count`, in ascending order; the least value is always the first of
    them. -/
def firstValues (x : IntVar) (s : Store) (count : Nat) : List Int :=
  IntegerDomain.ascend (x.nextValue s) (x.upperBound s) count (x.lowerBound s)

/-- The value with the given number of values below it. -/
def valueAt? (x : IntVar) (s : Store) (position : Nat) : Option Int :=
  IntegerDomain.climb? (x.nextValue s) (x.upperBound s) position (x.lowerBound s)

theorem valueAt?_eq (x : IntVar) (s : Store) (position : Nat) :
    x.valueAt? s position = (x.firstValues s (position + 1))[position]? :=
  IntegerDomain.climb?_eq_getElem?_ascend _ _ _ _

/-- All values in ascending order. -/
def values (x : IntVar) (s : Store) : List Int :=
  x.firstValues s (IntegerDomain.span (x.lowerBound s) (x.upperBound s) + 1)

/-! ### Predicates -/

mutual

/-- The predicate that the variable is at least `k`. -/
def atLeast (x : IntVar) (k : Int) : Predicate :=
  match x with
  | .plain y => .atLeast y k
  | .view inner map =>
    if map.reverses then (map.pullUpper? k).elim .never inner.atMost
    else (map.pullLower? k).elim .never inner.atLeast

/-- The predicate that the variable is at most `k`. -/
def atMost (x : IntVar) (k : Int) : Predicate :=
  match x with
  | .plain y => .atMost y k
  | .view inner map =>
    if map.reverses then (map.pullLower? k).elim .never inner.atLeast
    else (map.pullUpper? k).elim .never inner.atMost

end

/-- The predicate that the variable equals `k`. -/
def equals (x : IntVar) (k : Int) : Predicate :=
  match x with
  | .plain y => .equals y k
  | .view inner map => (map.preimage? k).elim .never inner.equals

/-- The predicate that the variable differs from `k`. -/
def differs (x : IntVar) (k : Int) : Predicate :=
  match x with
  | .plain y => .differs y k
  | .view inner map => (map.preimage? k).elim .always inner.differs

/-! ### Narrowing -/

mutual

/-- Keeps the values that are at least `k`. -/
def tightenLower (x : IntVar) (s : Store) (k : Int) : Narrowed :=
  match x with
  | .plain y => s.tightenLower y k
  | .view inner map =>
    if map.reverses then (map.pullUpper? k).elim ⟨none, s⟩ (inner.tightenUpper s)
    else (map.pullLower? k).elim ⟨none, s⟩ (inner.tightenLower s)

/-- Keeps the values that are at most `k`. -/
def tightenUpper (x : IntVar) (s : Store) (k : Int) : Narrowed :=
  match x with
  | .plain y => s.tightenUpper y k
  | .view inner map =>
    if map.reverses then (map.pullLower? k).elim ⟨none, s⟩ (inner.tightenLower s)
    else (map.pullUpper? k).elim ⟨none, s⟩ (inner.tightenUpper s)

end

/-- Keeps the values other than `k`. -/
def removeValue (x : IntVar) (s : Store) (k : Int) : Narrowed :=
  match x with
  | .plain y => s.removeValue y k
  | .view inner map =>
    (map.preimage? k).elim ⟨some false, s⟩ (inner.removeValue s)

/-- The interval of the base variable that an interval pulls back to, with saturated ends; none if
    it is empty below some view. -/
def pullInterval? (x : IntVar) (lower upper : Int) : Option (Int × Int) :=
  match x with
  | .plain _ => some (lower, upper)
  | .view inner map =>
    let first := Width.value.clamp (map.pullUp (if map.reverses then upper else lower))
    let last := Width.value.clamp (map.pullDown (if map.reverses then lower else upper))
    if last < first then none else inner.pullInterval? first last

/-- Keeps the values outside the interval. -/
def removeInterval (x : IntVar) (s : Store) (lower upper : Int) : Narrowed :=
  match x.pullInterval? lower upper with
  | none => ⟨some false, s⟩
  | some (first, last) => s.removeInterval x.base first last

/-- Keeps the value `k` alone. -/
def instantiate (x : IntVar) (s : Store) (k : Int) : Narrowed :=
  match x with
  | .plain y => s.instantiate y k
  | .view inner map => (map.preimage? k).elim ⟨none, s⟩ (inner.instantiate s)

/-! ### Events -/

/-- The events of the base variable by which the given events of the variable are noticed. -/
def watchedEvents (x : IntVar) (events : EventSet) : EventSet :=
  match x with
  | .plain _ => events
  | .view inner map => inner.watchedEvents (if map.reverses then events.reflect else events)

/-- An event of the base variable as an event of this variable. -/
def eventSeen (x : IntVar) (e : Event) : Event :=
  match x with
  | .plain _ => e
  | .view inner map => if map.reverses then (inner.eventSeen e).reflect else inner.eventSeen e

end IntVar

end FiniteDomain
