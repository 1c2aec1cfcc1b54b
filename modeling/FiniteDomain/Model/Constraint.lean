import FiniteDomain.Filter
import FiniteDomain.Model.Modelling
import FiniteDomain.Scripted

/-! # Constraints

    A constraint is a relation between variables that can be posted on a model.
    Posting checks its arguments and then posts the filters that enforce it; a
    constraint that stands for several others posts them in order and stops at
    the first that fails. -/

namespace FiniteDomain

/-! ### Types of propagators that contain the filters -/

/-- The filters of the library are among the propagators of the type. -/
class HasFilters (P : Type) extends Propagator P where
  /-- A filter as a propagator of the type. -/
  ofFilter : Filter → P

instance : HasFilters Filter := ⟨id⟩
instance : HasFilters Agent := ⟨.filter⟩

/-! ### Constraints -/

/-- How strongly pairwise difference is filtered. -/
inductive Strength where
  /-- Assigned values are removed from the other variables. -/
  | instantiation
  /-- Bounds are moved out of Hall intervals. -/
  | bounds
deriving DecidableEq, Repr

namespace Strength

instance : Inhabited Strength := ⟨.instantiation⟩

/-- The name of a strength. -/
def name : Strength → String
  | .instantiation => "instantiation"
  | .bounds => "bounds"

/-- The filter for pairwise difference of a strength. -/
def filter (vars : List IntVar) : Strength → Filter
  | .instantiation => .distinctByValue vars
  | .bounds => .distinctByBounds vars

end Strength

/-- A relation between variables. -/
inductive Constraint where
  /-- The variables differ pairwise. -/
  | allDifferent (vars : List IntVar) (strength : Strength)
  /-- The sum of the terms is at most the limit. -/
  | sumAtMost (terms : List IntVar) (limit : Int)
  /-- The sum of the terms equals a number. -/
  | sumEquals (terms : List IntVar) (sum : Int)
  /-- The first variable is at most the second. -/
  | atMost (a b : IntVar)
  /-- The first variable is less than the second. -/
  | less (a b : IntVar)
  /-- The variables are equal. -/
  | equal (a b : IntVar)
  /-- The variables differ. -/
  | distinct (a b : IntVar)
  /-- The variable differs from a number. -/
  | differs (x : IntVar) (k : Int)
  /-- The first set is contained in the second. -/
  | subset (a b : SetId)
  /-- The sets have no element in common. -/
  | disjoint (a b : SetId)
  /-- The value of the variable belongs to the set. -/
  | member (x : IntVar) (y : SetId)
  /-- Every node but one has exactly one neighbour in a direction; that one has none. -/
  | oneNeighbour (d : Direction) (g : GraphId) (but : Nat)
  /-- No arcs enter the source or leave the sink, and the arcs form no cycle. -/
  | pathNoCycle (g : GraphId) (source sink : Nat)
  /-- The arcs form a path from the source to the sink over all nodes. -/
  | hamiltonianPath (g : GraphId) (source sink : Nat)
  /-- All of the listed constraints hold. -/
  | all (constraints : List Constraint)
deriving Repr, Inhabited

namespace Constraint

variable {P : Type} [HasFilters P]

/-- Posts a filter. -/
def postFilter (f : Filter) : Modelling P Unit := Modelling.post (HasFilters.ofFilter f)

/-- Posts that a sum is at most a limit. -/
def postSumAtMost (terms : List IntVar) (limit : Int) : Modelling P Unit := do
  if terms.isEmpty then throw .emptyScope
  postFilter (.sumAtMost terms limit)

/-- Posts that a sum equals a number. -/
def postSumEquals (terms : List IntVar) (sum : Int) : Modelling P Unit := do
  let negated ← Modelling.checked (terms.mapM IntVar.negated)
  postSumAtMost terms sum
  postSumAtMost negated (-sum)

/-- Posts that all nodes but one have one neighbour in a direction. -/
def postOneNeighbour (d : Direction) (g : GraphId) (but : Nat) : Modelling P Unit := do
  Modelling.requireNode g but
  postFilter (.oneNeighbour d g but)

/-- Posts that arcs form chains from source to sink. -/
def postPathNoCycle (g : GraphId) (source sink : Nat) : Modelling P Unit := do
  Modelling.requireNode g source
  Modelling.requireNode g sink
  postFilter (.pathNoCycle g source sink)

/-- Posts that the arcs form a path over all nodes. -/
def postHamiltonianPath (g : GraphId) (source sink : Nat) : Modelling P Unit := do
  Modelling.requireNode g source
  Modelling.requireNode g sink
  let order ← Modelling.orderOf g
  (List.range order).forM (Modelling.includeNode g)
  postOneNeighbour .successors g sink
  postOneNeighbour .predecessors g source
  postPathNoCycle g source sink

mutual

/-- Posts a constraint. -/
def post : Constraint → Modelling P Unit
  | .allDifferent vars strength => do
    if vars.isEmpty then throw .emptyScope
    if !vars.Nodup then throw .duplicateVariable
    postFilter (strength.filter vars)
  | .sumAtMost terms limit => postSumAtMost terms limit
  | .sumEquals terms sum => postSumEquals terms sum
  | .atMost a b => postFilter (.atMost a b)
  | .less a b => do
    let below ← Modelling.checked (b.shifted (-1))
    postFilter (.atMost a below)
  | .equal a b => do
    let left ← Modelling.checked (a.scaled 1)
    let right ← Modelling.checked b.negated
    postSumEquals [left, right] 0
  | .distinct a b => postFilter (.distinct a b)
  | .differs x k => Modelling.impose (x.differs k)
  | .subset a b => postFilter (.subset a b)
  | .disjoint a b => postFilter (.disjoint a b)
  | .member x y => postFilter (.member x y)
  | .oneNeighbour d g but => postOneNeighbour d g but
  | .pathNoCycle g source sink => postPathNoCycle g source sink
  | .hamiltonianPath g source sink => postHamiltonianPath g source sink
  | .all constraints => postAll constraints

/-- Posts constraints in order. -/
def postAll : List Constraint → Modelling P Unit
  | [] => pure ()
  | c :: rest => do
    post c
    postAll rest

end

end Constraint

end FiniteDomain
