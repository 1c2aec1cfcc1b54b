import FiniteDomain.Search.Run

/-! # Solutions

    A solution is a store in which a search has stopped.  Usually every variable
    is fixed there; variables that the brancher does not cover may be left open,
    and reading the value of such an integer variable is a fault.

    `Search.satisfy` looks for one solution and goes back to the root. -/

namespace FiniteDomain

/-- The store of a search that has found a solution. -/
structure Solution where
  /-- The domains. -/
  store : Store
deriving Repr, Inhabited

namespace Solution

/-- The value of a variable, which has to exist and to be fixed. -/
def value (sol : Solution) (x : IntVar) : Except Fault Int := do
  sol.store.require (.int x.base)
  if x.isFixed sol.store then return x.lowerBound sol.store else throw .unassignedVariable

/-- The certain elements of a set. -/
def elements (sol : Solution) (y : SetId) : List Int := (sol.store.set y).kernelElements

/-- The certain nodes of a graph. -/
def nodes (sol : Solution) (g : GraphId) : List Nat := (sol.store.graph g).kernel.nodeList

/-- The certain arcs of a graph, by tail and head. -/
def arcs (sol : Solution) (g : GraphId) : List (Nat × Nat) := (sol.store.graph g).kernel.arcList

end Solution

/-- The solution that a solver has stopped at. -/
def Solver.solution {P : Type} (sv : Solver P) : Solution := ⟨sv.store⟩

/-- The result of looking for one solution. -/
inductive Satisfaction where
  /-- There is one. -/
  | satisfiable (sol : Solution)
  /-- There is none. -/
  | unsatisfiable
  /-- The limit has stopped the search. -/
  | unknown
deriving Repr, Inhabited

/-- Looks for a solution and goes back to the root. -/
def Search.satisfy {P B T : Type} [Propagator P] [Brancher B] [Termination T]
    (sr : Search P B T) : Except Fault (Satisfaction × Search P B T) := do
  let (verdict, sr) ← sr.solve
  let result :=
    match verdict with
    | .found => .satisfiable sr.solver.solution
    | .exhausted => .unsatisfiable
    | .stopped => .unknown
  return (result, ← sr.restore)

end FiniteDomain
