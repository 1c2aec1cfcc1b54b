import FiniteDomain.Model.Constraint
import FiniteDomain.Search.Solution

/-! # Instances of problems

    An instance is what a model of a problem hands out once it has been built:
    how its solutions are written, which strategy suits it, and the variable that
    can serve as an objective. -/

namespace FiniteDomain

/-- A part of a written solution. -/
inductive Output where
  /-- The values of a list of variables. -/
  | values (name : String) (vars : List IntVar)
  /-- The nodes of a path from a source along the arcs of a graph. -/
  | path (name : String) (g : GraphId) (source : Nat)
deriving Repr, Inhabited

namespace Output

/-- The nodes that are reached from a node along the first arc that leaves each, in at most
    `steps` steps. -/
def follow (arcs : List (Nat × Nat)) : (steps : Nat) → (current : Nat) → List Nat
  | 0, _ => []
  | steps + 1, current =>
    match arcs.find? (·.1 == current) with
    | some (_, next) => next :: follow arcs steps next
    | none => []

/-- Writes a list after a name. -/
def listing {α : Type} [ToString α] (name : String) (members : List α) : String :=
  name ++ " = [" ++ String.intercalate ", " (members.map toString) ++ "];"

/-- The part of a solution in text form. -/
def text (sol : Solution) : Output → Except Fault String
  | .values name vars => return listing name (← vars.mapM sol.value)
  | .path name g source =>
    let arcs := sol.arcs g
    return listing name (source :: follow arcs arcs.length source)

end Output

/-- A model of a problem that has been built. -/
structure Instance where
  /-- How solutions are written. -/
  outputs : List Output
  /-- A strategy that suits the problem. -/
  strategy : Strategy
  /-- The variable that can be optimised. -/
  objective? : Option IntVar
deriving Inhabited

/-- The lines of a solution. -/
def Instance.lines (inst : Instance) (sol : Solution) : Except Fault (List String) :=
  inst.outputs.mapM (·.text sol)

end FiniteDomain
