import FiniteDomain.Problem.Instance

/-! # Paths over all nodes

    A path from the first node of a complete graph to the last one that visits
    every node once. -/

namespace FiniteDomain.HamiltonianPath

variable {P : Type} [HasFilters P]

/-- The model of a number of nodes. -/
def model (size : Nat) : Modelling P Instance := do
  let g ← Modelling.newCompleteGraph size (some "path")
  Constraint.post (.hamiltonianPath g 0 (size - 1))
  return { outputs := [.path "path" g 0]
           strategy := .sequence [.arcs g (.pathExtension 0)] 0
           objective? := none }

end FiniteDomain.HamiltonianPath
