import FiniteDomain.Problem.Instance

/-! # A chain of inequalities

    As many variables as there are values, each at most the next, and all
    different.  The values in ascending order are the only solution. -/

namespace FiniteDomain.Chain

variable {P : Type} [HasFilters P]

/-- The model of a size: variables with values below the size. -/
def model (size : Nat) (greatest : Int) (strength : Strength) : Modelling P Instance := do
  let vars ← Modelling.newRow "v" 0 greatest size 0
  (vars.zip vars.tail).forM fun (a, b) => Constraint.post (.atMost a b)
  Constraint.post (.allDifferent vars strength)
  return { outputs := [.values "v" vars]
           strategy := .sequence [.variables .inputOrder vars .min] 0
           objective? := vars.getLast? }

end FiniteDomain.Chain
