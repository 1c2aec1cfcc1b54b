import FiniteDomain.Problem.Instance

/-! # Queens

    One queen in each row of a square board, no two in the same column or on the
    same diagonal.  The variable of a row is the column of its queen; two queens
    share a diagonal iff the sums, or the differences, of column and row agree. -/

namespace FiniteDomain.Queens

variable {P : Type} [HasFilters P]

/-- The columns, each shifted by a multiple of its row. -/
def diagonal (slope : Int) (queens : List IntVar) : Except Fault (List IntVar) :=
  queens.zipIdx.mapM fun (x, row) => x.shifted (slope * row)

/-- The model of a board: columns from zero to the greatest. -/
def model (size : Nat) (greatest : Int) (strength : Strength) : Modelling P Instance := do
  let queens ← Modelling.newRow "q" 0 greatest size 0
  let ascending ← Modelling.checked (diagonal 1 queens)
  let descending ← Modelling.checked (diagonal (-1) queens)
  Constraint.post (.allDifferent queens strength)
  Constraint.post (.allDifferent ascending strength)
  Constraint.post (.allDifferent descending strength)
  return { outputs := [.values "q" queens]
           strategy := .sequence [.variables .firstFail queens .min] 0
           objective? := queens.head? }

end FiniteDomain.Queens
