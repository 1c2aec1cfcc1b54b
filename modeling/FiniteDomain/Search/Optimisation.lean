import FiniteDomain.Search.Solution

/-! # Branch and bound

    Optimisation is one depth-first search in which every solution found puts a
    bound on the objective: from then on only better solutions are looked for.
    The last solution found is a best one once the search space is exhausted.

    The search minimises; a variable to be maximised is negated. -/

namespace FiniteDomain

/-- Whether the objective is to be made great or small. -/
inductive Goal where
  /-- As great as possible. -/
  | maximise
  /-- As small as possible. -/
  | minimise
deriving DecidableEq, Repr

namespace Goal

instance : Inhabited Goal := ⟨.minimise⟩

/-- The name of a goal. -/
def name : Goal → String
  | .maximise => "maximise"
  | .minimise => "minimise"

/-- The factor that turns the objective into one to be minimised. -/
def factor : Goal → Int
  | .maximise => -1
  | .minimise => 1

/-- The value `a` of the objective is better than the value `b`. -/
def Better (goal : Goal) (a b : Int) : Prop := goal.factor * a < goal.factor * b

end Goal

/-- The result of an optimisation. -/
inductive Optimisation where
  /-- No solution is better. -/
  | optimal (sol : Solution)
  /-- The best solution found before the limit stopped the search. -/
  | satisfiable (sol : Solution)
  /-- There is no solution. -/
  | unsatisfiable
  /-- The limit has stopped the search before a solution was found. -/
  | unknown
deriving Repr, Inhabited

namespace Search

variable {P B T α : Type} [Propagator P] [Brancher B] [Termination T]

/-- Looks for better and better solutions, at most `fuel` of them; the account given of each is
    collected, the latest first. -/
def improve (objective : IntVar) (account : Solver P → Solution → Except Fault α) :
    (fuel : Nat) → (best? : Option Solution) → (accounts : List α) → Search P B T →
      Except Fault (Optimisation × List α × Search P B T)
  | 0, _, _, _ => throw .outOfFuel
  | fuel + 1, best?, accounts, sr => do
    let (verdict, sr) ← sr.solve
    match verdict with
    | .found =>
      let sol := sr.solver.solution
      let accounts := (← account sr.solver sol) :: accounts
      let bound := (← sol.value objective) - 1
      if Width.value.Fits bound then
        improve objective account fuel (some sol) accounts
          (sr.update (·.setCut (objective.atMost bound)))
      else return (.optimal sol, accounts, sr)
    | .exhausted => return (best?.elim .unsatisfiable .optimal, accounts, sr)
    | .stopped => return (best?.elim .unknown .satisfiable, accounts, sr)

/-- Looks for a solution with the best value of the objective and goes back to the root.  Of
    every solution found, each better than the one before, an account is given; the accounts
    are answered in order. -/
def optimise (goal : Goal) (objective : IntVar)
    (account : Solver P → Solution → Except Fault α) (sr : Search P B T) :
    Except Fault (Optimisation × List α × Search P B T) := do
  let objective ← objective.scaled goal.factor
  let (result, accounts, sr) ← sr.improve objective account sr.stepBound none []
  return (result, accounts.reverse, ← sr.restore)

end Search

end FiniteDomain
