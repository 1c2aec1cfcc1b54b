import FiniteDomain.CommandLine.Console
import FiniteDomain.Search.SolutionStream

/-! # Sessions

    A session builds the model of a problem and solves it as the arguments ask
    for: one solution, all solutions or a best one. -/

namespace FiniteDomain.CommandLine

/-- What is written if the limit has stopped the search before a solution was found. -/
def unknownLine : String := "=====UNKNOWN====="

/-- What is written if there is no solution. -/
def unsatisfiableLine : String := "=====UNSATISFIABLE====="

/-- What follows a solution. -/
def separatorLine : String := "----------"

/-- What follows the last solution, or a best one. -/
def completeLine : String := "=========="

/-- The lines of a solution with the separator. -/
def solutionLines (inst : Instance) (sol : Solution) : Except Fault (List String) := do
  return (← inst.lines sol) ++ [separatorLine]

/-- Builds the model; none if it has no solution. -/
def build (problem : Problem) (args : Arguments) (sv : Solver Filter) :
    Console (Option Instance × Solver Filter) := do
  let (result, sv) ← Console.checked ((problem.model args.size args.strength).runOn sv)
  Console.observations args sv
  let sv := sv.clearHistory
  match result with
  | .ok inst => return (some inst, sv)
  | .error .infeasibleAddition | .error .infeasibleModel =>
    Console.detail args s!"The model {problem.name} is infeasible at the root"
    return (none, sv)
  | .error e => throw (.invalidModel e)

/-- The limit of a time in milliseconds, if there is one. -/
def timeLimit (args : Arguments) : Limit := .optional (args.timeLimit?.map .time)

/-- Writes one solution. -/
def writeOne (args : Arguments) (inst : Instance) (sr : Search Filter Strategy Limit) :
    Console Unit := do
  let (result, sr) ← Console.checked sr.satisfy
  Console.observations args sr.solver
  let statistics := Console.statisticsLines args (Console.statisticsOf none sr.solver)
  match result with
  | .satisfiable sol => do
    Console.lines statistics
    Console.lines (← Console.checked (solutionLines inst sol))
  | .unsatisfiable => Console.lines (unsatisfiableLine :: statistics)
  | .unknown => Console.lines (unknownLine :: statistics)

/-- Writes all solutions. -/
def writeAll (args : Arguments) (inst : Instance) (sr : Search Filter Strategy Limit) :
    Console Unit := do
  let (solutions, last, stream) ← Console.checked (SolutionStream.ofSearch sr).toList
  solutions.forM fun sol => do Console.lines (← Console.checked (solutionLines inst sol))
  let sr ← Console.checked stream.close
  Console.observations args sr.solver
  match last with
  | .finished => Console.line completeLine
  | .unsatisfiable => Console.line unsatisfiableLine
  | _ => pure ()
  Console.lines (Console.statisticsLines args (Console.statisticsOf none sr.solver))

/-- What is written when an optimisation finds a solution. -/
def improvementLines (args : Arguments) (inst : Instance) (objective : IntVar)
    (sv : Solver Filter) (sol : Solution) : Except Fault (List String) := do
  let value ← sol.value objective
  let message :=
    if args.has .verbose then [s!"% Found a solution with objective value {value}"] else []
  if args.has .allSolutions then
    return message ++ Console.statisticsLines args (Console.statisticsOf (some value) sv)
      ++ (← solutionLines inst sol)
  else return message

/-- Writes a best solution, or all those found on the way to it. -/
def writeBest (args : Arguments) (inst : Instance) (goal : Goal) (objective : IntVar)
    (sr : Search Filter Strategy Limit) : Console Unit := do
  let (result, accounts, sr) ←
    Console.checked (sr.optimise goal objective (improvementLines args inst objective))
  Console.lines accounts.flatten
  Console.observations args sr.solver
  let last (sol : Solution) : Console Unit := do
    if args.has .allSolutions then pure ()
    else Console.lines (← Console.checked (solutionLines inst sol))
  match result with
  | .optimal sol =>
    last sol
    Console.line completeLine
  | .satisfiable sol => last sol
  | .unsatisfiable => Console.line unsatisfiableLine
  | .unknown => Console.line unknownLine
  Console.lines (Console.statisticsLines args (Console.statisticsOf none sr.solver))

/-- Solves the problem with one solver. -/
def solve (problem : Problem) (args : Arguments) : Console Unit := do
  let (instance?, solver) ← build problem args (Solver.ofSeed args.seed)
  match instance? with
  | none =>
    Console.line unsatisfiableLine
    Console.lines (Console.statisticsLines args (Console.statisticsOf none solver))
  | some inst =>
    let brancher :=
      if args.has .freeSearch then Strategy.standard solver.store else inst.strategy
    let sr : Search Filter Strategy Limit := { solver, brancher, limit := timeLimit args }
    match args.goal?, inst.objective? with
    | none, _ => if args.has .allSolutions then writeAll args inst sr else writeOne args inst sr
    | some goal, some objective => writeBest args inst goal objective sr
    | some _, none => throw (.noObjective problem)

end FiniteDomain.CommandLine
