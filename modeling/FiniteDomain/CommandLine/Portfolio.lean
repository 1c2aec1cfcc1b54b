import FiniteDomain.CommandLine.Session

/-! # Portfolios

    A portfolio lets several workers solve the same problem, each with draws of
    its own.  The first worker searches as a single solver would, the others at
    random.  The first result that settles the problem is written and stops the
    others; if none does, the best solution found is written.

    The workers take turns here in the order of their numbers, which is one of the
    orders in which they may finish. -/

namespace FiniteDomain.CommandLine

/-- What a worker has to report if nobody settles the problem. -/
structure WorkerReport where
  /-- The number of the worker. -/
  worker : Nat
  /-- The best solution with its value, if one was found. -/
  best? : Option (Int × List String)
  /-- The counters of its search. -/
  measures : Measures

/-- The result of a worker: lines that settle the problem, or a report. -/
inductive WorkerResult where
  /-- The problem is settled. -/
  | settled (lines : List String)
  /-- It is not. -/
  | open (report : WorkerReport)

/-- The limit of a worker: nothing is left to do once the problem is settled. -/
def workerLimit (args : Arguments) (settled : Bool) : Limit :=
  .either (.optional (if settled then some (.time 0) else none)) (timeLimit args)

/-- The strategy of a worker. -/
def workerStrategy (args : Arguments) (worker : Nat) (inst : Instance) (s : Store) : Strategy :=
  if worker = 0 then (if args.has .freeSearch then .standard s else inst.strategy)
  else .randomised s

/-- Looks for a solution. -/
def workForOne (args : Arguments) (worker : Nat) (inst : Instance)
    (sr : Search Filter Strategy Limit) : Console WorkerResult := do
  let (result, sr) ← Console.checked sr.satisfy
  Console.observations args sr.solver
  let statistics := Console.statisticsLines args (Console.statisticsOf none sr.solver)
  match result with
  | .satisfiable sol =>
    return .settled ((← Console.checked (solutionLines inst sol)) ++ statistics)
  | .unsatisfiable => return .settled (unsatisfiableLine :: statistics)
  | .unknown => return .open ⟨worker, none, sr.solver.measures⟩

/-- Looks for a best solution. -/
def workForBest (args : Arguments) (worker : Nat) (inst : Instance) (goal : Goal)
    (objective : IntVar) (sr : Search Filter Strategy Limit) : Console WorkerResult := do
  let account (_ : Solver Filter) (sol : Solution) : Except Fault String := do
    return s!"Worker {worker} found a solution with objective value {← sol.value objective}"
  let (result, accounts, sr) ← Console.checked (sr.optimise goal objective fun sv sol => do
    return [s!"Found a solution with objective value {← sol.value objective}", ← account sv sol])
  accounts.flatten.forM (Console.detail args)
  Console.observations args sr.solver
  match result with
  | .optimal sol =>
    let value ← Console.checked (sol.value objective)
    let statistics := Console.statisticsLines args (Console.statisticsOf (some value) sr.solver)
    return .settled ((← Console.checked (solutionLines inst sol)) ++ completeLine :: statistics)
  | .satisfiable sol =>
    let value ← Console.checked (sol.value objective)
    let lines ← Console.checked (solutionLines inst sol)
    return .open ⟨worker, some (value, lines), sr.solver.measures⟩
  | .unsatisfiable =>
    return .settled (unsatisfiableLine
      :: Console.statisticsLines args (Console.statisticsOf none sr.solver))
  | .unknown => return .open ⟨worker, none, sr.solver.measures⟩

/-- Lets a worker do its part. -/
def work (problem : Problem) (args : Arguments) (settled : Bool) (worker : Nat) :
    Console WorkerResult := do
  let (instance?, solver) ← build problem args (Solver.ofSeed (args.seed + UInt64.ofNat worker))
  match instance? with
  | none =>
    return .settled (unsatisfiableLine
      :: Console.statisticsLines args (Console.statisticsOf none solver))
  | some inst =>
    let brancher := workerStrategy args worker inst solver.store
    let sr : Search Filter Strategy Limit := { solver, brancher, limit := workerLimit args settled }
    match args.goal?, inst.objective? with
    | none, _ => workForOne args worker inst sr
    | some goal, some objective => workForBest args worker inst goal objective sr
    | some _, none => throw (.noObjective problem)

/-- Lets the workers do their parts in turn; the first result that settles the problem is
    written at once.  Answers whether there was one, and the reports. -/
def workAll (problem : Problem) (args : Arguments) :
    List Nat → (settled : Bool) → Console (Bool × List WorkerReport)
  | [], settled => return (settled, [])
  | worker :: rest, settled => do
    match ← work problem args settled worker with
    | .settled lines =>
      if settled then pure () else Console.lines lines
      workAll problem args rest true
    | .open report =>
      let (settled, reports) ← workAll problem args rest settled
      return (settled, report :: reports)

/-- The report with the best solution, the first of several. -/
def bestReport? (goal? : Option Goal) (reports : List WorkerReport) :
    Option (WorkerReport × Int × List String) :=
  let factor := (goal?.getD .minimise).factor
  let candidates := reports.filterMap fun r => r.best?.map fun best => (r, best)
  TieBreaker.choose .minimum (fun (_, value, _) => factor * value) candidates

/-- The statistics of a report. -/
def reportStatistics (r : WorkerReport) : List (String × String) :=
  (r.best?.map fun (value, _) => ("objective", toString value)).toList
    ++ ("worker", toString r.worker) :: Console.counters r.measures.statistics

/-- Solves the problem with several workers. -/
def solveTogether (problem : Problem) (args : Arguments) : Console Unit := do
  let (settled, reports) ← workAll problem args (List.range args.workers) false
  if settled then pure ()
  else
    match bestReport? args.goal? reports, reports.head? with
    | some (report, _, lines), _ =>
      Console.detail args s!"Reporting the best solution, found by worker {report.worker}"
      Console.lines (lines ++ Console.statisticsLines args (reportStatistics report))
    | none, first? =>
      Console.line unknownLine
      match first? with
      | some report => Console.lines (Console.statisticsLines args (reportStatistics report))
      | none => pure ()

end FiniteDomain.CommandLine
