import FiniteDomain.Limit
import FiniteDomain.Search.Solver

/-! # Depth-first search

    A search takes a solver, a brancher and a limit through the stages of a
    depth-first search.  `Search.step` is one of its transitions, `Search.solve`
    runs it until a solution is found, the search space is exhausted or the limit
    stops it.  A search that has stopped stays where it is and can be continued;
    `Search.restore` gives it up.

    After a solution the search goes on with the next alternative, so calling
    `solve` again and again enumerates the solutions. -/

namespace FiniteDomain

/-- Why a search has stopped. -/
inductive Verdict where
  /-- A solution was found: the domains of the solver. -/
  | found
  /-- There is no further solution. -/
  | exhausted
  /-- The limit has stopped the search. -/
  | stopped
deriving DecidableEq, Repr, Inhabited

/-- A solver with a brancher and a limit. -/
structure Search (P B T : Type) where
  /-- The solver. -/
  solver : Solver P
  /-- Where branches come from. -/
  brancher : B
  /-- When to stop. -/
  limit : T

namespace Search

variable {P B T : Type}

/-- The search with its solver changed. -/
def update (sr : Search P B T) (change : Solver P → Solver P) : Search P B T :=
  { sr with solver := change sr.solver }

variable [Propagator P] [Brancher B] [Termination T]

/-! ### Transitions -/

/-- Asks the limit whether to stop. -/
def poll (sr : Search P B T) : Bool × Search P B T :=
  let (stop, limit) := Termination.shouldStop sr.limit
  (stop, { sr with limit, solver := sr.solver.observe (.polled stop) })

/-- Asks the brancher for a branch: it opens a level; if there is none, a solution is found. -/
def select (sr : Search P B T) : Except Fault (Search P B T) := do
  let { solver, brancher, limit } := sr
  let (branch?, brancher, random) ← Brancher.next brancher solver.store solver.random
  let solver := { solver with random }.observe (.branched branch?)
  match branch? with
  | some branch =>
    let level := Level.ofBranch solver.store.checkpoint branch
    return { solver := { solver with levels := level :: solver.levels, stage := .decide }
             brancher, limit }
  | none => return { solver := { solver with stage := .solution }, brancher, limit }

/-- Takes the first alternative of the innermost level. -/
def decide (sr : Search P B T) : Search P B T :=
  sr.update fun sv =>
    let depth := max sv.measures.peakDepth sv.levels.length
    let sv := { sv with measures := { sv.measures with peakDepth := depth }, stage := .propagate }
    match sv.levels with
    | [] => { sv with decision? := none }
    | level :: outer =>
      match level.advance? with
      | none => { sv with decision? := none }
      | some (d, level) => { sv with levels := level :: outer, decision? := some d }

/-- Counts the waiting decision and tells the limit of it. -/
def announce (sr : Search P B T) : Search P B T :=
  match sr.solver.decision? with
  | none => sr
  | some _ =>
    { sr with
      limit := Termination.onDecision sr.limit
      solver :=
        { sr.solver with
          measures := { sr.solver.measures with nodes := sr.solver.measures.nodes + 1 } }.observe
            .decided }

/-- Carries out the waiting decision and propagates; a contradiction sends the search back. -/
def propagate (sr : Search P B T) : Except Fault (Search P B T) := do
  let { solver, brancher, limit } := sr.announce
  let requests := solver.requests
  let (contradiction?, space) ← solver.space.settle requests
  let solver := { solver with space, decision? := none }
  match contradiction? with
  | none => return { solver := { solver with stage := .select }, brancher, limit }
  | some _ =>
    let measures := { solver.measures with fails := solver.measures.fails + 1 }
    return { solver := { solver with measures, stage := .backtrack }.observe .failed
             brancher, limit := Termination.onConflict limit }

/-- Goes back from level to level until one has an alternative left, and takes it; if none
    has, the search space is exhausted. -/
def retreat (sr : Search P B T) : List Level → Except Fault (Search P B T)
  | [] => return sr.update fun sv => { sv with levels := [], stage := .done }.observe .exhausted
  | level :: outer => do
    let { solver, brancher, limit } := sr
    let space ← solver.space.backtrackTo level.checkpoint
    let solver := { solver with space }.observe .wentBack
    let sr : Search P B T := { solver, brancher := Brancher.onBacktrack brancher, limit }
    match level.advance? with
    | some (d, level) =>
      return sr.update fun sv =>
        { sv with levels := level :: outer, decision? := some d, stage := .propagate }
    | none => retreat sr outer

/-- Goes back to the innermost level that has an alternative left. -/
def backtrack (sr : Search P B T) : Except Fault (Search P B T) :=
  let sr := sr.update fun sv =>
    { sv with measures := { sv.measures with backtracks := sv.measures.backtracks + 1 } }
  sr.retreat sr.solver.levels

/-- Counts the solution and tells limit and brancher of it; the search goes back next. -/
def report (sr : Search P B T) : Search P B T :=
  let measures := { sr.solver.measures with solutions := sr.solver.measures.solutions + 1 }
  { solver := ({ sr.solver with measures, stage := .backtrack }.observe .found).observe .reported
    brancher := Brancher.onSolution sr.brancher sr.solver.store
    limit := Termination.onSolution sr.limit }

/-- One transition; a verdict if the search stops here. -/
def step (sr : Search P B T) : Except Fault (Option Verdict × Search P B T) := do
  match sr.solver.stage with
  | .select =>
    let (stop, sr) := sr.poll
    if stop then return (some .stopped, sr) else return (none, ← sr.select)
  | .decide => return (none, sr.decide)
  | .propagate => return (none, ← sr.propagate)
  | .backtrack =>
    let (stop, sr) := sr.poll
    if stop then return (some .stopped, sr) else return (none, ← sr.backtrack)
  | .solution => return (some .found, sr.report)
  | .done => return (some .exhausted, sr)

/-! ### Runs -/

/-- Makes transitions until the search stops, at most `fuel` of them. -/
def run : (fuel : Nat) → Search P B T → Except Fault (Verdict × Search P B T)
  | 0, _ => throw .outOfFuel
  | fuel + 1, sr => do
    let (verdict?, sr) ← sr.step
    match verdict? with
    | some verdict => return (verdict, sr)
    | none => run fuel sr

/-- How many transitions a search may make beyond those that its domains account for; it
    matters only for branches that leave the domains as they are, with a limit that stops
    the search. -/
def patience : Nat := 1 <<< 60

/-- More than the number of transitions of a search from its root on.  The alternatives
    of a branch share out the contents of the store, so the search tree has at most twice as
    many nodes as there are contents; each takes a few transitions. -/
def stepBound (sr : Search P B T) : Nat :=
  8 * (sr.solver.rootContents + 1) * Brancher.excess sr.brancher + 8 + patience

/-- Searches for the next solution; a model known to have none is not searched. -/
def solve (sr : Search P B T) : Except Fault (Verdict × Search P B T) :=
  if sr.solver.infeasible then return (.exhausted, sr)
  else
    (sr.update Solver.enter).run sr.stepBound

/-- Gives the search up: the domains are those before it. -/
def restore (sr : Search P B T) : Except Fault (Search P B T) := do
  let { solver, brancher, limit } := sr
  let (solver, brancher) ←
    match solver.root? with
    | none => pure (solver, brancher)
    | some root => do
      let space ← solver.space.backtrackTo root.checkpoint
      pure ({ solver with space }.observe .wentBack, Brancher.onBacktrack brancher)
  return { solver := { solver with root? := none, levels := [], decision? := none, cut? := none
                                   stage := .select }
           brancher, limit }

end Search

end FiniteDomain
