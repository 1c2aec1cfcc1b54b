import FiniteDomain.Branching.Brancher
import FiniteDomain.Names
import FiniteDomain.Propagation.Space
import FiniteDomain.Search.Measures

/-! # Solvers

    A solver is a constraint space with everything that a depth-first search over
    it keeps from one step to the next: the stage the search is in, the open
    levels, the decision that waits to be carried out, the state to go back to
    when the search is given up, and the bound that an optimisation has put on
    its objective.

    A level is opened by a branch.  It knows the checkpoint from which each of the
    alternatives starts, those that have been tried and those that remain. -/

namespace FiniteDomain

/-! ### Stages and levels -/

/-- What a search does next. -/
inductive Stage where
  /-- Ask the brancher for a branch. -/
  | select
  /-- Take the first alternative of a new level. -/
  | decide
  /-- Carry out the waiting decision and propagate. -/
  | propagate
  /-- Go back to the innermost level that has an alternative left. -/
  | backtrack
  /-- Report a solution. -/
  | solution
  /-- Nothing: the search space is exhausted. -/
  | done
deriving DecidableEq, Repr, Inhabited

/-- A branch that has been entered. -/
structure Level where
  /-- Where every alternative starts. -/
  checkpoint : Checkpoint
  /-- The alternatives taken so far, the latest first. -/
  taken : List Decision
  /-- The alternatives not taken yet. -/
  remaining : List Decision
deriving DecidableEq, Repr, Inhabited

namespace Level

/-- The level that a branch opens. -/
def ofBranch (checkpoint : Checkpoint) (branch : Branch) : Level :=
  ⟨checkpoint, [], branch.alternatives⟩

/-- The alternative that the search is in. -/
def current? (level : Level) : Option Decision := level.taken.head?

/-- Takes the next alternative, if there is one. -/
def advance? (level : Level) : Option (Decision × Level) :=
  match level.remaining with
  | [] => none
  | d :: rest => some (d, { level with taken := d :: level.taken, remaining := rest })

theorem current?_of_advance? {level next : Level} {d : Decision}
    (h : level.advance? = some (d, next)) : next.current? = some d := by
  unfold advance? at h
  split at h
  · cases h
  · cases h; rfl

end Level

/-- Where a search started. -/
structure Root where
  /-- The state to go back to. -/
  checkpoint : Checkpoint
  /-- An upper bound on the number of contents of the store. -/
  contents : Nat
deriving DecidableEq, Repr, Inhabited

/-! ### Observations -/

/-- Something that happens while a model is built or searched. -/
inductive Observation where
  /-- The limit was asked whether to stop, and answered. -/
  | polled (stop : Bool)
  /-- The limit was told of a decision. -/
  | decided
  /-- The limit was told of a contradiction. -/
  | failed
  /-- The limit was told of a solution. -/
  | found
  /-- The brancher was asked for a branch, and answered. -/
  | branched (branch? : Option Branch)
  /-- The brancher was told that the search goes back. -/
  | wentBack
  /-- The brancher was told of a solution. -/
  | reported
  /-- No alternative is left. -/
  | exhausted
  /-- Posting a propagator has ended in a contradiction. -/
  | postingRefused (c : Contradiction)
  /-- Narrowing a domain before the search has ended in a contradiction. -/
  | narrowingRefused (c : Contradiction)
deriving DecidableEq, Repr, Inhabited

/-- The wording of an observation that is told to the user. -/
def Observation.message? : Observation → Option String
  | .exhausted => some "The search space has been exhausted"
  | .postingRefused c => some s!"The model is infeasible at the root: {c.message}"
  | .narrowingRefused c =>
    some s!"Narrowing a domain at the root led to a contradiction: {c.message}"
  | _ => none

/-! ### The solver -/

/-- A constraint space with the state of a search over it. -/
structure Solver (P : Type) where
  /-- The domains and the propagators. -/
  space : Space P
  /-- The names of the variables. -/
  names : Names
  /-- Where random draws come from. -/
  random : Random
  /-- The model has been found to have no solution. -/
  infeasible : Bool
  /-- The counters. -/
  measures : Measures
  /-- What the search does next. -/
  stage : Stage
  /-- The open levels, the innermost first. -/
  levels : List Level
  /-- The decision to be carried out next. -/
  decision? : Option Decision
  /-- Where the search in progress started. -/
  root? : Option Root
  /-- What an optimisation demands of every further solution. -/
  cut? : Option Predicate
  /-- What has happened so far. -/
  history : Array Observation
deriving Inhabited

namespace Solver

variable {P : Type}

/-- The solver without variables that draws from the given source. -/
def empty (random : Random) : Solver P :=
  { space := Space.empty, names := Names.empty, random, infeasible := false
    measures := Measures.zero, stage := .select, levels := [], decision? := none
    root? := none, cut? := none, history := #[] }

/-- The solver without variables that draws from the generator for a seed. -/
def ofSeed (seed : UInt64) : Solver P := empty (Random.ofSeed seed)

/-- The domains. -/
def store (sv : Solver P) : Store := sv.space.store

/-- Notes that something has happened. -/
def observe (sv : Solver P) (o : Observation) : Solver P :=
  { sv with history := sv.history.push o }

/-- Forgets what has happened. -/
def clearHistory (sv : Solver P) : Solver P := { sv with history := #[] }

/-- A search is in progress. -/
def isSearching (sv : Solver P) : Bool := sv.root?.isSome

/-- An upper bound on the number of contents of the store where the search in progress started,
    or of the present one. -/
def rootContents (sv : Solver P) : Nat := sv.root?.elim sv.store.contents Root.contents

/-- The solver at the beginning of a search; a search in progress is continued. -/
def enter (sv : Solver P) : Solver P :=
  match sv.root? with
  | some _ => sv
  | none => { sv with root? := some ⟨sv.store.checkpoint, sv.store.contents⟩, stage := .propagate }

/-- The narrowings to be carried out at the waiting decision: those of the decision, then the
    demand of the optimisation. -/
def requests (sv : Solver P) : List Narrowing :=
  (sv.decision?.map Decision.request).toList ++ (sv.cut?.map Narrowing.impose).toList

/-- Demands something of every further solution. -/
def setCut (sv : Solver P) (p : Predicate) : Solver P := { sv with cut? := some p }

/-- The counters of solver and space with their names, in the order in which they are
    reported. -/
def statistics (sv : Solver P) : List (String × Nat) :=
  sv.measures.statistics ++ sv.space.statistics (.ofParts ["engine"])

end Solver

end FiniteDomain
