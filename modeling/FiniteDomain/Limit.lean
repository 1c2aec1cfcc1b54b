/-! # Limits of a search

    A search polls its limit whenever it is about to choose a branch or to go
    back, and stops if the limit says so.  The limit is told of every decision,
    conflict and solution.  `Termination T` says what a type has to offer for its
    members to be used as limits; `Limit` is the type of the limits of the
    library.

    No time passes in a pure computation, so a time budget is used up if and only
    if it is zero. -/

namespace FiniteDomain

/-- What the members of a type have to offer to be used as limits. -/
class Termination (T : Type) where
  /-- Whether the search has to stop; asking may change the limit. -/
  shouldStop : T → Bool × T
  /-- A decision is carried out. -/
  onDecision : T → T
  /-- A contradiction was met. -/
  onConflict : T → T
  /-- A solution was found. -/
  onSolution : T → T

/-- A limit of the library. -/
inductive Limit where
  /-- Never stops. -/
  | indefinite
  /-- Stops after a number of decisions. -/
  | nodes (budget used : Nat)
  /-- Stops after a number of contradictions. -/
  | fails (budget used : Nat)
  /-- Stops after a number of solutions. -/
  | solutions (budget used : Nat)
  /-- Stops after a time in milliseconds. -/
  | time (milliseconds : Nat)
  /-- Stops as soon as one of two limits does. -/
  | either (first second : Limit)
  /-- Stops if there is a limit and that stops. -/
  | optional (limit? : Option Limit)
  /-- Stops at the polls with the listed numbers, counted from one. -/
  | polls (stops : List Nat) (polled : Nat)
deriving Repr, Inhabited

namespace Limit

/-- The limit that allows a number of decisions. -/
def ofNodes (budget : Nat) : Limit := .nodes budget 0

/-- The limit that allows a number of contradictions. -/
def ofFails (budget : Nat) : Limit := .fails budget 0

/-- The limit that allows a number of solutions. -/
def ofSolutions (budget : Nat) : Limit := .solutions budget 0

/-- Whether the search has to stop; of two limits the second is asked only if the first does not
    stop. -/
def shouldStop : Limit → Bool × Limit
  | .indefinite => (false, .indefinite)
  | .nodes budget used => (decide (budget ≤ used), .nodes budget used)
  | .fails budget used => (decide (budget ≤ used), .fails budget used)
  | .solutions budget used => (decide (budget ≤ used), .solutions budget used)
  | .time milliseconds => (milliseconds == 0, .time milliseconds)
  | .either first second =>
    let (stop, first) := first.shouldStop
    if stop then (true, .either first second)
    else
      let (stop, second) := second.shouldStop
      (stop, .either first second)
  | .optional none => (false, .optional none)
  | .optional (some limit) =>
    let (stop, limit) := limit.shouldStop
    (stop, .optional (some limit))
  | .polls stops polled => (stops.contains (polled + 1), .polls stops (polled + 1))

/-- The limit after a decision. -/
def onDecision : Limit → Limit
  | .nodes budget used => .nodes budget (used + 1)
  | .either first second => .either first.onDecision second.onDecision
  | .optional (some limit) => .optional (some limit.onDecision)
  | limit => limit

/-- The limit after a contradiction. -/
def onConflict : Limit → Limit
  | .fails budget used => .fails budget (used + 1)
  | .either first second => .either first.onConflict second.onConflict
  | .optional (some limit) => .optional (some limit.onConflict)
  | limit => limit

/-- The limit after a solution. -/
def onSolution : Limit → Limit
  | .solutions budget used => .solutions budget (used + 1)
  | .either first second => .either first.onSolution second.onSolution
  | .optional (some limit) => .optional (some limit.onSolution)
  | limit => limit

instance : Termination Limit where
  shouldStop := shouldStop
  onDecision := onDecision
  onConflict := onConflict
  onSolution := onSolution

end Limit

end FiniteDomain
