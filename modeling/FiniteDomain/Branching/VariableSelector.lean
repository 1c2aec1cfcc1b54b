import FiniteDomain.Branching.TieBreaker
import FiniteDomain.Random
import FiniteDomain.Variable

/-! # Choosing a variable

    A variable selector picks one of the variables that are not fixed, or none if
    all are. -/

namespace FiniteDomain

/-- A rule for choosing a variable. -/
inductive VariableSelector where
  /-- The first in the list. -/
  | inputOrder
  /-- One with the fewest values. -/
  | firstFail
  /-- One with the most values. -/
  | antiFirstFail
  /-- One with the least lower bound. -/
  | smallest
  /-- One with the greatest upper bound. -/
  | largest
  /-- The first from a position on, going round; the position moves behind it. -/
  | cyclic (position : Nat)
  /-- Any. -/
  | random
deriving DecidableEq, Repr, Inhabited

namespace VariableSelector

/-- The name of a rule. -/
def name : VariableSelector → String
  | .inputOrder => "InputOrder"
  | .firstFail => "FirstFail"
  | .antiFirstFail => "AntiFirstFail"
  | .smallest => "Smallest"
  | .largest => "Largest"
  | .cyclic _ => "Cyclic"
  | .random => "RandomSelector"

/-- A rule for a least key with a tie breaker of its own, which has to look for the minimum. -/
def withTieBreaker (selector : VariableSelector) (direction : Extremum) :
    Except Fault VariableSelector :=
  match direction with
  | .minimum => .ok selector
  | .maximum => .error (.tieBreakerDirection selector.name)

/-- The variables that are not fixed; all have to exist. -/
def openVariables (vars : List IntVar) (s : Store) : Except Fault (List IntVar) := do
  vars.forM fun x => s.require (.int x.base)
  return vars.filter fun x => !x.isFixed s

/-- The first position of the list whose variable is not fixed; the variables looked at have to
    exist. -/
def firstOpen? (s : Store) : List IntVar → Except Fault (Option Nat)
  | [] => return none
  | x :: rest => do
    s.require (.int x.base)
    if x.isFixed s then return (← firstOpen? s rest).map (· + 1) else return some 0

/-- Chooses a variable. -/
def select (selector : VariableSelector) (vars : List IntVar) (s : Store) (r : Random) :
    Except Fault (Option IntVar × VariableSelector × Random) := do
  match selector with
  | .inputOrder =>
    let position? ← firstOpen? s vars
    return (position?.bind (vars[·]?), selector, r)
  | .firstFail =>
    return (TieBreaker.choose .minimum (fun x => x.size s) (← openVariables vars s), selector, r)
  | .antiFirstFail =>
    return (TieBreaker.choose .maximum (fun x => x.size s) (← openVariables vars s), selector, r)
  | .smallest =>
    return (TieBreaker.choose .minimum (·.lowerBound s) (← openVariables vars s), selector, r)
  | .largest =>
    return (TieBreaker.choose .maximum (·.upperBound s) (← openVariables vars s), selector, r)
  | .cyclic position =>
    let turned := vars.drop position ++ vars.take position
    match ← firstOpen? s turned with
    | none => return (none, selector, r)
    | some i => return (turned[i]?, .cyclic ((position + i + 1) % vars.length), r)
  | .random =>
    let candidates ← openVariables vars s
    if candidates.isEmpty then return (none, selector, r)
    else
      let (i, r) := r.below candidates.length
      return (candidates[i]?, selector, r)

end VariableSelector

/-- Chooses a set that is not fixed, by the number of its undecided elements; all have to
    exist. -/
def selectSet? (direction : Extremum) (sets : List SetId) (s : Store) :
    Except Fault (Option SetId) := do
  sets.forM fun y => s.require (.set y)
  return TieBreaker.choose direction
    (fun y => ((s.set y).envelopeSize : Int) - (s.set y).kernelSize)
    (sets.filter fun y => !(s.set y).isFixed)

end FiniteDomain
