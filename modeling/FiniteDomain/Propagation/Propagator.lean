import FiniteDomain.Propagation.Filtering
import FiniteDomain.Propagation.Queue
import FiniteDomain.Propagation.WatchList

/-! # Propagators

    A propagator enforces one constraint by narrowing the domains of the
    variables in its scope.  It is run once when it is posted (`initial`) and
    from then on for every event that it subscribed to (`propagate`).

    `Propagator P` says what a type `P` has to offer for its members to be run
    by a constraint space.  A call answers a `Pass`: the verdict, the store after
    the call, the propagator itself with whatever it wants to remember, and notes
    for an observer. -/

namespace FiniteDomain

/-- An observation that a propagator makes about its own run. -/
inductive Note where
  /-- The propagator is run for the first time. -/
  | posted (name : String)
  /-- The propagator is run for an event at a position of its scope. -/
  | woken (name : String) (position : LocalId) (event : Event)
  /-- A narrowing was tried: whether it changed anything, or nothing if a domain would have
      become empty. -/
  | narrowed (name : String) (changed : Option Bool)
  /-- A question was asked. -/
  | answered (name : String) (answer : Answer)
deriving Repr

/-- The wish to hear of the changes of one variable. -/
structure Watch where
  /-- The variable. -/
  target : VariableId
  /-- The kinds of change. -/
  events : EventSet
  /-- The position of the variable in the scope. -/
  position : LocalId
deriving DecidableEq, Repr

/-- Watches an integer variable: the variable of the store below it is watched, for the events
    by which the given ones are noticed. -/
def IntVar.watch (x : IntVar) (events : EventSet) (position : LocalId) : Watch :=
  ⟨.int x.base, x.watchedEvents events, position⟩

/-- The result of running a propagator once. -/
structure Pass (P : Type) where
  /-- The propagator after the call. -/
  self : P
  /-- Why the propagator gave up, if it did. -/
  refusal? : Option Refusal
  /-- The store after the call. -/
  store : Store
  /-- What the propagator wants to be noted, in order. -/
  notes : List Note

/-- A pass that runs a filter and leaves the propagator as it is. -/
def Pass.ofFilter {P : Type} (self : P) (program : Filtering Unit) (s : Store) :
    Except Fault (Pass P) := do
  let (verdict, store) ← program.runOn s
  match verdict with
  | .ok () => return { self, refusal? := none, store, notes := [] }
  | .error refusal => return { self, refusal? := some refusal, store, notes := [] }

/-- What the members of a type have to offer to be run as propagators. -/
class Propagator (P : Type) where
  /-- The name of the kind of propagator. -/
  name : P → String
  /-- How costly a call is. -/
  priority : P → Priority
  /-- The changes to be told about. -/
  watches : P → List Watch
  /-- The first run, over the whole scope. -/
  initial : P → Store → Except Fault (Pass P)
  /-- The run for an event at a position of the scope. -/
  propagate : P → LocalId → Event → Store → Except Fault (Pass P)
  /-- What is known about the contents that are left. -/
  entailment : P → Store → Except Fault Entailment

end FiniteDomain
