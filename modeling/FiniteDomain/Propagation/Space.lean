import FiniteDomain.Propagation.Propagator
import FiniteDomain.Statistics

/-! # Constraint spaces

    A constraint space is a store together with the propagators posted on it.
    `Space.propagate` runs propagators until none of them has an event to react
    to or one of them finds a contradiction.

    An event of the store wakes the scope positions that subscribed to it: each
    gets the event into the list of its propagator, and the propagator joins the
    queue.  The propagator at the head of the queue is run once for every event
    in its list; after each run the events that it raised itself are dispatched.
    A propagator whose constraint is found to hold for all contents that are left
    becomes passive and is not woken any more until the store goes back behind
    that point. -/

namespace FiniteDomain

/-! ### State -/

/-- Why a space has no solution. -/
inductive Contradiction where
  /-- A domain would have become empty. -/
  | emptyDomain
  /-- A propagator has found that its constraint cannot be satisfied. -/
  | propagator (p : PropagatorId)
deriving DecidableEq, Repr, Inhabited

/-- The wording of a contradiction. -/
def Contradiction.message : Contradiction → String
  | .emptyDomain => "a domain became empty"
  | .propagator p => s!"propagator {p} detected an inconsistency"

/-- The contradiction that the refusal of a propagator stands for. -/
def Refusal.contradiction (p : PropagatorId) : Refusal → Contradiction
  | .emptyDomain => .emptyDomain
  | .inconsistent => .propagator p

/-- What a space is doing. -/
inductive Phase where
  /-- Nothing. -/
  | idle
  /-- Running propagators. -/
  | propagating
  /-- It has met a contradiction. -/
  | failed
deriving DecidableEq, Repr, Inhabited

/-- A posted propagator. -/
structure Posted (P : Type) where
  /-- The propagator. -/
  propagator : P
  /-- The events it has not been run for, oldest first. -/
  pending : List (LocalId × Event)
deriving Inhabited

/-- A store with propagators. -/
structure Space (P : Type) where
  /-- The domains. -/
  store : Store
  /-- The posted propagators. -/
  posted : Table (Posted P)
  /-- Who is to be told of which change. -/
  watchList : WatchList
  /-- The propagators that have pending events. -/
  queue : Queue
  /-- What the space is doing. -/
  phase : Phase
  /-- How often a propagator was run. -/
  calls : Nat
  /-- How often a propagator refused. -/
  failures : Nat
  /-- How often a propagator became passive. -/
  passivations : Nat
  /-- The notes of the propagators, in order. -/
  journal : Array Note
deriving Inhabited

namespace Space

variable {P : Type}

/-- The space without variables and propagators. -/
def empty : Space P :=
  { store := Store.empty, posted := Table.empty, watchList := WatchList.empty
    queue := Queue.empty, phase := .idle, calls := 0, failures := 0, passivations := 0
    journal := #[] }

/-! ### Events -/

/-- Takes all pending events away. -/
def clearPending (sp : Space P) : Space P :=
  { sp with queue := sp.queue.clear, posted := sp.posted.map ({ · with pending := [] }) }

/-- Tells that the search has gone back: whatever was pending is void. -/
def notifyBacktrack (sp : Space P) : Space P := { sp.clearPending with phase := .idle }

/-- Drops the events that wait in the store. -/
def dropEvents (sp : Space P) : Space P := { sp with store := sp.store.dropEvents }

/-- Goes back to a checkpoint of the store. -/
def backtrackTo (sp : Space P) (c : Checkpoint) : Except Fault (Space P) := do
  let store ← sp.store.undoTo c
  return { sp with store }.notifyBacktrack

/-- A contradiction was met: whatever is pending is void. -/
def fail (sp : Space P) : Space P :=
  { sp.clearPending.dropEvents with failures := sp.failures + 1, phase := .failed }

variable [Propagator P]

/-- Gives an event to a scope position, unless its propagator is passive. -/
def wake (sp : Space P) (e : Event) (position : ScopePosition) : Space P :=
  let id := position.propagator
  match sp.posted.get? id.index with
  | none => sp
  | some p =>
    if sp.store.isPassive id then sp
    else
      let entry := (position.localId, e)
      { sp with
        posted := sp.posted.modify id.index fun p =>
          if p.pending.contains entry then p else { p with pending := p.pending ++ [entry] }
        queue := sp.queue.enqueue id (Propagator.priority p.propagator) }

/-- Gives all waiting events to the scope positions that they wake. -/
def dispatch (sp : Space P) : Space P :=
  sp.store.events.toList.foldl
    (fun sp (e, v) => (sp.watchList.affected e v).foldl (fun sp position => sp.wake e position) sp)
    sp.dropEvents

/-! ### Running propagators -/

/-- Takes over the result of running a propagator. -/
def record (sp : Space P) (id : PropagatorId) (pass : Pass P) : Space P :=
  { sp with
    store := pass.store
    posted := sp.posted.modify id.index ({ · with propagator := pass.self })
    calls := sp.calls + 1
    journal := sp.journal ++ pass.notes }

/-- Runs a propagator for the given events, one after the other. -/
def deliver (id : PropagatorId) (p : P) :
    List (LocalId × Event) → Space P → Except Fault (Option Contradiction × P × Space P)
  | [], sp => return (none, p, sp)
  | (position, e) :: rest, sp => do
    let pass ← Propagator.propagate p position e sp.store
    let sp := sp.record id pass
    match pass.refusal? with
    | some refusal => return (some (refusal.contradiction id), pass.self, sp.fail)
    | none => deliver id pass.self rest sp.dispatch

/-- Makes a propagator passive if its constraint holds for all contents that are left. -/
def passivateIfEntailed (sp : Space P) (id : PropagatorId) (p : P) : Except Fault (Space P) := do
  match ← Propagator.entailment p sp.store with
  | .holds => return { sp with store := sp.store.passivate id, passivations := sp.passivations + 1 }
  | _ => return sp

/-- Runs the propagator at the head of the queue; `none` if the queue is empty. -/
def runNext? (sp : Space P) : Option (Except Fault (Option Contradiction × Space P)) :=
  match sp.queue.pop? with
  | none => none
  | some (id, queue) =>
    let sp := { sp with queue }
    match sp.posted.get? id.index with
    | none => some (.error .indexOutOfBounds)
    | some p =>
      let sp := { sp with posted := sp.posted.modify id.index ({ · with pending := [] }) }
      if sp.store.isPassive id then some (.ok (none, sp))
      else some do
        let (contradiction?, propagator, sp) ← deliver id p.propagator p.pending sp
        match contradiction? with
        | some contradiction => return (some contradiction, sp)
        | none => return (none, ← sp.passivateIfEntailed id propagator)

/-- Runs propagators until the queue is empty or a contradiction is met, at most `fuel` of
    them. -/
def drain : (fuel : Nat) → Space P → Except Fault (Option Contradiction × Space P)
  | 0, _ => throw .outOfFuel
  | fuel + 1, sp =>
    match sp.runNext? with
    | none => return (none, { sp with phase := .idle })
    | some result => do
      let (contradiction?, sp) ← result
      match contradiction? with
      | some contradiction => return (some contradiction, sp)
      | none => drain fuel sp

/-- More than the number of propagators that can be run before the queue is empty: every run
    but those already waiting follows an event, every event but those already raised follows a
    change of a domain, and every change lowers the slack of the store. -/
def stepBound (sp : Space P) : Nat :=
  sp.queue.length + (sp.store.events.raised.size + sp.store.slack + 1) * sp.posted.size + 1

/-- Runs propagators until no event is left or a contradiction is met. -/
def propagate (sp : Space P) : Except Fault (Option Contradiction × Space P) :=
  let sp := { sp with phase := .propagating }
  sp.dispatch.drain sp.stepBound

/-- Carries out narrowings one after the other and then propagates, until a contradiction is
    met; one that a narrowing meets leaves the space to the caller as it is. -/
def settle : List Narrowing → Space P → Except Fault (Option Contradiction × Space P)
  | [], sp => sp.propagate
  | request :: rest, sp => do
    let narrowed ← request.run sp.store
    let sp := { sp with store := narrowed.store }
    match narrowed.changed? with
    | none => return (some .emptyDomain, sp)
    | some _ => settle rest sp

/-- Posts a propagator, runs it for the first time and then all propagators that its changes
    wake; the propagator stays posted if that ends in a contradiction. -/
def post (sp : Space P) (p : P) : Except Fault (Except Contradiction PropagatorId × Space P) := do
  let id : PropagatorId := ⟨sp.posted.nextKey⟩
  let watchList := (Propagator.watches p).foldl
    (fun w watch => w.subscribe watch.target ⟨⟨id, watch.position⟩, watch.events⟩) sp.watchList
  let sp := { sp with watchList, posted := sp.posted.push ⟨p, []⟩, phase := .propagating }
  let pass ← Propagator.initial p sp.store
  let sp := sp.record id pass
  match pass.refusal? with
  | some refusal => return (.error (refusal.contradiction id), sp.fail)
  | none =>
    let sp ← sp.passivateIfEntailed id pass.self
    let (contradiction?, sp) ← sp.propagate
    match contradiction? with
    | some contradiction => return (.error contradiction, sp)
    | none => return (.ok id, sp)

/-! ### Reading -/

/-- The name of every propagator and what it knows about the contents that are left. -/
def entailments (sp : Space P) : Except Fault (List (String × Entailment)) :=
  sp.posted.toList.mapM fun p => do
    return (Propagator.name p.propagator, ← Propagator.entailment p.propagator sp.store)

/-- The counters, under names that begin with the given parts. -/
def statistics (sp : Space P) (name : StatisticName) : List (String × Nat) :=
  [((name.attach "num_propagator_calls").text, sp.calls),
   ((name.attach "num_propagation_failures").text, sp.failures),
   ((name.attach "num_passivations").text, sp.passivations)]

end Space

end FiniteDomain
