import FiniteDomain.Event
import FiniteDomain.Table

/-! # Watch lists

    A propagator subscribes to kinds of change of the variables in its scope.  A
    subscription carries the position of the variable in the scope, so the
    propagator is told which of its variables changed.  A position that
    subscribes twice to one variable is kept once, with the union of the events.

    `WatchList.affected` answers an event: the positions whose subscription it
    wakes, in the order in which they subscribed. -/

namespace FiniteDomain

/-- A position in the scope of a propagator. -/
structure ScopePosition where
  /-- The propagator. -/
  propagator : PropagatorId
  /-- The position in its scope. -/
  localId : LocalId
deriving DecidableEq, Repr, Inhabited

/-- The wish of a scope position to hear of changes. -/
structure Subscription where
  /-- Who is to be told. -/
  position : ScopePosition
  /-- The kinds of change. -/
  events : EventSet
deriving DecidableEq, Repr, Inhabited

/-- The subscriptions to one variable with one more; a position that is present already gets
    the union of the events. -/
def Subscription.add (subscriptions : List Subscription) (new : Subscription) :
    List Subscription :=
  match subscriptions with
  | [] => [new]
  | s :: rest =>
    if s.position = new.position then { s with events := s.events.union new.events } :: rest
    else s :: Subscription.add rest new

/-- The subscriptions to all variables. -/
structure WatchList where
  /-- For integer variables. -/
  ints : Table (List Subscription)
  /-- For set variables. -/
  sets : Table (List Subscription)
  /-- For graph variables. -/
  graphs : Table (List Subscription)
deriving DecidableEq, Repr, Inhabited

namespace WatchList

/-- Nobody has subscribed. -/
def empty : WatchList := ⟨Table.empty, Table.empty, Table.empty⟩

/-- The subscriptions to a variable. -/
def subscriptions (w : WatchList) : VariableId → List Subscription
  | .int x => w.ints.getD x.index []
  | .set s => w.sets.getD s.index []
  | .graph g => w.graphs.getD g.index []

/-- The watch list after one more subscription to a variable. -/
def subscribe (w : WatchList) (v : VariableId) (s : Subscription) : WatchList :=
  let add (t : Table (List Subscription)) (key : Nat) :=
    (t.reserve key []).modify key fun subscriptions => Subscription.add subscriptions s
  match v with
  | .int x => { w with ints := add w.ints x.index }
  | .set y => { w with sets := add w.sets y.index }
  | .graph g => { w with graphs := add w.graphs g.index }

/-- The scope positions that an event on a variable wakes. -/
def affected (w : WatchList) (e : Event) (v : VariableId) : List ScopePosition :=
  ((w.subscriptions v).filter fun s => s.events.meets e.wakes).map (·.position)

end WatchList

end FiniteDomain
