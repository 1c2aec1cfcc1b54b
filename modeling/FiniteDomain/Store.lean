import FiniteDomain.Trail
import FiniteDomain.Table
import FiniteDomain.Predicate
import FiniteDomain.Domain.Integer
import FiniteDomain.Domain.Set
import FiniteDomain.Domain.Graph

/-! # The store

    The store holds the domain of every variable and the set of passive
    propagators.  Every change is recorded on the trail and can be taken back to
    any checkpoint; every narrowing raises an event, which waits in the sink until
    it is fetched.

    A narrowing answers whether anything changed, or nothing if the domain would
    become empty, together with the store after it.  That is the store as it was
    unless something changed.

    Reading a variable that does not exist reads a domain with one content;
    `require` is the check to make first where that can happen. -/

namespace FiniteDomain

/-- How a change of the store is taken back. -/
inductive StoreEntry where
  /-- A change of an integer domain. -/
  | int (x : IntId) (entry : IntegerDomain.Entry)
  /-- A change of a set domain. -/
  | set (s : SetId) (entry : SetDomain.Entry)
  /-- A change of a graph domain. -/
  | graph (g : GraphId) (entry : GraphDomain.Entry)
  /-- A propagator became passive. -/
  | passivation (p : PropagatorId)
deriving DecidableEq, Repr, Inhabited

/-- The domains of all variables, with the record of their changes. -/
structure Store where
  /-- The domains of the integer variables. -/
  ints : Table IntegerDomain
  /-- The domains of the set variables. -/
  sets : Table SetDomain
  /-- The domains of the graph variables. -/
  graphs : Table GraphDomain
  /-- The passive propagators, the latest first. -/
  passive : List PropagatorId
  /-- The changes since the variables were created. -/
  trail : Trail StoreEntry
  /-- The events that have not been fetched. -/
  events : EventSink
deriving DecidableEq, Repr, Inhabited

/-- The answer to a narrowing. -/
structure Narrowed where
  /-- Whether anything changed; nothing if a domain would become empty. -/
  changed? : Option Bool
  /-- The store after the narrowing. -/
  store : Store
deriving DecidableEq, Repr, Inhabited

namespace Store

/-- The store without variables. -/
def empty : Store := ⟨Table.empty, Table.empty, Table.empty, [], Trail.empty, EventSink.empty⟩

/-! ### Variables -/

/-- Adds an integer variable with the domain. -/
def addInt (s : Store) (d : IntegerDomain) : IntId × Store :=
  (⟨s.ints.nextKey⟩, { s with ints := s.ints.push d })

/-- Adds a set variable with the domain. -/
def addSet (s : Store) (d : SetDomain) : SetId × Store :=
  (⟨s.sets.nextKey⟩, { s with sets := s.sets.push d })

/-- Adds a graph variable with the domain. -/
def addGraph (s : Store) (d : GraphDomain) : GraphId × Store :=
  (⟨s.graphs.nextKey⟩, { s with graphs := s.graphs.push d })

/-- All integer variables. -/
def intIds (s : Store) : List IntId := s.ints.keys.map IntId.mk

/-- All set variables. -/
def setIds (s : Store) : List SetId := s.sets.keys.map SetId.mk

/-- All graph variables. -/
def graphIds (s : Store) : List GraphId := s.graphs.keys.map GraphId.mk

/-- The variable exists. -/
def knows (s : Store) : VariableId → Bool
  | .int x => x.index < s.ints.size
  | .set y => y.index < s.sets.size
  | .graph g => g.index < s.graphs.size

/-- A variable that does not exist is a fault. -/
def require (s : Store) (v : VariableId) : Except Fault Unit :=
  if s.knows v then .ok () else .error .indexOutOfBounds

/-! ### Reading -/

/-- The domain of an integer variable. -/
def int (s : Store) (x : IntId) : IntegerDomain := s.ints.getD x.index default

/-- The domain of a set variable. -/
def set (s : Store) (y : SetId) : SetDomain := s.sets.getD y.index default

/-- The domain of a graph variable. -/
def graph (s : Store) (g : GraphId) : GraphDomain := s.graphs.getD g.index default

/-- The value of an integer variable, if only one is left. -/
def value? (s : Store) (x : IntId) : Option Int :=
  let d := s.int x
  if d.isFixed then some d.lower else none

/-- Every variable has one content left. -/
def allFixed (s : Store) : Bool :=
  s.ints.rows.all IntegerDomain.isFixed && s.sets.rows.all SetDomain.isFixed
    && s.graphs.rows.all GraphDomain.isFixed

/-- Whether all, none or only some contents of the store satisfy a predicate. -/
def truth (s : Store) : Predicate → Option Bool
  | .atLeast x k =>
    if k ≤ (s.int x).lower then some true
    else if (s.int x).upper < k then some false else none
  | .atMost x k =>
    if (s.int x).upper ≤ k then some true
    else if k < (s.int x).lower then some false else none
  | .differs x k =>
    if !(s.int x).contains k then some true
    else if s.value? x = some k then some false else none
  | .equals x k =>
    if !(s.int x).contains k then some false
    else if s.value? x = some k then some true else none
  | .always => some true
  | .never => some false

/-! ### Narrowing -/

/-- Carries out the outcome of narrowing an integer domain. -/
def commitInt (s : Store) (x : IntId) :
    Outcome IntegerDomain IntegerDomain.Entry → Narrowed
  | .empty => ⟨none, s⟩
  | .unchanged => ⟨some false, s⟩
  | .changed d entries e =>
    ⟨some true, { s with
      ints := s.ints.modify x.index fun _ => d
      trail := s.trail.append (entries.map (.int x))
      events := s.events.raise e (.int x) }⟩

/-- Carries out the outcome of narrowing a set domain. -/
def commitSet (s : Store) (y : SetId) :
    Outcome SetDomain SetDomain.Entry → Narrowed
  | .empty => ⟨none, s⟩
  | .unchanged => ⟨some false, s⟩
  | .changed d entries e =>
    ⟨some true, { s with
      sets := s.sets.modify y.index fun _ => d
      trail := s.trail.append (entries.map (.set y))
      events := s.events.raise e (.set y) }⟩

/-- Carries out the outcome of narrowing a graph domain. -/
def commitGraph (s : Store) (g : GraphId) :
    Outcome GraphDomain GraphDomain.Entry → Narrowed
  | .empty => ⟨none, s⟩
  | .unchanged => ⟨some false, s⟩
  | .changed d entries e =>
    ⟨some true, { s with
      graphs := s.graphs.modify g.index fun _ => d
      trail := s.trail.append (entries.map (.graph g))
      events := s.events.raise e (.graph g) }⟩

/-- Keeps the values of a variable that are at least `k`. -/
def tightenLower (s : Store) (x : IntId) (k : Int) : Narrowed :=
  s.commitInt x ((s.int x).tightenLower k)

/-- Keeps the values of a variable that are at most `k`. -/
def tightenUpper (s : Store) (x : IntId) (k : Int) : Narrowed :=
  s.commitInt x ((s.int x).tightenUpper k)

/-- Keeps the values of a variable other than `k`. -/
def removeValue (s : Store) (x : IntId) (k : Int) : Narrowed :=
  s.commitInt x ((s.int x).remove k)

/-- Keeps the values of a variable outside the interval. -/
def removeInterval (s : Store) (x : IntId) (lower upper : Int) : Narrowed :=
  s.commitInt x ((s.int x).removeInterval lower upper)

/-- Keeps the value `k` of a variable alone. -/
def instantiate (s : Store) (x : IntId) (k : Int) : Narrowed :=
  s.commitInt x ((s.int x).instantiate k)

/-- Keeps the values that satisfy a predicate. -/
def impose (s : Store) : Predicate → Narrowed
  | .atLeast x k => s.tightenLower x k
  | .atMost x k => s.tightenUpper x k
  | .differs x k => s.removeValue x k
  | .equals x k => s.instantiate x k
  | .always => ⟨some false, s⟩
  | .never => ⟨none, s⟩

/-- Keeps the sets without the element. -/
def excludeElement (s : Store) (y : SetId) (e : Int) : Narrowed :=
  s.commitSet y ((s.set y).excludeElement e)

/-- Keeps the sets with the element. -/
def includeElement (s : Store) (y : SetId) (e : Int) : Narrowed :=
  s.commitSet y ((s.set y).includeElement e)

/-- Keeps the graphs without the node. -/
def excludeNode (s : Store) (g : GraphId) (n : Nat) : Narrowed :=
  s.commitGraph g ((s.graph g).excludeNode n)

/-- Keeps the graphs with the node. -/
def includeNode (s : Store) (g : GraphId) (n : Nat) : Narrowed :=
  s.commitGraph g ((s.graph g).includeNode n)

/-- Keeps the graphs without the arc. -/
def excludeArc (s : Store) (g : GraphId) (tail head : Nat) : Narrowed :=
  s.commitGraph g ((s.graph g).excludeArc tail head)

/-- Keeps the graphs with the arc. -/
def includeArc (s : Store) (g : GraphId) (tail head : Nat) : Narrowed :=
  s.commitGraph g ((s.graph g).includeArc tail head)

/-! ### Passive propagators -/

/-- The propagator need not be run. -/
def isPassive (s : Store) (p : PropagatorId) : Bool := s.passive.contains p

/-- The store with the propagator made passive. -/
def passivate (s : Store) (p : PropagatorId) : Store :=
  if s.isPassive p then s
  else { s with passive := p :: s.passive, trail := s.trail.push (.passivation p) }

/-! ### Events -/

/-- The store with all waiting events dropped. -/
def dropEvents (s : Store) : Store := { s with events := EventSink.empty }

/-! ### Taking back -/

/-- The present length of the trail. -/
def checkpoint (s : Store) : Checkpoint := s.trail.checkpoint

/-- Takes back the change that an entry records. -/
def revert (s : Store) : StoreEntry → Store
  | .int x entry => { s with ints := s.ints.modify x.index (·.undo entry) }
  | .set y entry => { s with sets := s.sets.modify y.index (·.undo entry) }
  | .graph g entry => { s with graphs := s.graphs.modify g.index (·.undo entry) }
  | .passivation p => { s with passive := s.passive.erase p }

/-- Takes back all changes since a checkpoint, the latest first, and drops waiting events; a
    checkpoint beyond the end of the trail is a fault. -/
def undoTo (s : Store) (c : Checkpoint) : Except Fault Store := do
  let (entries, trail) ← s.trail.undo c
  return (entries.foldl revert { s with trail }).dropEvents

/-! ### Measures -/

/-- The number of values, optional elements, optional nodes and optional arcs; every change
    lowers it. -/
def slack (s : Store) : Nat :=
  s.ints.total IntegerDomain.size + s.sets.total SetDomain.slack
    + s.graphs.total GraphDomain.slack

/-- An upper bound on the number of contents that the store describes. -/
def contents (s : Store) : Nat :=
  (s.ints.toList.map IntegerDomain.size).foldl (· * ·) 1
    * (1 <<< (s.sets.total SetDomain.slack + s.graphs.total GraphDomain.slack))

end Store

end FiniteDomain
