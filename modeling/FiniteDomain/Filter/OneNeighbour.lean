import FiniteDomain.Propagation.Propagator

/-! # One neighbour

    Every node of a graph has exactly one successor (or exactly one predecessor),
    except one given node, which has none. -/

namespace FiniteDomain

/-- Which neighbours of a node are meant. -/
inductive Direction where
  /-- The heads of the arcs that leave it. -/
  | successors
  /-- The tails of the arcs that enter it. -/
  | predecessors
deriving DecidableEq, Repr, Inhabited

namespace Direction

/-- The neighbours of a node, in ascending order. -/
def neighbours (d : Direction) (g : Digraph) (n : Nat) : List Nat :=
  match d with
  | .successors => g.successorsOf n
  | .predecessors => g.predecessorsOf n

/-- The arc between a node and a neighbour, as tail and head. -/
def arc (d : Direction) (n neighbour : Nat) : Nat × Nat :=
  match d with
  | .successors => (n, neighbour)
  | .predecessors => (neighbour, n)

end Direction

namespace OneNeighbour

/-- Removes the arcs between a node and some of its neighbours. -/
def removeArcs (d : Direction) (g : GraphId) (n : Nat) (neighbours : List Nat) :
    Filtering Unit :=
  neighbours.forM fun m =>
    Filtering.narrowing (·.excludeArc g (d.arc n m).1 (d.arc n m).2)

/-- Filters the arcs at one possible node. -/
def filterNode (d : Direction) (g : GraphId) (but n : Nat) : Filtering Unit := do
  let possible ← Filtering.read fun s => d.neighbours (s.graph g).envelope n
  if n = but then removeArcs d g n possible
  else
    match ← Filtering.read fun s => d.neighbours (s.graph g).kernel n with
    | [chosen] => removeArcs d g n (possible.filter (· != chosen))
    | _ :: _ :: _ => Filtering.refuse
    | [] =>
      let needed ← Filtering.read fun s => (s.graph g).kernel.hasNode n
      match possible with
      | [] => if needed then Filtering.refuse else Filtering.narrowing (·.excludeNode g n)
      | [only] =>
        if needed then Filtering.narrowing (·.includeArc g (d.arc n only).1 (d.arc n only).2)
      | _ :: _ :: _ => pure ()

/-- Filters the arcs at all possible nodes, in ascending order. -/
def filter (d : Direction) (g : GraphId) (but : Nat) : Filtering Unit := do
  let order ← Filtering.read fun s => (s.graph g).order
  (List.range order).forM fun n => do
    if ← Filtering.read fun s => (s.graph g).envelope.hasNode n then filterNode d g but n

/-- What is known about the contents that are left: nothing before the graph is fixed. -/
def entailment (d : Direction) (g : GraphId) (but : Nat) (s : Store) : Entailment :=
  let graph := s.graph g
  if !graph.isFixed then .undecided
  else if (List.range graph.order).all fun n =>
      !graph.kernel.hasNode n
        || (d.neighbours graph.kernel n).length == (if n = but then 0 else 1) then .holds
  else .fails

end OneNeighbour

end FiniteDomain
