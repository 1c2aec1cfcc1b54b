import FiniteDomain.Propagation.Propagator

/-! # Paths without cycles

    A graph in which arcs form chains from a source to a sink has no cycle, no
    arc into the source and no arc out of the sink.  The filter follows the
    chains of certain arcs and removes the arc that would close one. -/

namespace FiniteDomain.PathNoCycle

/-- Follows the first neighbour in one direction from `current`, at most `steps` times, until a
    node without neighbour; nothing if the walk comes back to `start` or does not end. -/
def walk (next : Nat → Option Nat) (start : Nat) : (steps : Nat) → (current : Nat) → Option Nat
  | 0, _ => none
  | steps + 1, current =>
    match next current with
    | none => some current
    | some n => if n = start then none else walk next start steps n

/-- The first node of the chain of certain arcs through a node, if the chain is no cycle. -/
def chainStart? (d : GraphDomain) (n : Nat) : Option Nat :=
  walk (fun m => (d.kernel.predecessorsOf m).head?) n d.order n

/-- The last node of the chain of certain arcs through a node, if the chain is no cycle. -/
def chainEnd? (d : GraphDomain) (n : Nat) : Option Nat :=
  walk (fun m => (d.kernel.successorsOf m).head?) n d.order n

/-- Some chain of certain arcs has no first node. -/
def hasKernelCycle (d : GraphDomain) : Bool :=
  (List.range d.order).any fun n => d.kernel.hasNode n && (chainStart? d n).isNone

/-- Filters the arcs into a node: not from the node itself, and not from the end of the chain
    that the node begins. -/
def filterNode (g : GraphId) (n : Nat) : Filtering Unit := do
  Filtering.narrowing (·.excludeArc g n n)
  let d ← Filtering.read (·.graph g)
  if !(d.kernel.successorsOf n).isEmpty && (d.kernel.predecessorsOf n).isEmpty then
    match chainEnd? d n with
    | none => Filtering.refuse
    | some last => Filtering.narrowing (·.excludeArc g last n)

/-- Removes the arcs into the source, out of the sink and those that would close a chain;
    refuses if there is a cycle of certain arcs.  Source and sink have to be nodes. -/
def filter (g : GraphId) (source sink : Nat) : Filtering Unit := do
  let order ← Filtering.read fun s => (s.graph g).order
  if order ≤ source then Filtering.fault .indexOutOfBounds
  let intoSource ← Filtering.read fun s => (s.graph g).envelope.predecessorsOf source
  intoSource.forM fun n => Filtering.narrowing (·.excludeArc g n source)
  if order ≤ sink then Filtering.fault .indexOutOfBounds
  let outOfSink ← Filtering.read fun s => (s.graph g).envelope.successorsOf sink
  outOfSink.forM fun n => Filtering.narrowing (·.excludeArc g sink n)
  (List.range order).forM (filterNode g)
  if ← Filtering.read fun s => hasKernelCycle (s.graph g) then Filtering.refuse

/-- What is known about the contents that are left: nothing before the graph is fixed, and then
    source and sink have to be nodes. -/
def entailment (g : GraphId) (source sink : Nat) (s : Store) : Except Fault Entailment :=
  let d := s.graph g
  if !d.isFixed then .ok .undecided
  else if d.order ≤ max source sink then .error .indexOutOfBounds
  else if !(d.kernel.predecessorsOf source).isEmpty || !(d.kernel.successorsOf sink).isEmpty
      || hasKernelCycle d then .ok .fails
  else .ok .holds

end FiniteDomain.PathNoCycle
