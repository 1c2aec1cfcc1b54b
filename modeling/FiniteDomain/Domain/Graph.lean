import FiniteDomain.BitSet
import FiniteDomain.Domain.Outcome

/-! # Graph domains

    The content of a graph variable is a directed graph: a set of nodes out of
    `0 … order - 1` and a set of arcs between its nodes.  As for sets, the domain
    is a pair: a kernel that is part of every content and an envelope that
    contains every content.  A node that leaves the envelope takes its arcs
    along; an arc that enters the kernel brings its ends along. -/

namespace FiniteDomain

/-! ### Graphs -/

/-- A directed graph on the nodes below some number, with its arcs listed from both ends. -/
structure Digraph where
  /-- The nodes of the graph. -/
  nodes : BitSet
  /-- The number of nodes. -/
  nodeCount : Nat
  /-- For each node the heads of the arcs that leave it. -/
  successors : Array BitSet
  /-- For each node the tails of the arcs that enter it. -/
  predecessors : Array BitSet
  /-- The number of arcs. -/
  arcCount : Nat
deriving DecidableEq, Repr, Inhabited

namespace Digraph

/-- The graph without nodes and arcs. -/
def empty (order : Nat) : Digraph :=
  { nodes := BitSet.empty order
    nodeCount := 0
    successors := Array.replicate order (BitSet.empty order)
    predecessors := Array.replicate order (BitSet.empty order)
    arcCount := 0 }

/-- The graph of all nodes without arcs. -/
def discrete (order : Nat) : Digraph :=
  { empty order with nodes := BitSet.full order, nodeCount := order }

/-- The node belongs to the graph. -/
def hasNode (g : Digraph) (n : Nat) : Bool := g.nodes.contains n

/-- The arc belongs to the graph. -/
def hasArc (g : Digraph) (tail head : Nat) : Bool :=
  (g.successors[tail]?).any fun heads => heads.contains head

/-- The heads of the arcs that leave a node, in ascending order. -/
def successorsOf (g : Digraph) (n : Nat) : List Nat :=
  (g.successors[n]?.map BitSet.toList).getD []

/-- The tails of the arcs that enter a node, in ascending order. -/
def predecessorsOf (g : Digraph) (n : Nat) : List Nat :=
  (g.predecessors[n]?.map BitSet.toList).getD []

/-- The nodes in ascending order. -/
def nodeList (g : Digraph) : List Nat := g.nodes.toList

/-- The arcs, by tail and then by head. -/
def arcList (g : Digraph) : List (Nat × Nat) :=
  (List.range g.successors.size).flatMap fun tail =>
    (g.successorsOf tail).map fun head => (tail, head)

/-- The graph with one more node. -/
def insertNode (g : Digraph) (n : Nat) : Digraph :=
  { g with nodes := g.nodes.insert n, nodeCount := g.nodeCount + 1 }

/-- The graph with one node less. -/
def eraseNode (g : Digraph) (n : Nat) : Digraph :=
  { g with nodes := g.nodes.erase n, nodeCount := g.nodeCount - 1 }

/-- The graph with one more arc. -/
def insertArc (g : Digraph) (tail head : Nat) : Digraph :=
  { g with successors := g.successors.modify tail (·.insert head)
           predecessors := g.predecessors.modify head (·.insert tail)
           arcCount := g.arcCount + 1 }

/-- The graph with one arc less. -/
def eraseArc (g : Digraph) (tail head : Nat) : Digraph :=
  { g with successors := g.successors.modify tail (·.erase head)
           predecessors := g.predecessors.modify head (·.erase tail)
           arcCount := g.arcCount - 1 }

/-- The graph with the listed arcs, each counted once. -/
def insertArcs (g : Digraph) (arcs : List (Nat × Nat)) : Digraph :=
  arcs.foldl (fun g (tail, head) => if g.hasArc tail head then g else g.insertArc tail head) g

end Digraph

/-! ### Domains -/

/-- The graphs between a kernel and an envelope. -/
structure GraphDomain where
  /-- Nodes are below this number. -/
  order : Nat
  /-- The nodes and arcs of some content. -/
  envelope : Digraph
  /-- The nodes and arcs of every content. -/
  kernel : Digraph
deriving DecidableEq, Repr, Inhabited

namespace GraphDomain

/-- How a change of a graph domain is taken back. -/
inductive Entry where
  /-- A node was removed from the envelope. -/
  | nodeEnvelopeRemoval (node : Nat)
  /-- A node was added to the kernel. -/
  | nodeKernelAddition (node : Nat)
  /-- An arc was removed from the envelope. -/
  | arcEnvelopeRemoval (tail head : Nat)
  /-- An arc was added to the kernel. -/
  | arcKernelAddition (tail head : Nat)
deriving DecidableEq, Repr, Inhabited

/-- All graphs on the nodes below `order` with arcs among the listed ones; an arc with an end
    outside is a fault. -/
def subgraphsOf (order : Nat) (arcs : List (Nat × Nat)) : Except Fault GraphDomain :=
  if arcs.all fun (tail, head) => tail < order && head < order then
    .ok { order
          envelope := (Digraph.discrete order).insertArcs arcs
          kernel := Digraph.empty order }
  else .error .assertionFailed

/-! ### Reading -/

/-- The number of nodes and arcs that are not decided. -/
def slack (d : GraphDomain) : Nat :=
  (d.envelope.nodeCount - d.kernel.nodeCount) + (d.envelope.arcCount - d.kernel.arcCount)

/-- Exactly one content is left. -/
def isFixed (d : GraphDomain) : Bool :=
  d.envelope.nodeCount == d.kernel.nodeCount && d.envelope.arcCount == d.kernel.arcCount

/-! ### Narrowing -/

/-- Keeps the contents without the node. -/
def excludeNode (d : GraphDomain) (n : Nat) : Outcome GraphDomain Entry :=
  if !d.envelope.hasNode n then .unchanged
  else if d.kernel.hasNode n then .empty
  else
    let leaving := (d.envelope.successorsOf n).map fun head => (n, head)
    let rest := leaving.foldl (fun g (tail, head) => g.eraseArc tail head) d.envelope
    let entering := (rest.predecessorsOf n).map fun tail => (tail, n)
    let isolated := entering.foldl (fun g (tail, head) => g.eraseArc tail head) rest
    .changed { d with envelope := isolated.eraseNode n }
      ((leaving ++ entering).map (fun (tail, head) => .arcEnvelopeRemoval tail head)
        ++ [.nodeEnvelopeRemoval n])
      .envelopeRemoval

/-- Keeps the contents with the node. -/
def includeNode (d : GraphDomain) (n : Nat) : Outcome GraphDomain Entry :=
  if !d.envelope.hasNode n then .empty
  else if d.kernel.hasNode n then .unchanged
  else .changed { d with kernel := d.kernel.insertNode n } [.nodeKernelAddition n] .kernelAddition

/-- Keeps the contents without the arc. -/
def excludeArc (d : GraphDomain) (tail head : Nat) : Outcome GraphDomain Entry :=
  if !d.envelope.hasArc tail head then .unchanged
  else if d.kernel.hasArc tail head then .empty
  else .changed { d with envelope := d.envelope.eraseArc tail head }
    [.arcEnvelopeRemoval tail head] .envelopeRemoval

/-- Keeps the contents with the arc. -/
def includeArc (d : GraphDomain) (tail head : Nat) : Outcome GraphDomain Entry :=
  if !d.envelope.hasArc tail head then .empty
  else if d.kernel.hasArc tail head then .unchanged
  else
    let ends := if tail = head then [tail] else [tail, head]
    let missing := ends.filter fun n => !d.kernel.hasNode n
    .changed { d with kernel := (missing.foldl Digraph.insertNode d.kernel).insertArc tail head }
      (missing.map .nodeKernelAddition ++ [.arcKernelAddition tail head]) .kernelAddition

/-! ### Taking back -/

/-- The domain before the change that the entry records. -/
def undo (d : GraphDomain) : Entry → GraphDomain
  | .nodeEnvelopeRemoval n => { d with envelope := d.envelope.insertNode n }
  | .nodeKernelAddition n => { d with kernel := d.kernel.eraseNode n }
  | .arcEnvelopeRemoval tail head => { d with envelope := d.envelope.insertArc tail head }
  | .arcKernelAddition tail head => { d with kernel := d.kernel.eraseArc tail head }

end GraphDomain

end FiniteDomain
