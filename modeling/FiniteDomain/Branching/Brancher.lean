import FiniteDomain.Branching.ValueSelector
import FiniteDomain.Branching.VariableSelector

/-! # Branchers

    A brancher hands out the branches of a search.  `Brancher B` says what a type
    has to offer for its members to be used as branchers; `Strategy` is the type
    of the branchers of the library. -/

namespace FiniteDomain

/-- What the members of a type have to offer to be used as branchers. -/
class Brancher (B : Type) where
  /-- The next branch, or none if there is nothing left to decide. -/
  next : B → Store → Random → Except Fault (Option Branch × B × Random)
  /-- The search goes back. -/
  onBacktrack : B → B
  /-- The search has found a solution. -/
  onSolution : B → Store → B
  /-- By how much the number of branches may exceed what the domains alone account for, as a
      factor. -/
  excess : B → Nat

/-! ### Graphs -/

/-- A rule for choosing an arc. -/
inductive ArcSelection where
  /-- The first by tail and head. -/
  | lexicographic
  /-- One that extends the path of certain arcs from a source. -/
  | pathExtension (source : Nat)
  /-- Any. -/
  | random
deriving DecidableEq, Repr, Inhabited

namespace ArcSelection

/-- The arcs that are possible and not certain. -/
def undecidedArcs (d : GraphDomain) : List (Nat × Nat) :=
  d.envelope.arcList.filter fun (tail, head) => !d.kernel.hasArc tail head

/-- The first arc that is possible and not certain. -/
def firstUndecidedArc? (d : GraphDomain) : Option (Nat × Nat) :=
  (List.range d.envelope.successors.size).findSome? fun tail =>
    ((d.envelope.successorsOf tail).find? fun head => !d.kernel.hasArc tail head).map fun head =>
      (tail, head)

theorem head?_undecidedArcs (d : GraphDomain) :
    (undecidedArcs d).head? = firstUndecidedArc? d := by
  simp only [undecidedArcs, firstUndecidedArc?, Digraph.arcList, List.filter_flatMap,
    List.head?_flatMap, List.filter_map, List.head?_map, List.head?_filter, Function.comp_def]

/-- Follows the first certain successors from `current`, at most `steps` times, unless that
    leads back to the source. -/
def endOfPath (d : GraphDomain) (source : Nat) : (steps : Nat) → (current : Nat) → Nat
  | 0, current => current
  | steps + 1, current =>
    match (d.kernel.successorsOf current).head? with
    | some n => if n = source then current else endOfPath d source steps n
    | none => current

/-- Chooses an undecided arc; the source of a path has to be a node. -/
def select (selection : ArcSelection) (d : GraphDomain) (r : Random) :
    Except Fault (Option (Nat × Nat) × Random) := do
  match selection with
  | .lexicographic => return (firstUndecidedArc? d, r)
  | .pathExtension source =>
    if d.order ≤ source then throw .indexOutOfBounds
    let last := endOfPath d source d.order source
    match (d.envelope.successorsOf last).find? fun head => !d.kernel.hasArc last head with
    | some head => return (some (last, head), r)
    | none => return (firstUndecidedArc? d, r)
  | .random =>
    let arcs := undecidedArcs d
    if arcs.isEmpty then return (none, r)
    else
      let (i, r) := r.below arcs.length
      return (arcs[i]?, r)

end ArcSelection

/-! ### Strategies -/

/-- A brancher of the library. -/
inductive Strategy where
  /-- Chooses a variable, then a branch on it. -/
  | variables (selector : VariableSelector) (vars : List IntVar) (values : ValueSelector)
  /-- Chooses a set, then decides its first undecided element. -/
  | sets (direction : Extremum) (sets : List SetId)
  /-- Decides the arcs of a graph, then its nodes. -/
  | arcs (g : GraphId) (selection : ArcSelection)
  /-- Hands out the listed branches one after the other. -/
  | scripted (branches : List (List Decision))
  /-- Uses one brancher after the other, starting at a position; the position goes back to the
      beginning with the search. -/
  | sequence (branchers : List Strategy) (position : Nat)
deriving Inhabited

namespace Strategy

/-- Decides the first undecided element of a chosen set. -/
def nextElement? (direction : Extremum) (sets : List SetId) (s : Store) :
    Except Fault (Option Branch) := do
  match ← selectSet? direction sets s with
  | none => return none
  | some y =>
    match (s.set y).envelopeElements.find? fun e => !(s.set y).inKernel e with
    | none => return none
    | some e => return some (.binary (.includeElement y e) (.excludeElement y e))

/-- Decides a chosen arc of a graph, or its first undecided node if no arc is left. -/
def nextArc? (g : GraphId) (selection : ArcSelection) (s : Store) (r : Random) :
    Except Fault (Option Branch × Random) := do
  s.require (.graph g)
  let d := s.graph g
  let (arc?, r) ← selection.select d r
  match arc? with
  | some (tail, head) =>
    return (some (.binary (.includeArc g tail head) (.excludeArc g tail head)), r)
  | none =>
    match d.envelope.nodeList.find? fun n => !d.kernel.hasNode n with
    | some n => return (some (.binary (.includeNode g n) (.excludeNode g n)), r)
    | none => return (none, r)

mutual

/-- The next branch. -/
def next (b : Strategy) (s : Store) (r : Random) :
    Except Fault (Option Branch × Strategy × Random) :=
  match b with
  | .variables selector vars values => do
    let (x?, selector, r) ← selector.select vars s r
    match x? with
    | none => return (none, .variables selector vars values, r)
    | some x =>
      let (branch, r) ← values.select x s r
      return (some branch, .variables selector vars values, r)
  | .sets direction ys => do
    return (← nextElement? direction ys s, .sets direction ys, r)
  | .arcs g selection => do
    let (branch?, r) ← nextArc? g selection s r
    return (branch?, .arcs g selection, r)
  | .scripted [] => return (none, .scripted [], r)
  | .scripted (alternatives :: rest) => do
    return (some (← Branch.ofList alternatives), .scripted rest, r)
  | .sequence branchers position => do
    let (branch?, branchers, position, r) ← nextOf branchers position s r
    return (branch?, .sequence branchers position, r)

/-- The next branch of the first brancher from a position on that has one, and the position of
    that brancher. -/
def nextOf (branchers : List Strategy) (position : Nat) (s : Store) (r : Random) :
    Except Fault (Option Branch × List Strategy × Nat × Random) :=
  match branchers, position with
  | [], position => return (none, [], position, r)
  | b :: rest, position + 1 => do
    let (branch?, rest, position, r) ← nextOf rest position s r
    return (branch?, b :: rest, position + 1, r)
  | b :: rest, 0 => do
    let (branch?, b, r) ← next b s r
    match branch? with
    | some branch => return (some branch, b :: rest, 0, r)
    | none =>
      let (branch?, rest, position, r) ← nextOf rest 0 s r
      return (branch?, b :: rest, position + 1, r)

end

mutual

/-- The brancher with every sequence at its beginning. -/
def rewind : Strategy → Strategy
  | .sequence branchers _ => .sequence (rewindAll branchers) 0
  | b => b

/-- The branchers with every sequence at its beginning. -/
def rewindAll : List Strategy → List Strategy
  | [] => []
  | b :: rest => rewind b :: rewindAll rest

end

mutual

/-- The number of contents that the scripted branches may add to each one of the domains. -/
def scriptExcess : Strategy → Nat
  | .scripted branches => branches.foldl (fun n alternatives => n * (alternatives.length + 1)) 1
  | .sequence branchers _ => scriptExcessOf branchers
  | _ => 1

/-- The product of the excess of the listed branchers. -/
def scriptExcessOf : List Strategy → Nat
  | [] => 1
  | b :: rest => scriptExcess b * scriptExcessOf rest

end

/-! ### Strategies for all variables of a store -/

/-- Decides the integer variables, then the sets, then the graphs one after the other; a kind
    without variables is left out. -/
def covering (s : Store) (selector : VariableSelector) (values : ValueSelector)
    (direction : Extremum) (selection : ArcSelection) : Strategy :=
  .sequence
    ((if s.intIds.isEmpty then [] else [.variables selector (s.intIds.map .plain) values])
      ++ (if s.setIds.isEmpty then [] else [.sets direction s.setIds])
      ++ s.graphIds.map fun g => .arcs g selection)
    0

/-- The strategy for use when none is given: the least value of a variable with the fewest
    values, a set with the fewest undecided elements, arcs in order. -/
def standard (s : Store) : Strategy :=
  covering s .firstFail .min .minimum .lexicographic

/-- Any value of any variable, a set with the most undecided elements, any arc. -/
def randomised (s : Store) : Strategy := covering s .random .random .maximum .random

instance : Brancher Strategy where
  next := next
  onBacktrack := rewind
  onSolution b _ := rewind b
  excess := scriptExcess

end Strategy

end FiniteDomain
