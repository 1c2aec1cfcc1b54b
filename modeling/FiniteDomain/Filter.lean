import FiniteDomain.Filter.AllDifferent.Bounds
import FiniteDomain.Filter.AllDifferent.Instantiation
import FiniteDomain.Filter.Comparison
import FiniteDomain.Filter.Linear
import FiniteDomain.Filter.OneNeighbour
import FiniteDomain.Filter.PathNoCycle
import FiniteDomain.Filter.Sets

/-! # The filters of the library

    `Filter` lists the propagators that the library offers.  Each is described by
    its scope, its filtering program, the changes after which the program has to
    be run again, and what it can say about the contents that are left.  The
    programs are those of the modules below `FiniteDomain.Filter`. -/

namespace FiniteDomain

/-- A propagator of the library. -/
inductive Filter where
  /-- The variables differ pairwise; assigned values are removed from the others. -/
  | distinctByValue (vars : List IntVar)
  /-- The variables differ pairwise; bounds are moved out of Hall intervals. -/
  | distinctByBounds (vars : List IntVar)
  /-- The sum of the terms is at most the limit. -/
  | sumAtMost (terms : List IntVar) (limit : Int)
  /-- The first variable is at most the second. -/
  | atMost (a b : IntVar)
  /-- The two variables differ. -/
  | distinct (a b : IntVar)
  /-- The first set is contained in the second. -/
  | subset (a b : SetId)
  /-- The two sets have no element in common. -/
  | disjoint (a b : SetId)
  /-- The value of the variable belongs to the set. -/
  | member (x : IntVar) (y : SetId)
  /-- Every node but one has exactly one neighbour in a direction; that one has none. -/
  | oneNeighbour (d : Direction) (g : GraphId) (but : Nat)
  /-- Arcs form chains from a source to a sink. -/
  | pathNoCycle (g : GraphId) (source sink : Nat)
deriving DecidableEq, Repr

namespace Filter

/-- The name of the kind of filter. -/
def name : Filter → String
  | .distinctByValue _ => "AllDiffInst"
  | .distinctByBounds _ => "AllDiffBounds"
  | .sumAtMost _ _ => "LinearLeq"
  | .atMost _ _ => "BinaryLeq"
  | .distinct _ _ => "BinaryNotEq"
  | .subset _ _ => "SubsetEq"
  | .disjoint _ _ => "Disjoint"
  | .member _ _ => "Member"
  | .oneNeighbour .successors _ _ => "OneSuccessorBut"
  | .oneNeighbour .predecessors _ _ => "OnePredecessorBut"
  | .pathNoCycle _ _ _ => "PathNoCycle"

/-- How costly a call is. -/
def priority : Filter → Priority
  | .distinctByValue _ | .atMost _ _ | .distinct _ _ => .binary
  | .sumAtMost _ _ => .linear
  | _ => .general

/-- Watches every variable of a list for the same events, at its position. -/
def watchAll (vars : List IntVar) (events : EventSet) : List Watch :=
  vars.zipIdx.map fun (x, i) => x.watch events ⟨i⟩

/-- The changes after which the filter has to be run again. -/
def watches : Filter → List Watch
  | .distinctByValue vars => watchAll vars (.ofList [.assign])
  | .distinctByBounds vars => watchAll vars .bounds
  | .sumAtMost terms _ => watchAll terms (.ofList [.lowerBound])
  | .atMost a b => [a.watch (.ofList [.lowerBound]) ⟨0⟩, b.watch (.ofList [.upperBound]) ⟨1⟩]
  | .distinct a b => [a.watch (.ofList [.assign]) ⟨0⟩, b.watch (.ofList [.assign]) ⟨1⟩]
  | .subset a b =>
    [⟨.set a, .ofList [.kernelAddition], ⟨0⟩⟩, ⟨.set b, .ofList [.envelopeRemoval], ⟨1⟩⟩]
  | .disjoint a b =>
    [⟨.set a, .ofList [.kernelAddition], ⟨0⟩⟩, ⟨.set b, .ofList [.kernelAddition], ⟨1⟩⟩]
  | .member x y => [x.watch (.ofList [.assign]) ⟨0⟩, ⟨.set y, .ofList [.envelopeRemoval], ⟨1⟩⟩]
  | .oneNeighbour _ g _ => [⟨.graph g, .anyStructure, ⟨0⟩⟩]
  | .pathNoCycle g _ _ => [⟨.graph g, .ofList [.kernelAddition], ⟨0⟩⟩]

/-- The variables of the filter. -/
def scope (f : Filter) : List VariableId := f.watches.map (·.target)

/-- Filters over the whole scope. -/
def program : Filter → Filtering Unit
  | .distinctByValue vars => AllDifferent.byValue vars
  | .distinctByBounds vars => AllDifferent.byBounds vars
  | .sumAtMost terms limit => LinearAtMost.filter terms limit
  | .atMost a b => AtMost.filter a b
  | .distinct a b => Distinct.filter a b
  | .subset a b => Subset.filter a b
  | .disjoint a b => Disjoint.filter a b
  | .member x y => Member.filter x y
  | .oneNeighbour d g but => OneNeighbour.filter d g but
  | .pathNoCycle g source sink => PathNoCycle.filter g source sink

/-- Filters after an event at a position of the scope. -/
def programAt (f : Filter) (position : LocalId) : Filtering Unit :=
  match f with
  | .distinctByValue vars => AllDifferent.byValueAt vars position.index
  | f => f.program

/-- The variables that a run looks at.  An upper bound that has no counterpart below the views of
    the first variable is refused before that is looked at, and nothing has to be looked up in the
    second set when the first is empty. -/
def consulted (f : Filter) (s : Store) : List VariableId :=
  match f with
  | .atMost a b =>
    .int b.base :: ((a.atMost (b.upperBound s)).subject?.map VariableId.int).toList
  | .subset a b => .set a :: if (s.set a).envelopeElements.isEmpty then [] else [.set b]
  | f => f.scope

/-- Makes sure that the variables exist that a run looks at, then runs the program. -/
def guarded (f : Filter) (program : Filtering Unit) : Filtering Unit := do
  Filtering.require (f.consulted (← get))
  program

/-- The variables that a judgement looks at: nothing has to be looked up in the second set when
    the first is empty. -/
def judged (f : Filter) (s : Store) : List VariableId :=
  match f with
  | .subset a b | .disjoint a b =>
    .set a :: if (s.set a).envelopeElements.isEmpty then [] else [.set b]
  | f => f.scope

/-- What is known about the contents that are left; the variables that it depends on have to
    exist. -/
def entailment (f : Filter) (s : Store) : Except Fault Entailment := do
  (f.judged s).forM s.require
  match f with
  | .distinctByValue vars | .distinctByBounds vars => return AllDifferent.entailment vars s
  | .sumAtMost terms limit => LinearAtMost.entailment terms limit s
  | .atMost a b => return AtMost.entailment a b s
  | .distinct a b => return Distinct.entailment a b s
  | .subset a b => return Subset.entailment a b s
  | .disjoint a b => return Disjoint.entailment a b s
  | .member x y => return Member.entailment x y s
  | .oneNeighbour d g but => return OneNeighbour.entailment d g but s
  | .pathNoCycle g source sink => PathNoCycle.entailment g source sink s

instance : Propagator Filter where
  name := name
  priority := priority
  watches := watches
  initial f s := Pass.ofFilter f (f.guarded f.program) s
  propagate f position _ s := Pass.ofFilter f (f.guarded (f.programAt position)) s
  entailment := entailment

end Filter

end FiniteDomain
