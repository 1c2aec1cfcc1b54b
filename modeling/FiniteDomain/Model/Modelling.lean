import FiniteDomain.Search.Solver

/-! # Building models

    A model is built by adding variables and posting propagators to a solver
    while no search is in progress.  `Modelling` is the monad of the programs that
    do so: a `ModelError` ends the program and keeps what it has done before, a
    fault ends everything.

    Posting propagates at once.  If that ends in a contradiction the model has no
    solution, and nothing can be posted any more.  Errors in the arguments are
    found before anything is changed. -/

namespace FiniteDomain

/-! ### Errors -/

/-- Why a variable or constraint cannot be added. -/
inductive ModelError where
  /-- The model is known to have no solution. -/
  | infeasibleModel
  /-- With the addition the model has no solution. -/
  | infeasibleAddition
  /-- A variable needs a lower bound that is at most its upper bound. -/
  | invalidBounds (lower upper : Int)
  /-- A variable needs a value. -/
  | emptyValueList
  /-- The constraint needs a variable. -/
  | emptyScope
  /-- The constraint needs its variables to be distinct. -/
  | duplicateVariable
  /-- The graph has no such node. -/
  | nodeOutOfRange (node order : Nat)
deriving DecidableEq, Repr, Inhabited

/-- The wording of an error. -/
def ModelError.message : ModelError → String
  | .infeasibleModel => "Adding constraint failed because the solver is in an infeasible state"
  | .infeasibleAddition => "Adding the constraint failed because it is infeasible at the root"
  | .invalidBounds lower upper =>
    s!"Cannot create a variable with lower bound {lower} and upper bound {upper}"
  | .emptyValueList => "Cannot create a variable without any values"
  | .emptyScope => "Cannot create a constraint over an empty scope"
  | .duplicateVariable => "The scope of the constraint contains a duplicate variable"
  | .nodeOutOfRange node order => s!"Node {node} does not exist in a graph with {order} nodes"

/-! ### The monad -/

/-- A program that builds a model. -/
abbrev Modelling (P : Type) : Type → Type :=
  ExceptT ModelError (StateT (Solver P) (Except Fault))

namespace Modelling

variable {P : Type}

/-- Runs a program on a solver. -/
def runOn {α : Type} (program : Modelling P α) (sv : Solver P) :
    Except Fault (Except ModelError α × Solver P) :=
  program.run.run sv

/-- The value of a checked computation. -/
def checked {α : Type} (result : Except Fault α) : Modelling P α :=
  liftM (n := Modelling P) result

/-- Makes sure that no search is in progress. -/
def requireRoot : Modelling P Unit := do
  if (← get).isSearching then checked (.error .searchInProgress) else pure ()

/-- Makes sure that the model is not known to have no solution. -/
def requireFeasible : Modelling P Unit := do
  if (← get).infeasible then throw .infeasibleModel else pure ()

/-- Gives a variable its name, if it has one. -/
def name (v : VariableId) (name? : Option String) : Modelling P Unit :=
  match name? with
  | none => pure ()
  | some text => modify fun sv => { sv with names := sv.names.add v text }

/-- Changes the store. -/
def withStore {α : Type} (change : Store → α × Store) : Modelling P α := do
  let sv ← get
  let (a, store) := change sv.store
  set { sv with space := { sv.space with store } }
  return a

/-! ### Variables -/

/-- The values in ascending order, each once. -/
def sortedDistinct (values : List Int) : List Int := (values.mergeSort (· ≤ ·)).eraseReps

/-- Adds an integer variable with the values from `lower` to `upper`. -/
def newBounded (lower upper : Int) (name? : Option String) : Modelling P IntId := do
  if upper < lower then throw (.invalidBounds lower upper)
  requireRoot
  let x ← withStore (·.addInt (IntegerDomain.bounded lower upper))
  name (.int x) name?
  return x

/-- Adds a row of integer variables with the values from `lower` to `upper`, named by their
    positions, which begin with a given one. -/
def newRow (rowName : String) (lower upper : Int) :
    (count : Nat) → (first : Nat) → Modelling P (List IntVar)
  | 0, _ => return []
  | count + 1, first => do
    let x ← newBounded lower upper (some s!"{rowName}[{first}]")
    return .plain x :: (← newRow rowName lower upper count (first + 1))

/-- Adds an integer variable with the listed values. -/
def newEnumerated (values : List Int) (name? : Option String) : Modelling P IntId := do
  if values.isEmpty then throw .emptyValueList
  requireRoot
  let d ← checked (IntegerDomain.enumerated (sortedDistinct values))
  let x ← withStore (·.addInt d)
  name (.int x) name?
  return x

/-- Adds a set variable with elements among the listed ones. -/
def newSet (elements : List Int) (name? : Option String) : Modelling P SetId := do
  requireRoot
  let y ← withStore (·.addSet (SetDomain.subsetsOf (sortedDistinct elements)))
  name (.set y) name?
  return y

/-- Adds a graph variable with the nodes below `order` and arcs among the listed ones. -/
def newGraph (order : Nat) (arcs : List (Nat × Nat)) (name? : Option String) :
    Modelling P GraphId := do
  match arcs.find? fun (tail, head) => order ≤ tail || order ≤ head with
  | some (tail, head) => throw (.nodeOutOfRange (max tail head) order)
  | none => pure ()
  requireRoot
  let d ← checked (GraphDomain.subgraphsOf order arcs)
  let g ← withStore (·.addGraph d)
  name (.graph g) name?
  return g

/-- All arcs between different nodes below `order`. -/
def completeArcs (order : Nat) : List (Nat × Nat) :=
  (List.range order).flatMap fun tail =>
    ((List.range order).filter (· != tail)).map fun head => (tail, head)

/-- Adds a graph variable with the nodes below `order` and any arcs between different ones. -/
def newCompleteGraph (order : Nat) (name? : Option String) : Modelling P GraphId :=
  newGraph order (completeArcs order) name?

/-! ### Propagators and narrowings -/

variable [Propagator P]

/-- Posts a propagator and propagates. -/
def post (p : P) : Modelling P Unit := do
  requireFeasible
  requireRoot
  let sv ← get
  let (result, space) ← checked (sv.space.post p)
  match result with
  | .ok _ => set { sv with space }
  | .error c =>
    set ({ sv with space, infeasible := true }.observe (.postingRefused c))
    throw .infeasibleAddition

/-- Narrows a domain and propagates. -/
def narrow (request : Narrowing) : Modelling P Unit := do
  requireFeasible
  requireRoot
  let sv ← get
  let (contradiction?, space) ← checked (sv.space.settle [request])
  match contradiction? with
  | none => set { sv with space }
  | some c =>
    set ({ sv with space := space.dropEvents, infeasible := true }.observe (.narrowingRefused c))
    throw .infeasibleAddition

/-- Posts a predicate and propagates. -/
def impose (p : Predicate) : Modelling P Unit := narrow (.impose p)

/-- The number of nodes of a graph, which has to exist. -/
def orderOf (g : GraphId) : Modelling P Nat := do
  let sv ← get
  checked (sv.store.require (.graph g))
  return (sv.store.graph g).order

/-- Makes sure that a graph has a node. -/
def requireNode (g : GraphId) (n : Nat) : Modelling P Unit := do
  let order ← orderOf g
  if n < order then pure () else throw (.nodeOutOfRange n order)

/-- Demands that a node belongs to a graph, and propagates. -/
def includeNode (g : GraphId) (n : Nat) : Modelling P Unit := do
  requireNode g n
  narrow (.includeNode g n)

end Modelling

end FiniteDomain
