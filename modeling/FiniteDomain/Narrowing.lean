import FiniteDomain.Variable

/-! # Requests to the store

    A `Narrowing` is one of the requests by which a domain can be made smaller,
    a `Query` one of the questions that can be asked about the domains.  Both
    first make sure that the domain they look at exists.  A request or question
    about a view is settled without a look at any domain if the number that it
    speaks of has no counterpart below the view. -/

namespace FiniteDomain

/-! ### Narrowings -/

/-- A request to make a domain smaller. -/
inductive Narrowing where
  /-- Keep the values that are at least `k`. -/
  | tightenLower (x : IntVar) (k : Int)
  /-- Keep the values that are at most `k`. -/
  | tightenUpper (x : IntVar) (k : Int)
  /-- Keep the values other than `k`. -/
  | removeValue (x : IntVar) (k : Int)
  /-- Keep the values outside an interval. -/
  | removeInterval (x : IntVar) (lower upper : Int)
  /-- Keep the value `k` alone. -/
  | instantiate (x : IntVar) (k : Int)
  /-- Keep the values that satisfy a predicate. -/
  | impose (p : Predicate)
  /-- Keep the sets without an element. -/
  | excludeElement (y : SetId) (e : Int)
  /-- Keep the sets with an element. -/
  | includeElement (y : SetId) (e : Int)
  /-- Keep the graphs without a node. -/
  | excludeNode (g : GraphId) (n : Nat)
  /-- Keep the graphs with a node. -/
  | includeNode (g : GraphId) (n : Nat)
  /-- Keep the graphs without an arc. -/
  | excludeArc (g : GraphId) (tail head : Nat)
  /-- Keep the graphs with an arc. -/
  | includeArc (g : GraphId) (tail head : Nat)
deriving DecidableEq, Repr, Inhabited

namespace Narrowing

/-- The variable whose domain has to be looked at. -/
def subject? : Narrowing → Option VariableId
  | .tightenLower x k => (x.atLeast k).subject?.map .int
  | .tightenUpper x k => (x.atMost k).subject?.map .int
  | .removeValue x k => (x.differs k).subject?.map .int
  | .removeInterval x lower upper => (x.pullInterval? lower upper).map fun _ => .int x.base
  | .instantiate x k => (x.equals k).subject?.map .int
  | .impose p => p.subject?.map .int
  | .excludeElement y _ | .includeElement y _ => some (.set y)
  | .excludeNode g _ | .includeNode g _ | .excludeArc g _ _ | .includeArc g _ _ => some (.graph g)

/-- Carries out the request. -/
def apply (s : Store) : Narrowing → Narrowed
  | .tightenLower x k => x.tightenLower s k
  | .tightenUpper x k => x.tightenUpper s k
  | .removeValue x k => x.removeValue s k
  | .removeInterval x lower upper => x.removeInterval s lower upper
  | .instantiate x k => x.instantiate s k
  | .impose p => s.impose p
  | .excludeElement y e => s.excludeElement y e
  | .includeElement y e => s.includeElement y e
  | .excludeNode g n => s.excludeNode g n
  | .includeNode g n => s.includeNode g n
  | .excludeArc g tail head => s.excludeArc g tail head
  | .includeArc g tail head => s.includeArc g tail head

/-- The request can be carried out: its variable exists, and so does the node it is about. -/
def check (s : Store) (request : Narrowing) : Except Fault Unit := do
  request.subject?.forM s.require
  match request with
  | .excludeNode g n | .includeNode g n =>
    if n < (s.graph g).order then pure () else throw .assertionFailed
  | _ => pure ()

/-- Checks the request and carries it out. -/
def run (s : Store) (request : Narrowing) : Except Fault Narrowed := do
  request.check s
  return request.apply s

end Narrowing

/-! ### Queries -/

/-- A question about the domains. -/
inductive Query where
  /-- The bounds of a variable, its number of values and whether it is fixed. -/
  | summary (x : IntVar)
  /-- The first values of a variable. -/
  | values (x : IntVar) (count : Nat)
  /-- Whether a variable can take a value. -/
  | holds (x : IntVar) (k : Int)
  /-- The next value above a number. -/
  | next (x : IntVar) (k : Int)
  /-- The next value below a number. -/
  | previous (x : IntVar) (k : Int)
  /-- Whether a predicate holds for all, for no or for some values. -/
  | truth (p : Predicate)
  /-- The single value of a variable of the store. -/
  | value (x : IntId)
  /-- Whether an element is possible and whether it is certain. -/
  | element (y : SetId) (e : Int)
  /-- Whether a node is possible and whether it is certain. -/
  | node (g : GraphId) (n : Nat)
  /-- Whether an arc is possible and whether it is certain. -/
  | arc (g : GraphId) (tail head : Nat)
  /-- The neighbours of a node. -/
  | neighbours (g : GraphId) (n : Nat)
  /-- Whether every variable is fixed. -/
  | allFixed
  /-- The number of variables of each kind. -/
  | counts
  /-- Everything. -/
  | contents
deriving DecidableEq, Repr, Inhabited

/-- The answer to a query. -/
inductive Answer where
  /-- The bounds of a variable, its number of values and whether it is fixed. -/
  | summary (lower upper : Int) (size : Nat) (fixed : Bool)
  /-- Some values. -/
  | values (values : List Int)
  /-- Yes or no. -/
  | flag (b : Bool)
  /-- A number. -/
  | number (n : Int)
  /-- Yes, no or open. -/
  | truth (b : Option Bool)
  /-- A value, if there is a single one. -/
  | value (v : Option Int)
  /-- Possible and certain. -/
  | membership (possible certain : Bool)
  /-- Possible and certain successors and predecessors. -/
  | neighbours (successors predecessors certainSuccessors certainPredecessors : List Nat)
  /-- The number of integer, set and graph variables. -/
  | counts (ints sets graphs : Nat)
  /-- A store to be read. -/
  | contents (s : Store)
deriving Repr

/-- Answers a question. -/
def Query.answer (s : Store) : Query → Except Fault Answer
  | .summary x => do
    s.require (.int x.base)
    return .summary (x.lowerBound s) (x.upperBound s) (x.size s) (x.isFixed s)
  | .values x count => do
    s.require (.int x.base)
    return .values (x.firstValues s count)
  | .holds x k => do
    (x.equals k).subject?.forM fun y => s.require (.int y)
    return .flag (x.contains s k)
  | .next x k => do
    s.require (.int x.base)
    return .number (x.nextValue s k)
  | .previous x k => do
    s.require (.int x.base)
    return .number (x.previousValue s k)
  | .truth p => do
    p.subject?.forM fun x => s.require (.int x)
    return .truth (s.truth p)
  | .value x => do
    s.require (.int x)
    return .value (s.value? x)
  | .element y e => do
    s.require (.set y)
    return .membership ((s.set y).inEnvelope e) ((s.set y).inKernel e)
  | .node g n => do
    s.require (.graph g)
    return .membership ((s.graph g).envelope.hasNode n) ((s.graph g).kernel.hasNode n)
  | .arc g tail head => do
    s.require (.graph g)
    return .membership ((s.graph g).envelope.hasArc tail head) ((s.graph g).kernel.hasArc tail head)
  | .neighbours g n => do
    s.require (.graph g)
    let d := s.graph g
    if n < d.order then
      return .neighbours (d.envelope.successorsOf n) (d.envelope.predecessorsOf n)
        (d.kernel.successorsOf n) (d.kernel.predecessorsOf n)
    else throw .indexOutOfBounds
  | .allFixed => return .flag s.allFixed
  | .counts => return .counts s.ints.size s.sets.size s.graphs.size
  | .contents => return .contents s

end FiniteDomain
