import FiniteDomain.Proofs.Store

/-! # Steps of a store

    A narrowing that changes anything makes one step: it changes the domain of
    one variable by a chain of ticks and raises one event that describes the
    change.  What a narrowing means is said by the valuations that the store
    admits: none that obeys the request is lost. -/

namespace FiniteDomain

/-! ### Valuations -/

/-- A content for every variable. -/
@[ext]
structure Valuation where
  /-- The values of the integer variables. -/
  int : IntId → Int
  /-- The contents of the set variables. -/
  set : SetId → Set Int
  /-- The contents of the graph variables. -/
  graph : GraphId → Subgraph

namespace Store

/-- Every content belongs to its domain. -/
structure Admits (s : Store) (a : Valuation) : Prop where
  int : ∀ x, (s.int x).contains (a.int x) = true
  set : ∀ y, (s.set y).Admits (a.set y)
  graph : ∀ g, (s.graph g).Admits (a.graph g)

variable {s t : Store}

/-! ### Changes of one domain -/

/-- The store after the domain of an integer variable was changed. -/
def changeInt (s : Store) (x : IntId) (d : IntegerDomain) (entries : List IntegerDomain.Entry) :
    Store :=
  { s with ints := s.ints.modify x.index fun _ => d
           trail := s.trail.append (entries.map (.int x)) }

/-- The store after the domain of a set variable was changed. -/
def changeSet (s : Store) (y : SetId) (d : SetDomain) (entries : List SetDomain.Entry) : Store :=
  { s with sets := s.sets.modify y.index fun _ => d
           trail := s.trail.append (entries.map (.set y)) }

/-- The store after the domain of a graph variable was changed. -/
def changeGraph (s : Store) (g : GraphId) (d : GraphDomain) (entries : List GraphDomain.Entry) :
    Store :=
  { s with graphs := s.graphs.modify g.index fun _ => d
           trail := s.trail.append (entries.map (.graph g)) }

/-- The store with one more event. -/
def raised (s : Store) (e : Event) (v : VariableId) : Store :=
  { s with events := s.events.raise e v }

theorem int_changeInt {x : IntId} (h : x.index < s.ints.size) (d : IntegerDomain)
    (entries : List IntegerDomain.Entry) : (s.changeInt x d entries).int x = d :=
  Table.getD_modify_self h _ _

theorem set_changeSet {y : SetId} (h : y.index < s.sets.size) (d : SetDomain)
    (entries : List SetDomain.Entry) : (s.changeSet y d entries).set y = d :=
  Table.getD_modify_self h _ _

theorem graph_changeGraph {g : GraphId} (h : g.index < s.graphs.size) (d : GraphDomain)
    (entries : List GraphDomain.Entry) : (s.changeGraph g d entries).graph g = d :=
  Table.getD_modify_self h _ _

theorem int_changeInt_of_ne {x z : IntId} (h : z ≠ x) (d : IntegerDomain)
    (entries : List IntegerDomain.Entry) : (s.changeInt x d entries).int z = s.int z := by
  refine Table.getD_modify_of_ne (fun heq => h ?_) _ _
  cases x; cases z; exact congrArg IntId.mk heq.symm

theorem set_changeSet_of_ne {y z : SetId} (h : z ≠ y) (d : SetDomain)
    (entries : List SetDomain.Entry) : (s.changeSet y d entries).set z = s.set z := by
  refine Table.getD_modify_of_ne (fun heq => h ?_) _ _
  cases y; cases z; exact congrArg SetId.mk heq.symm

theorem graph_changeGraph_of_ne {g z : GraphId} (h : z ≠ g) (d : GraphDomain)
    (entries : List GraphDomain.Entry) : (s.changeGraph g d entries).graph z = s.graph z := by
  refine Table.getD_modify_of_ne (fun heq => h ?_) _ _
  cases g; cases z; exact congrArg GraphId.mk heq.symm

/-! ### Changes as chains of ticks -/

theorem chain_int {x : IntId} {d : IntegerDomain} {entries : List IntegerDomain.Entry}
    (known : x.index < s.ints.size) (h : Chain IntegerDomain.Tick (s.int x) entries d) :
    Chain Tick s (entries.map (.int x)) (s.changeInt x d entries) := by
  have hlift := h.lift (R := Tick) (c := .int x) (f := s.changeInt x)
    (fun {d _ _} made ht => by
      have hknown : x.index < (s.changeInt x d made).ints.size := by simpa [changeInt] using known
      have htick := Tick.int x hknown ((int_changeInt known d made).symm ▸ ht)
      simpa [changeInt, Table.modify_modify, Function.comp_def, Trail.append] using htick) []
  have hsame : s.changeInt x (s.int x) [] = s := by
    simp only [changeInt, Store.int, Table.modify_getD]
    rfl
  rwa [hsame] at hlift

theorem chain_set {y : SetId} {d : SetDomain} {entries : List SetDomain.Entry}
    (known : y.index < s.sets.size) (h : Chain SetDomain.Tick (s.set y) entries d) :
    Chain Tick s (entries.map (.set y)) (s.changeSet y d entries) := by
  have hlift := h.lift (R := Tick) (c := .set y) (f := s.changeSet y)
    (fun {d _ _} made ht => by
      have hknown : y.index < (s.changeSet y d made).sets.size := by simpa [changeSet] using known
      have htick := Tick.set y hknown ((set_changeSet known d made).symm ▸ ht)
      simpa [changeSet, Table.modify_modify, Function.comp_def, Trail.append] using htick) []
  have hsame : s.changeSet y (s.set y) [] = s := by
    simp only [changeSet, Store.set, Table.modify_getD]
    rfl
  rwa [hsame] at hlift

theorem chain_graph {g : GraphId} {d : GraphDomain} {entries : List GraphDomain.Entry}
    (known : g.index < s.graphs.size) (h : Chain GraphDomain.Tick (s.graph g) entries d) :
    Chain Tick s (entries.map (.graph g)) (s.changeGraph g d entries) := by
  have hlift := h.lift (R := Tick) (c := .graph g) (f := s.changeGraph g)
    (fun {d _ _} made ht => by
      have hknown : g.index < (s.changeGraph g d made).graphs.size := by
        simpa [changeGraph] using known
      have htick := Tick.graph g hknown ((graph_changeGraph known d made).symm ▸ ht)
      simpa [changeGraph, Table.modify_modify, Function.comp_def, Trail.append] using htick) []
  have hsame : s.changeGraph g (s.graph g) [] = s := by
    simp only [changeGraph, Store.graph, Table.modify_getD]
    rfl
  rwa [hsame] at hlift

/-! ### Steps -/

/-- A change of one domain, with its entries and its event. -/
inductive Step (s : Store) : Store → Prop where
  /-- The domain of an integer variable changes. -/
  | int (x : IntId) {d : IntegerDomain} {entries : List IntegerDomain.Entry} {e : Event}
      (known : x.index < s.ints.size)
      (chain : Chain IntegerDomain.Tick (s.int x) entries d) (changes : entries ≠ [])
      (reports : IntegerDomain.Reports (s.int x) d e) :
      Step s ((s.changeInt x d entries).raised e (.int x))
  /-- The domain of a set variable changes. -/
  | set (y : SetId) {d : SetDomain} {entries : List SetDomain.Entry} {e : Event}
      (known : y.index < s.sets.size)
      (chain : Chain SetDomain.Tick (s.set y) entries d) (changes : entries ≠ [])
      (reports : SetDomain.Reports (s.set y) d e) :
      Step s ((s.changeSet y d entries).raised e (.set y))
  /-- The domain of a graph variable changes. -/
  | graph (g : GraphId) {d : GraphDomain} {entries : List GraphDomain.Entry} {e : Event}
      (known : g.index < s.graphs.size)
      (chain : Chain GraphDomain.Tick (s.graph g) entries d) (changes : entries ≠ [])
      (reports : GraphDomain.Reports (s.graph g) d e) :
      Step s ((s.changeGraph g d entries).raised e (.graph g))

/-- Waiting events do not matter for ticks. -/
theorem Tick.dropEvents {entry : StoreEntry} (h : Tick s entry t) :
    Tick s.dropEvents entry t.dropEvents := by
  cases h with
  | int x known tick => exact .int (s := s.dropEvents) x known tick
  | set y known tick => exact .set (s := s.dropEvents) y known tick
  | graph g known tick => exact .graph (s := s.dropEvents) g known tick
  | passivation p active => exact .passivation (s := s.dropEvents) p active

theorem extends_of_chain {entries : List StoreEntry} {sink : EventSink}
    (h : Chain Tick s entries t) : Extends s { t with events := sink } := by
  have hdrop : Chain Tick s.dropEvents entries t.dropEvents := h.map fun ht => ht.dropEvents
  exact ⟨entries, hdrop⟩

theorem Step.extends (h : Step s t) : Extends s t := by
  cases h with
  | int x known chain changes reports => exact extends_of_chain (chain_int known chain)
  | set y known chain changes reports => exact extends_of_chain (chain_set known chain)
  | graph g known chain changes reports => exact extends_of_chain (chain_graph known chain)

theorem extends_passivate (s : Store) (p : PropagatorId) : Extends s (s.passivate p) := by
  unfold passivate
  split
  next => exact .refl s
  next h => exact extends_of_chain (.single (.passivation p (Bool.eq_false_iff.mpr h)))

end Store

end FiniteDomain
