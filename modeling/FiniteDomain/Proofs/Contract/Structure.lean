import FiniteDomain.Proofs.Store.Loss
import FiniteDomain.Proofs.Store.Undo
import Mathlib.Data.Set.Card

/-! # What a request to a set or a graph domain comes to

    The contents that such a domain describes lie between its kernel and its
    envelope.  Kernel and envelope can always be moved so that exactly the contents
    obeying a request are left; this rests on laws of elementary changes
    (`Decreasing`) that are the same for sets and for graphs.

    For every reachable store the two parts of a domain fit each other and their
    cached sizes are right (`Coherent`), and the answer to a request tells what has
    become of the contents (`Resolves`): this is `structure_contract`. -/

namespace FiniteDomain

/-! ### Outcomes -/

section Outcomes

variable {D E C : Type}

namespace Outcome

variable {tick : D → E → D → Prop} {wf : D → Prop} {admits : D → C → Prop} {d d' : D}
  {keeps : C → Prop} {o : Outcome D E}

/-- What is left are the contents that obey. -/
theorem admits_iff (laws : Decreasing tick wf admits) (hd : wf d)
    (hobeys : o.Obeys tick admits d keeps) (hexact : o.Exact admits d keeps)
    (ho : o.domain? d = some d') (c : C) : admits d' c ↔ admits d c ∧ keeps c := by
  cases o with
  | empty => cases ho
  | unchanged =>
    obtain rfl := Option.some.inj ho
    exact ⟨fun hc => ⟨hc, hexact c hc⟩, And.left⟩
  | changed after entries e =>
    obtain rfl := Option.some.inj ho
    obtain ⟨hchain, -, hkept⟩ := hobeys
    exact ⟨fun hc => ⟨hchain.narrows laws hd hc, hexact c hc⟩, fun hc => hkept c hc.1 hc.2⟩

/-- An outcome is empty exactly if no content obeys. -/
theorem eq_empty_iff (laws : Decreasing tick wf admits) (hd : wf d)
    (hobeys : o.Obeys tick admits d keeps) (hexact : o.Exact admits d keeps) :
    o = .empty ↔ ∀ c, admits d c → ¬ keeps c := by
  constructor
  · intro heq
    subst heq
    exact hobeys
  · intro hnone
    cases ho : o.domain? d with
    | none =>
      cases o with
      | empty => rfl
      | unchanged => cases ho
      | changed => cases ho
    | some d' =>
      have hd' : wf d' := by
        cases o with
        | empty => cases ho
        | unchanged => exact Option.some.inj ho ▸ hd
        | changed after entries e =>
          exact Option.some.inj ho ▸ hobeys.1.invariant laws.sound hd
      -- what is left is not empty, and it obeys
      obtain ⟨c, hc⟩ := laws.inhabited hd'
      obtain ⟨hin, hkeeps⟩ := (admits_iff laws hd hobeys hexact ho c).mp hc
      exact absurd hkeeps (hnone c hin)

/-- Nothing changes exactly if all contents obey. -/
theorem eq_unchanged_iff (laws : Decreasing tick wf admits) (hd : wf d)
    (hobeys : o.Obeys tick admits d keeps) (hexact : o.Exact admits d keeps) :
    o = .unchanged ↔ ∀ c, admits d c → keeps c := by
  constructor
  · intro heq
    subst heq
    exact hexact
  · intro hall
    cases o with
    | unchanged => rfl
    | empty =>
      obtain ⟨c, hc⟩ := laws.inhabited hd
      exact absurd (hall c hc) (hobeys c hc)
    | changed d' entries e =>
      obtain ⟨hchain, hne, hkept⟩ := hobeys
      obtain ⟨c, hc, hlost⟩ :=
        hchain.exists_loss laws hne hd
      exact absurd (hkept c hc (hall c hc)) hlost

end Outcome

/-- What the answer to a request comes to, for the contents of the domain at which a store is
    read. -/
structure Store.Resolves (s : Store) (read : Store → D) (admits : D → C → Prop)
    (keeps : C → Prop) (n : Narrowed) : Prop where
  /-- Exactly the contents that obey are left, unless the request is refused. -/
  exactly : n.changed? ≠ none →
    ∀ c, admits (read n.store) c ↔ admits (read s) c ∧ keeps c
  /-- Nothing changes exactly if all contents obey. -/
  idle : n.changed? = some false ↔ ∀ c, admits (read s) c → keeps c
  /-- The request is refused exactly if no content obeys. -/
  refused : n.changed? = none ↔ ∀ c, admits (read s) c → ¬ keeps c
  /-- Without a change the store is as it was: its domains, its trail and its events. -/
  untouched : n.changed? ≠ some true → n.store = s

/-- The answer of a store to an outcome of one of its domains. -/
def Store.Commits (s : Store) (read : Store → D) (n : Narrowed) : Outcome D E → Prop
  | .empty => n = ⟨none, s⟩
  | .unchanged => n = ⟨some false, s⟩
  | .changed d _ _ => n.changed? = some true ∧ read n.store = d

theorem Store.Commits.resolves {s : Store} {read : Store → D} {n : Narrowed} {o : Outcome D E}
    {tick : D → E → D → Prop} {wf : D → Prop} {admits : D → C → Prop} {keeps : C → Prop}
    (h : s.Commits read n o) (laws : Decreasing tick wf admits) (hd : wf (read s))
    (hobeys : o.Obeys tick admits (read s) keeps) (hexact : o.Exact admits (read s) keeps) :
    s.Resolves read admits keeps n := by
  have hempty := Outcome.eq_empty_iff laws hd hobeys hexact
  have hidle := Outcome.eq_unchanged_iff laws hd hobeys hexact
  have hleft : ∀ d', o.domain? (read s) = some d' →
      ∀ c, admits d' c ↔ admits (read s) c ∧ keeps c := fun d' =>
    Outcome.admits_iff laws hd hobeys hexact
  cases o with
  | empty =>
    obtain rfl : n = ⟨none, s⟩ := h
    exact ⟨fun hne => absurd rfl hne, ⟨nofun, fun hall => nomatch hidle.mpr hall⟩,
      ⟨fun _ => hempty.mp rfl, fun _ => rfl⟩, fun _ => rfl⟩
  | unchanged =>
    obtain rfl : n = ⟨some false, s⟩ := h
    exact ⟨fun _ => hleft _ rfl, ⟨fun _ => hidle.mp rfl, fun _ => rfl⟩,
      ⟨nofun, fun hnone => nomatch hempty.mpr hnone⟩, fun _ => rfl⟩
  | changed d entries e =>
    obtain ⟨hchanged, rfl⟩ : n.changed? = some true ∧ read n.store = d := h
    refine ⟨fun _ => hleft _ rfl, ⟨fun hno => ?_, fun hall => nomatch hidle.mpr hall⟩,
      ⟨fun hno => ?_, fun hnone => nomatch hempty.mpr hnone⟩, fun hno => absurd hchanged hno⟩
    · rw [hchanged] at hno
      cases hno
    · rw [hchanged] at hno
      cases hno

end Outcomes

/-! ### Sets of bits -/

/-- The size of a set of bits is the number of its members. -/
theorem BitSet.ncard_contains (s : BitSet) :
    {i | s.contains i = true}.ncard = s.rank s.capacity := by
  have hbits : {i | s.contains i = true}
      = ((Finset.range s.capacity).filter fun i => s.contains i = true : Finset Nat) := by
    ext i
    rw [Finset.coe_filter, Set.mem_ofPred_eq, Set.mem_ofPred_eq, Finset.mem_range]
    exact ⟨fun h => ⟨BitSet.lt_capacity_of_contains h, h⟩, And.right⟩
  rw [hbits, Set.ncard_coe_finset, BitSet.rank, Nat.count_eq_card_filter_range]

/-! ### Set domains -/

namespace SetDomain

variable {d : SetDomain}

/-- The kernel is part of the envelope, and the sizes are right. -/
structure Coherent (d : SetDomain) : Prop where
  within : ∀ e, d.inKernel e = true → d.inEnvelope e = true
  envelopeSize : d.envelopeSize = {e | d.inEnvelope e = true}.ncard
  kernelSize : d.kernelSize = {e | d.inKernel e = true}.ncard

/-- As many elements as indices. -/
theorem ncard_elements (hd : d.Wf) {s : BitSet} (hs : s.capacity = d.ground.size) :
    {e | ∃ i, d.ground[i]? = some e ∧ s.contains i = true}.ncard = s.rank d.ground.size := by
  have himage : {e | ∃ i, d.ground[i]? = some e ∧ s.contains i = true}
      = (fun i => d.ground.getD i 0) '' {i | s.contains i = true} := by
    ext e
    constructor
    · intro ⟨i, he, hi⟩
      exact ⟨i, hi, by simp [Array.getD_eq_getD_getElem?, he]⟩
    · intro ⟨i, hi, he⟩
      have hlt : i < d.ground.size := hs ▸ BitSet.lt_capacity_of_contains hi
      refine ⟨i, ?_, hi⟩
      simpa [Array.getD_eq_getD_getElem?, hlt] using he
  -- the ground set has no repetitions
  have hinj : Set.InjOn (fun i => d.ground.getD i 0) {i | s.contains i = true} := by
    intro i hi j hj heq
    have hilt : i < d.ground.size := hs ▸ BitSet.lt_capacity_of_contains hi
    have hjlt : j < d.ground.size := hs ▸ BitSet.lt_capacity_of_contains hj
    have hsame : d.ground[i] = d.ground[j] := by
      simpa [Array.getD_eq_getD_getElem?, hilt, hjlt] using heq
    exact index_unique hd (Array.getElem?_eq_getElem hilt)
      ((Array.getElem?_eq_getElem hjlt).trans (congrArg some hsame.symm))
  rw [himage, hinj.ncard_image, BitSet.ncard_contains, hs]

theorem Wf.coherent (hd : d.Wf) : d.Coherent where
  within := fun _ => inEnvelope_of_inKernel hd
  envelopeSize := by
    simp only [inEnvelope_iff hd]
    rw [ncard_elements hd hd.envelope_capacity, hd.envelopeSize_eq]
  kernelSize := by
    simp only [inKernel_iff hd]
    rw [ncard_elements hd hd.kernel_capacity, hd.kernelSize_eq]

/-- A request to narrow a set domain. -/
inductive Request where
  /-- Keep the sets without the element. -/
  | excludeElement (e : Int)
  /-- Keep the sets with the element. -/
  | includeElement (e : Int)

namespace Request

/-- The set obeys the request. -/
def Keeps : Request → Set Int → Prop
  | .excludeElement e, c => e ∉ c
  | .includeElement e, c => e ∈ c

/-- What the domain makes of the request. -/
def outcome (d : SetDomain) : Request → Outcome SetDomain Entry
  | .excludeElement e => d.excludeElement e
  | .includeElement e => d.includeElement e

/-- The request as it is made of a store. -/
def narrowing (y : SetId) : Request → Narrowing
  | .excludeElement e => .excludeElement y e
  | .includeElement e => .includeElement y e

theorem narrows (hd : d.Wf) (r : Request) : Narrows d r.Keeps (r.outcome d) := by
  cases r with
  | excludeElement e => exact excludeElement_narrows hd e
  | includeElement e => exact includeElement_narrows hd e

/-- The request can be made of every variable that exists. -/
theorem run_narrowing {s : Store} {y : SetId} (known : s.knows (.set y) = true) (r : Request) :
    (r.narrowing y).run s = .ok (s.commitSet y (r.outcome (s.set y))) := by
  have hrequire : s.require (.set y) = .ok () := if_pos known
  have hcheck : (r.narrowing y).check s = .ok () := by
    cases r <;> exact congrArg (· >>= _) hrequire
  have happly : (r.narrowing y).apply s = s.commitSet y (r.outcome (s.set y)) := by
    cases r <;> rfl
  rw [← happly]
  exact congrArg (· >>= _) hcheck

end Request

end SetDomain

/-! ### Graph domains -/

/-- The counts of a graph are right, its arcs are listed alike from both ends, and their ends are
    nodes. -/
structure Digraph.Coherent (g : Digraph) : Prop where
  nodeCount : g.nodeCount = {n | g.hasNode n = true}.ncard
  arcCount : g.arcCount = {a : Nat × Nat | g.hasArc a.1 a.2 = true}.ncard
  successors : ∀ t h, h ∈ g.successorsOf t ↔ g.hasArc t h = true
  mirror : ∀ t h, t ∈ g.predecessorsOf h ↔ h ∈ g.successorsOf t
  ends : ∀ t h, g.hasArc t h = true → g.hasNode t = true ∧ g.hasNode h = true

theorem Digraph.Wf.coherent {order : Nat} {g : Digraph} (hg : g.Wf order) : g.Coherent where
  nodeCount := by
    have hcount := BitSet.ncard_contains g.nodes
    rw [hg.nodes_capacity] at hcount
    rw [hg.nodeCount_eq, ← hcount]
    rfl
  arcCount := by
    have harcs : {a : Nat × Nat | g.hasArc a.1 a.2 = true} = ↑(g.arcsBelow order) := by
      ext a
      exact hg.mem_arcsBelow.symm
    rw [harcs, Set.ncard_coe_finset, hg.arcCount_eq]
  successors := fun _ _ => hg.mem_successorsOf
  mirror := fun _ _ => hg.mem_predecessorsOf.trans hg.mem_successorsOf.symm
  ends := hg.ends

namespace GraphDomain

variable {d : GraphDomain}

/-- Kernel and envelope are coherent, and the kernel is part of the envelope. -/
structure Coherent (d : GraphDomain) : Prop where
  envelope : d.envelope.Coherent
  kernel : d.kernel.Coherent
  within : d.kernel.Within d.envelope

theorem Wf.coherent (hd : d.Wf) : d.Coherent :=
  ⟨hd.envelope.coherent, hd.kernel.coherent, hd.within⟩

/-- A request to narrow a graph domain. -/
inductive Request where
  /-- Keep the graphs without the node. -/
  | excludeNode (n : Nat)
  /-- Keep the graphs with the node. -/
  | includeNode (n : Nat)
  /-- Keep the graphs without the arc. -/
  | excludeArc (tail head : Nat)
  /-- Keep the graphs with the arc. -/
  | includeArc (tail head : Nat)

namespace Request

/-- The graph obeys the request. -/
def Keeps : Request → Subgraph → Prop
  | .excludeNode n, c => n ∉ c.nodes
  | .includeNode n, c => n ∈ c.nodes
  | .excludeArc tail head, c => (tail, head) ∉ c.arcs
  | .includeArc tail head, c => (tail, head) ∈ c.arcs

/-- The request is about a node below the order, or about an arc of any kind. -/
def Proper (order : Nat) : Request → Prop
  | .excludeNode n | .includeNode n => n < order
  | .excludeArc _ _ | .includeArc _ _ => True

/-- What the domain makes of the request. -/
def outcome (d : GraphDomain) : Request → Outcome GraphDomain Entry
  | .excludeNode n => d.excludeNode n
  | .includeNode n => d.includeNode n
  | .excludeArc tail head => d.excludeArc tail head
  | .includeArc tail head => d.includeArc tail head

/-- The request as it is made of a store. -/
def narrowing (g : GraphId) : Request → Narrowing
  | .excludeNode n => .excludeNode g n
  | .includeNode n => .includeNode g n
  | .excludeArc tail head => .excludeArc g tail head
  | .includeArc tail head => .includeArc g tail head

theorem narrows (hd : d.Wf) (r : Request) : Narrows d r.Keeps (r.outcome d) := by
  cases r with
  | excludeNode n => exact excludeNode_narrows hd n
  | includeNode n => exact includeNode_narrows hd n
  | excludeArc tail head => exact excludeArc_narrows d tail head
  | includeArc tail head => exact includeArc_narrows hd tail head

/-- A proper request can be made of every variable that exists. -/
theorem run_narrowing {s : Store} {g : GraphId} (known : s.knows (.graph g) = true)
    {r : Request} (hproper : r.Proper (s.graph g).order) :
    (r.narrowing g).run s = .ok (s.commitGraph g (r.outcome (s.graph g))) := by
  have hrequire : s.require (.graph g) = .ok () := if_pos known
  have hcheck : (r.narrowing g).check s = .ok () := by
    cases r with
    | excludeNode n => exact (congrArg (· >>= _) hrequire).trans (if_pos hproper)
    | includeNode n => exact (congrArg (· >>= _) hrequire).trans (if_pos hproper)
    | excludeArc tail head => exact congrArg (· >>= _) hrequire
    | includeArc tail head => exact congrArg (· >>= _) hrequire
  have happly : (r.narrowing g).apply s = s.commitGraph g (r.outcome (s.graph g)) := by
    cases r <;> rfl
  rw [← happly]
  exact congrArg (· >>= _) hcheck

end Request

end GraphDomain

/-! ### Stores -/

namespace Store

variable {s : Store}

theorem commits_commitSet (hs : s.Wf) {y : SetId} {keeps : Set Int → Prop}
    {o : Outcome SetDomain SetDomain.Entry} (h : SetDomain.Narrows (s.set y) keeps o) :
    s.Commits (·.set y) (s.commitSet y o) o := by
  cases o with
  | empty => rfl
  | unchanged => rfl
  | changed d entries e =>
    obtain ⟨hchain, hne, -⟩ := h.obeys
    exact ⟨rfl, set_changeSet (known_of_chain_set hchain hne hs) d entries⟩

theorem commits_commitGraph (hs : s.Wf) {g : GraphId} {keeps : Subgraph → Prop}
    {o : Outcome GraphDomain GraphDomain.Entry} (h : GraphDomain.Narrows (s.graph g) keeps o) :
    s.Commits (·.graph g) (s.commitGraph g o) o := by
  cases o with
  | empty => rfl
  | unchanged => rfl
  | changed d entries e =>
    obtain ⟨hchain, hne, -⟩ := h.obeys
    exact ⟨rfl, graph_changeGraph (known_of_chain_graph hchain hne hs) d entries⟩

/-- Set and graph domains are coherent whatever was done before, and every request leaves exactly
    the contents that obey it. -/
theorem structure_contract (hs : s.Reachable) :
    (∀ y, (s.set y).Coherent ∧ ∀ r : SetDomain.Request, s.knows (.set y) = true →
      ∃ n, (r.narrowing y).run s = .ok n
        ∧ s.Resolves (·.set y) SetDomain.Admits r.Keeps n)
    ∧ ∀ g, (s.graph g).Coherent ∧ ∀ r : GraphDomain.Request, s.knows (.graph g) = true →
      r.Proper (s.graph g).order → ∃ n, (r.narrowing g).run s = .ok n
        ∧ s.Resolves (·.graph g) GraphDomain.Admits r.Keeps n := by
  have hwf := hs.traced.wf
  constructor
  · intro y
    have hd := hwf.set y
    refine ⟨hd.coherent, fun r known => ⟨_, r.run_narrowing known, ?_⟩⟩
    have hnarrows := r.narrows hd
    exact (commits_commitSet hwf hnarrows).resolves SetDomain.decreasing hd hnarrows.obeys
      hnarrows.exactly
  · intro g
    have hd := hwf.graph g
    refine ⟨hd.coherent, fun r known hproper => ⟨_, r.run_narrowing known hproper, ?_⟩⟩
    have hnarrows := r.narrows hd
    exact (commits_commitGraph hwf hnarrows).resolves GraphDomain.decreasing hd hnarrows.obeys
      hnarrows.exactly

/-- A set, and a graph with a loop and an arc listed twice, of which an arc is certain. -/
def looped : Store :=
  let s := (Store.empty.addSet (SetDomain.subsetsOf [1, 2, 4])).2
  let s := (s.addGraph ⟨3, (Digraph.discrete 3).insertArcs [(0, 0), (0, 1), (0, 1), (1, 2)],
    Digraph.empty 3⟩).2
  (s.includeArc ⟨0⟩ 1 2).store

theorem looped_reachable : looped.Reachable := by
  have hgraph : GraphDomain.subgraphsOf 3 [(0, 0), (0, 1), (0, 1), (1, 2)] = .ok _ := rfl
  have hset : ([1, 2, 4] : List Int).Pairwise (· < ·) := by decide
  exact .move (.addGraph (.addSet .empty hset) hgraph) (.narrow (.includeArc ⟨0⟩ 1 2)) rfl

/-- Without node 0, which has a loop and an arc, those graphs are left that are described and do
    not have it; node 1 belongs to all graphs and cannot be taken away. -/
theorem structure_contract_looped :
    (∃ n, (GraphDomain.Request.excludeNode 0 |>.narrowing ⟨0⟩).run looped = .ok n
      ∧ ∀ c, (n.store.graph ⟨0⟩).Admits c ↔ (looped.graph ⟨0⟩).Admits c ∧ 0 ∉ c.nodes)
    ∧ ∀ c, (looped.graph ⟨0⟩).Admits c → ¬ 1 ∉ c.nodes := by
  obtain ⟨-, hgraph⟩ := structure_contract looped_reachable
  obtain ⟨-, hrequests⟩ := hgraph ⟨0⟩
  obtain ⟨n, hrun, hzero⟩ := hrequests (.excludeNode 0) (by decide) (show 0 < 3 by decide)
  obtain ⟨m, hrun', hone⟩ := hrequests (.excludeNode 1) (by decide) (show 1 < 3 by decide)
  have hsuccess : n.changed? ≠ none := by
    obtain rfl := Except.ok.inj hrun
    decide
  have hrefused : m.changed? = none := by
    obtain rfl := Except.ok.inj hrun'
    decide
  exact ⟨⟨n, hrun, hzero.exactly hsuccess⟩, hone.refused.mp hrefused⟩

end Store

end FiniteDomain
