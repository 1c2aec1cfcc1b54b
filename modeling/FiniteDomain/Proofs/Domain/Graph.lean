import FiniteDomain.Proofs.Domain.Chain
import FiniteDomain.Proofs.Domain.Digraph

/-! # Graph domains and what they admit

    A content of a graph variable is a directed graph; its arcs have their ends
    among its nodes.  A domain admits the contents between its kernel and its
    envelope.

    Removing a node is many changes on the trail: first the arcs at the node, one
    after the other, and the node last.  Each of them keeps the domain
    well-formed, so undoing may stop anywhere in between. -/

namespace FiniteDomain

/-- A directed graph. -/
@[ext]
structure Subgraph where
  /-- The nodes. -/
  nodes : Set Nat
  /-- The arcs, as tail and head. -/
  arcs : Set (Nat × Nat)
  /-- The ends of an arc are nodes. -/
  ends : ∀ t h, (t, h) ∈ arcs → t ∈ nodes ∧ h ∈ nodes

namespace GraphDomain

/-- The kernel is a part of the envelope. -/
structure Wf (d : GraphDomain) : Prop where
  envelope : d.envelope.Wf d.order
  kernel : d.kernel.Wf d.order
  within : d.kernel.Within d.envelope

/-- The graph lies between the kernel and the envelope. -/
structure Admits (d : GraphDomain) (c : Subgraph) : Prop where
  kernelNodes : ∀ n, d.kernel.hasNode n = true → n ∈ c.nodes
  envelopeNodes : ∀ n ∈ c.nodes, d.envelope.hasNode n = true
  kernelArcs : ∀ t h, d.kernel.hasArc t h = true → (t, h) ∈ c.arcs
  envelopeArcs : ∀ t h, (t, h) ∈ c.arcs → d.envelope.hasArc t h = true

/-- A well-formed digraph as a content. -/
def content {order : Nat} {g : Digraph} (hg : g.Wf order) : Subgraph where
  nodes := {n | g.hasNode n = true}
  arcs := {a | g.hasArc a.1 a.2 = true}
  ends := fun t h ha => hg.ends t h ha

theorem admits_envelope {d : GraphDomain} (hd : d.Wf) : d.Admits (content hd.envelope) :=
  ⟨hd.within.nodes, fun _ => id, hd.within.arcs, fun _ _ => id⟩

theorem admits_kernel {d : GraphDomain} (hd : d.Wf) : d.Admits (content hd.kernel) :=
  ⟨fun _ => id, hd.within.nodes, fun _ _ => id, hd.within.arcs⟩

/-! ### Initial domains -/

theorem exists_subgraphsOf {order : Nat} {arcs : List (Nat × Nat)}
    (harcs : ∀ arc ∈ arcs, arc.1 < order ∧ arc.2 < order) :
    ∃ d, subgraphsOf order arcs = .ok d :=
  ⟨_, if_pos (List.all_eq_true.mpr fun arc hmem => by simpa using harcs arc hmem)⟩

theorem subgraphsOf_spec {order : Nat} {arcs : List (Nat × Nat)} {d : GraphDomain}
    (h : subgraphsOf order arcs = .ok d) :
    d.Wf ∧ d.order = order ∧ d.kernel = Digraph.empty order
      ∧ (∀ n, d.envelope.hasNode n = true ↔ n < order)
      ∧ ∀ t u, d.envelope.hasArc t u = true ↔ (t, u) ∈ arcs := by
  unfold subgraphsOf at h
  split at h
  next hall =>
    obtain rfl := Except.ok.inj h
    have hends : ∀ a ∈ arcs, (Digraph.discrete order).hasNode a.1 = true
        ∧ (Digraph.discrete order).hasNode a.2 = true := by
      intro a ha
      have hlt := List.all_eq_true.mp hall a ha
      simpa using hlt
    obtain ⟨hwf, hnodes, harcs⟩ := (Digraph.discrete_wf order).insertArcs hends
    refine ⟨⟨hwf, Digraph.empty_wf order, ?_, ?_⟩, rfl, rfl, ?_, ?_⟩
    · intro n hn
      simp at hn
    · intro t h ha
      simp at ha
    · intro n
      rw [hnodes, Digraph.hasNode_discrete, decide_eq_true_eq]
    · intro t u
      rw [harcs, Digraph.hasArc_discrete]
      simp
  · cases h

/-- The domain admits the graphs on the nodes with arcs among the listed ones. -/
theorem admits_subgraphsOf {order : Nat} {arcs : List (Nat × Nat)} {d : GraphDomain}
    (h : subgraphsOf order arcs = .ok d) {c : Subgraph} :
    d.Admits c ↔ (∀ n ∈ c.nodes, n < order) ∧ ∀ t u, (t, u) ∈ c.arcs → (t, u) ∈ arcs := by
  obtain ⟨-, -, hkernel, hnodes, harcs⟩ := subgraphsOf_spec h
  constructor
  · intro hc
    exact ⟨fun n hn => (hnodes n).mp (hc.envelopeNodes n hn),
      fun t u harc => (harcs t u).mp (hc.envelopeArcs t u harc)⟩
  · rintro ⟨hinside, hamong⟩
    refine ⟨fun n hn => ?_, fun n hn => (hnodes n).mpr (hinside n hn), fun t u harc => ?_,
      fun t u harc => (harcs t u).mpr (hamong t u harc)⟩
    · simp [hkernel] at hn
    · simp [hkernel] at harc

theorem default_wf : (default : GraphDomain).Wf :=
  (subgraphsOf_spec (show subgraphsOf 0 [] = .ok default from rfl)).1

/-! ### Optional nodes and arcs -/

variable {d d' : GraphDomain} {entry : Entry}

theorem card_optionalNodes (hd : d.Wf) :
    (d.envelope.missingNodes d.kernel d.order).card + d.kernel.nodeCount
      = d.envelope.nodeCount :=
  hd.within.card_missingNodes hd.envelope hd.kernel

theorem card_optionalArcs (hd : d.Wf) :
    (d.envelope.missingArcs d.kernel d.order).card + d.kernel.arcCount = d.envelope.arcCount :=
  hd.within.card_missingArcs hd.envelope hd.kernel

/-- A domain is fixed as soon as nothing is optional. -/
theorem isFixed_iff (hd : d.Wf) : d.isFixed = true ↔ d.envelope.Within d.kernel := by
  have hnodes := card_optionalNodes hd
  have harcs := card_optionalArcs hd
  rw [isFixed, Bool.and_eq_true, beq_iff_eq, beq_iff_eq]
  -- both differences are counted, and a finite set is empty just if it has no elements
  constructor
  · rintro ⟨hn, ha⟩
    rw [hn, Nat.add_eq_right, Finset.card_eq_zero] at hnodes
    rw [ha, Nat.add_eq_right, Finset.card_eq_zero] at harcs
    constructor
    · intro n hin
      by_contra hout
      have hmem := hd.envelope.mem_missingNodes.mpr ⟨hin, hout⟩
      rw [hnodes] at hmem
      exact Finset.notMem_empty n hmem
    · intro t h hin
      by_contra hout
      have hmem := (hd.envelope.mem_missingArcs (a := (t, h))).mpr ⟨hin, hout⟩
      rw [harcs] at hmem
      exact Finset.notMem_empty (t, h) hmem
  · intro hall
    have hn : d.envelope.missingNodes d.kernel d.order = ∅ := by
      rw [Finset.eq_empty_iff_forall_notMem]
      intro n hmem
      obtain ⟨hin, hout⟩ := hd.envelope.mem_missingNodes.mp hmem
      exact hout (hall.nodes n hin)
    have ha : d.envelope.missingArcs d.kernel d.order = ∅ := by
      rw [Finset.eq_empty_iff_forall_notMem]
      intro a hmem
      obtain ⟨hin, hout⟩ := hd.envelope.mem_missingArcs.mp hmem
      exact hout (hall.arcs _ _ hin)
    rw [hn, Finset.card_empty] at hnodes
    rw [ha, Finset.card_empty] at harcs
    omega

/-- A fixed domain admits one graph only. -/
theorem admits_unique (hd : d.Wf) (hf : d.isFixed = true) {c : Subgraph} (hc : d.Admits c) :
    c = content hd.kernel := by
  have hall := (isFixed_iff hd).mp hf
  ext x
  · exact ⟨fun h => hall.nodes x (hc.envelopeNodes x h), hc.kernelNodes x⟩
  · exact ⟨fun h => hall.arcs x.1 x.2 (hc.envelopeArcs x.1 x.2 h), hc.kernelArcs x.1 x.2⟩

/-! ### Ticks -/

/-- An elementary change of a domain, with the entry that records it. -/
inductive Tick : GraphDomain → Entry → GraphDomain → Prop where
  /-- An optional node without arcs leaves the envelope. -/
  | excludeNode {d : GraphDomain} (n : Nat) (hin : d.envelope.hasNode n = true)
      (hout : d.kernel.hasNode n = false)
      (hisolated : ∀ t h, d.envelope.hasArc t h = true → t ≠ n ∧ h ≠ n) :
      Tick d (.nodeEnvelopeRemoval n) { d with envelope := d.envelope.eraseNode n }
  /-- An optional node enters the kernel. -/
  | includeNode {d : GraphDomain} (n : Nat) (hin : d.envelope.hasNode n = true)
      (hout : d.kernel.hasNode n = false) :
      Tick d (.nodeKernelAddition n) { d with kernel := d.kernel.insertNode n }
  /-- An optional arc leaves the envelope. -/
  | excludeArc {d : GraphDomain} (t h : Nat) (hin : d.envelope.hasArc t h = true)
      (hout : d.kernel.hasArc t h = false) :
      Tick d (.arcEnvelopeRemoval t h) { d with envelope := d.envelope.eraseArc t h }
  /-- An optional arc between nodes of the kernel enters the kernel. -/
  | includeArc {d : GraphDomain} (t h : Nat) (hin : d.envelope.hasArc t h = true)
      (hout : d.kernel.hasArc t h = false) (ht : d.kernel.hasNode t = true)
      (hh : d.kernel.hasNode h = true) :
      Tick d (.arcKernelAddition t h) { d with kernel := d.kernel.insertArc t h }

namespace Tick

theorem order_eq (ht : Tick d entry d') : d'.order = d.order := by
  cases ht <;> rfl

theorem wf (ht : Tick d entry d') (hd : d.Wf) : d'.Wf := by
  cases ht with
  | excludeNode n hin hout hisolated =>
    refine ⟨hd.envelope.eraseNode hin hisolated, hd.kernel, ?_, hd.within.arcs⟩
    intro m hm
    -- a node of the kernel is not the one that leaves
    have hne : m ≠ n := by
      rintro rfl
      rw [show d.kernel.hasNode m = true from hm] at hout
      cases hout
    simp [hne, hd.within.nodes m hm]
  | includeNode n hin hout =>
    have hn := hd.envelope.lt_of_hasNode hin
    refine ⟨hd.envelope, hd.kernel.insertNode hn hout, ?_, hd.within.arcs⟩
    intro m hm
    rw [hd.kernel.hasNode_insertNode hn, Bool.or_eq_true, decide_eq_true_eq] at hm
    rcases hm with rfl | hm
    · exact hin
    · exact hd.within.nodes m hm
  | excludeArc t h hin hout =>
    refine ⟨hd.envelope.eraseArc hin, hd.kernel, hd.within.nodes, ?_⟩
    intro a b hab
    have hne : ¬ (a = t ∧ b = h) := by
      rintro ⟨rfl, rfl⟩
      rw [show d.kernel.hasArc a b = true from hab] at hout
      cases hout
    exact Digraph.hasArc_eraseArc_iff.mpr ⟨hd.within.arcs a b hab, hne⟩
  | includeArc t h hin hout htail hhead =>
    obtain ⟨hlt, hlt'⟩ := hd.envelope.lt_of_hasArc hin
    refine ⟨hd.envelope, hd.kernel.insertArc htail hhead hout, hd.within.nodes, ?_⟩
    intro a b hab
    rw [hd.kernel.hasArc_insertArc hlt hlt', Bool.or_eq_true, decide_eq_true_eq] at hab
    rcases hab with ⟨rfl, rfl⟩ | hab
    · exact hin
    · exact hd.within.arcs a b hab

/-- The entry of a tick takes it back exactly. -/
theorem undo (ht : Tick d entry d') (hd : d.Wf) : d'.undo entry = d := by
  cases ht with
  | excludeNode n hin hout hisolated =>
    simp only [GraphDomain.undo, hd.envelope.insert_eraseNode hin]
  | includeNode n hin hout =>
    have hn := hd.envelope.lt_of_hasNode hin
    simp only [GraphDomain.undo, hd.kernel.erase_insertNode hn hout]
  | excludeArc t h hin hout =>
    simp only [GraphDomain.undo, hd.envelope.insert_eraseArc hin]
  | includeArc t h hin hout htail hhead =>
    obtain ⟨hlt, hlt'⟩ := hd.envelope.lt_of_hasArc hin
    simp only [GraphDomain.undo, hd.kernel.erase_insertArc hlt hlt' hout]

/-- A tick only removes contents. -/
theorem admits (ht : Tick d entry d') (hd : d.Wf) {c : Subgraph} (hc : d'.Admits c) :
    d.Admits c := by
  cases ht with
  | excludeNode n hin hout hisolated =>
    refine ⟨hc.kernelNodes, fun m hm => ?_, hc.kernelArcs, hc.envelopeArcs⟩
    have h := hc.envelopeNodes m hm
    rw [Digraph.hasNode_eraseNode, Bool.and_eq_true] at h
    exact h.2
  | includeNode n hin hout =>
    have hn := hd.envelope.lt_of_hasNode hin
    refine ⟨fun m hm => hc.kernelNodes m ?_, hc.envelopeNodes, hc.kernelArcs,
      hc.envelopeArcs⟩
    rw [hd.kernel.hasNode_insertNode hn, hm, Bool.or_true]
  | excludeArc t h hin hout =>
    refine ⟨hc.kernelNodes, hc.envelopeNodes, hc.kernelArcs, fun a b hab => ?_⟩
    exact (Digraph.hasArc_eraseArc_iff.mp (hc.envelopeArcs a b hab)).1
  | includeArc t h hin hout htail hhead =>
    obtain ⟨hlt, hlt'⟩ := hd.envelope.lt_of_hasArc hin
    refine ⟨hc.kernelNodes, hc.envelopeNodes, fun a b hab => hc.kernelArcs a b ?_,
      hc.envelopeArcs⟩
    rw [hd.kernel.hasArc_insertArc hlt hlt', hab, Bool.or_true]

/-- A tick decides an optional node or arc. -/
theorem slack_lt (ht : Tick d entry d') (hd : d.Wf) : d'.slack < d.slack := by
  have hn := card_optionalNodes hd
  have ha := card_optionalArcs hd
  have hn' := card_optionalNodes (ht.wf hd)
  have ha' := card_optionalArcs (ht.wf hd)
  unfold slack
  cases ht with
  | excludeNode n hin hout hisolated =>
    have hpos := hd.envelope.nodeCount_pos hin
    simp only [Digraph.eraseNode] at hn' ha' ⊢
    omega
  | includeNode n hin hout =>
    simp only [Digraph.insertNode] at hn' ha' ⊢
    omega
  | excludeArc t h hin hout =>
    have hpos := hd.envelope.arcCount_pos hin
    simp only [Digraph.eraseArc] at hn' ha' ⊢
    omega
  | includeArc t h hin hout htail hhead =>
    simp only [Digraph.insertArc] at hn' ha' ⊢
    omega

/-- A tick takes some graph away. -/
theorem loses (ht : Tick d entry d') (hd : d.Wf) : ∃ c, d.Admits c ∧ ¬ d'.Admits c := by
  have hd' := ht.wf hd
  cases ht with
  | excludeNode n hin hout hisolated =>
    -- what is excluded was in the largest graph, what is included was not in the smallest one
    refine ⟨_, admits_envelope hd, fun hadmits => ?_⟩
    have hnode := hadmits.envelopeNodes n hin
    rw [Digraph.hasNode_eraseNode] at hnode
    simp at hnode
  | includeNode n hin hout =>
    refine ⟨_, admits_kernel hd, fun hadmits => ?_⟩
    have hnode : d.kernel.hasNode n = true := hadmits.kernelNodes n (by
      rw [hd.kernel.hasNode_insertNode (hd.envelope.lt_of_hasNode hin)]
      simp)
    rw [hout] at hnode
    cases hnode
  | excludeArc t h hin hout =>
    refine ⟨_, admits_envelope hd, fun hadmits => ?_⟩
    have harc := hadmits.envelopeArcs t h hin
    rw [Digraph.hasArc_eraseArc] at harc
    simp at harc
  | includeArc t h hin hout htail hhead =>
    refine ⟨_, admits_kernel hd, fun hadmits => ?_⟩
    have harc : d.kernel.hasArc t h = true := hadmits.kernelArcs t h (by
      rw [hd.kernel.hasArc_insertArc (hd.envelope.lt_of_hasArc hin).1
        (hd.envelope.lt_of_hasArc hin).2]
      simp)
    rw [hout] at harc
    cases harc

end Tick

theorem decreasing : Decreasing Tick Wf Admits where
  sound := Tick.wf
  narrows := fun ht hd _ hc => ht.admits hd hc
  loses := Tick.loses
  inhabited := fun hd => ⟨_, admits_kernel hd⟩

theorem Chain.wf {entries : List Entry} (h : Chain Tick d entries d') (hd : d.Wf) : d'.Wf :=
  FiniteDomain.Chain.invariant h (fun ht hd => ht.wf hd) hd

/-- Optional arcs can leave the envelope one after the other. -/
theorem chain_eraseArcs (hd : d.Wf) (arcs : List (Nat × Nat)) (hnodup : arcs.Nodup)
    (hin : ∀ a ∈ arcs, d.envelope.hasArc a.1 a.2 = true)
    (hout : ∀ a ∈ arcs, d.kernel.hasArc a.1 a.2 = false) :
    Chain Tick d (arcs.map fun a => .arcEnvelopeRemoval a.1 a.2)
      { d with envelope := arcs.foldl (fun g a => g.eraseArc a.1 a.2) d.envelope } := by
  induction arcs generalizing d with
  | nil => exact .nil d
  | cons a rest ih =>
    rw [List.nodup_cons] at hnodup
    have htick := Tick.excludeArc a.1 a.2 (hin a (List.mem_cons_self ..))
      (hout a (List.mem_cons_self ..))
    refine .cons htick (ih (htick.wf hd) hnodup.2 ?_ ?_)
    · intro b hb
      have hne : ¬ (b.1 = a.1 ∧ b.2 = a.2) := fun heq =>
        hnodup.1 (Prod.ext heq.1 heq.2 ▸ hb)
      exact Digraph.hasArc_eraseArc_iff.mpr ⟨hin b (List.mem_cons_of_mem _ hb), hne⟩
    · exact fun b hb => hout b (List.mem_cons_of_mem _ hb)

theorem hasArc_eraseArcs (arcs : List (Nat × Nat)) (g : Digraph) (t h : Nat) :
    (arcs.foldl (fun g a => g.eraseArc a.1 a.2) g).hasArc t h = true
      ↔ g.hasArc t h = true ∧ (t, h) ∉ arcs := by
  induction arcs generalizing g with
  | nil => simp
  | cons a rest ih =>
    rw [List.foldl_cons, ih, Digraph.hasArc_eraseArc_iff, List.mem_cons, not_or, Prod.ext_iff,
      and_assoc]

theorem hasNode_eraseArcs (arcs : List (Nat × Nat)) (g : Digraph) (n : Nat) :
    (arcs.foldl (fun g a => g.eraseArc a.1 a.2) g).hasNode n = g.hasNode n := by
  induction arcs generalizing g with
  | nil => rfl
  | cons a rest ih => exact ih _

/-! ### Narrowings -/

/-- The event describes the change: it tells whether the envelope or the kernel has changed. -/
structure Reports (d d' : GraphDomain) (e : Event) : Prop where
  /-- Who watches the envelope hears of every change of it. -/
  envelope : d'.envelope ≠ d.envelope → e = .envelopeRemoval
  /-- Who watches the kernel hears of every change of it. -/
  kernel : d'.kernel ≠ d.kernel → e = .kernelAddition

/-- The event of an outcome describes its change. -/
def OutcomeReports (d : GraphDomain) : Outcome GraphDomain Entry → Prop
  | .changed d' _ e => Reports d d' e
  | _ => True

/-- What is known of the outcome of a narrowing. -/
structure Narrows (d : GraphDomain) (request : Subgraph → Prop)
    (o : Outcome GraphDomain Entry) : Prop where
  obeys : o.Obeys Tick Admits d request
  exactly : o.Exact Admits d request
  reports : OutcomeReports d o

/-! #### Excluding a node -/

theorem mem_leaving {g : Digraph} {order : Nat} (hg : g.Wf order) {n : Nat} {a : Nat × Nat} :
    a ∈ (g.successorsOf n).map (fun head => (n, head)) ↔ a.1 = n ∧ g.hasArc a.1 a.2 = true := by
  simp only [List.mem_map, hg.mem_successorsOf]
  constructor
  · rintro ⟨u, hu, rfl⟩
    exact ⟨rfl, hu⟩
  · rintro ⟨rfl, ha⟩
    exact ⟨a.2, ha, rfl⟩

theorem mem_entering {g : Digraph} {order : Nat} (hg : g.Wf order) {n : Nat} {a : Nat × Nat} :
    a ∈ (g.predecessorsOf n).map (fun tail => (tail, n)) ↔ a.2 = n ∧ g.hasArc a.1 a.2 = true := by
  simp only [List.mem_map, hg.mem_predecessorsOf]
  constructor
  · rintro ⟨t, ht, rfl⟩
    exact ⟨rfl, ht⟩
  · rintro ⟨rfl, ha⟩
    exact ⟨a.1, ha, rfl⟩

/-- Without the arcs that leave the node and then those that enter it, no arc is left at it. -/
theorem hasArc_isolated {leaving entering : List (Nat × Nat)} {g : Digraph} {n : Nat}
    (hleaving : ∀ a, a ∈ leaving ↔ a.1 = n ∧ g.hasArc a.1 a.2 = true)
    (hentering : ∀ a, a ∈ entering ↔ a.2 = n
      ∧ (leaving.foldl (fun g a => g.eraseArc a.1 a.2) g).hasArc a.1 a.2 = true) (t u : Nat) :
    (entering.foldl (fun g a => g.eraseArc a.1 a.2)
        (leaving.foldl (fun g a => g.eraseArc a.1 a.2) g)).hasArc t u = true
      ↔ g.hasArc t u = true ∧ t ≠ n ∧ u ≠ n := by
  simp only [hasArc_eraseArcs, hentering, hleaving]
  constructor
  · rintro ⟨⟨ha, ht⟩, hu⟩
    exact ⟨ha, fun heq => ht ⟨heq, ha⟩, fun heq => hu ⟨heq, ha, ht⟩⟩
  · rintro ⟨ha, ht, hu⟩
    exact ⟨⟨ha, fun h => ht h.1⟩, fun h => hu h.1⟩

theorem excludeNode_narrows (hd : d.Wf) (n : Nat) :
    Narrows d (n ∉ ·.nodes) (d.excludeNode n) := by
  unfold excludeNode
  split
  next h =>
    refine ⟨trivial, fun c hc hn => ?_, trivial⟩
    have := hc.envelopeNodes n hn
    simp [this] at h
  split
  next h hk => exact ⟨fun c hc hn => hn (hc.kernelNodes n hk), trivial, trivial⟩
  next h hk =>
    have hin : d.envelope.hasNode n = true := by simpa using h
    have hout : d.kernel.hasNode n = false := by simpa using hk
    -- no arc of the kernel ends at the node, so that its arcs can be taken from the envelope
    have hkernel : ∀ t u, t = n ∨ u = n → d.kernel.hasArc t u = false := by
      intro t u htu
      rw [Bool.eq_false_iff]
      intro ha
      obtain ⟨ht, hu⟩ := hd.kernel.ends t u ha
      rcases htu with rfl | rfl
      · exact hk ht
      · exact hk hu
    extract_lets leaving rest entering isolated
    have hleaving : ∀ a, a ∈ leaving ↔ a.1 = n ∧ d.envelope.hasArc a.1 a.2 = true := fun a =>
      mem_leaving hd.envelope
    have hfirst := chain_eraseArcs hd leaving
      ((d.envelope.nodup_successorsOf n).map fun u v huv => (Prod.ext_iff.mp huv).2)
      (fun a ha => ((hleaving a).mp ha).2)
      (fun a ha => hkernel _ _ (Or.inl ((hleaving a).mp ha).1))
    have hrest : (GraphDomain.mk d.order rest d.kernel).Wf := Chain.wf hfirst hd
    have hentering : ∀ a, a ∈ entering ↔ a.2 = n ∧ rest.hasArc a.1 a.2 = true := fun a =>
      mem_entering hrest.envelope
    have hsecond := chain_eraseArcs hrest entering
      ((rest.nodup_predecessorsOf n).map fun u v huv => (Prod.ext_iff.mp huv).1)
      (fun a ha => ((hentering a).mp ha).2)
      (fun a ha => hkernel _ _ (Or.inr ((hentering a).mp ha).1))
    have harcs : ∀ t u, isolated.hasArc t u = true
        ↔ d.envelope.hasArc t u = true ∧ t ≠ n ∧ u ≠ n := hasArc_isolated hleaving hentering
    have hnodes : ∀ m, isolated.hasNode m = d.envelope.hasNode m := fun m =>
      (hasNode_eraseArcs entering rest m).trans (hasNode_eraseArcs leaving d.envelope m)
    have hlast := Tick.excludeNode (d := ⟨d.order, isolated, d.kernel⟩) n
      ((hnodes n).trans hin) hout fun t u ha => ((harcs t u).mp ha).2
    refine ⟨⟨?_, by simp, ?_⟩, ?_, ⟨fun _ => rfl, fun hne => absurd rfl hne⟩⟩
    · rw [List.map_append]
      exact (hfirst.append hsecond).append (.single hlast)
    · intro c hc hn
      -- the contents have neither the node nor an arc at it
      have hne : ∀ m ∈ c.nodes, m ≠ n := by
        rintro m hm rfl
        exact hn hm
      refine ⟨hc.kernelNodes, fun m hm => ?_, hc.kernelArcs, fun t u ha => ?_⟩
      · rw [Digraph.hasNode_eraseNode, hnodes, hc.envelopeNodes m hm]
        simpa using hne m hm
      · obtain ⟨ht, hu⟩ := c.ends t u ha
        exact (harcs t u).mpr ⟨hc.envelopeArcs t u ha, hne t ht, hne u hu⟩
    · intro c hc hn
      have hgone := hc.envelopeNodes n hn
      simp at hgone

/-! #### The other narrowings -/

theorem includeNode_narrows (hd : d.Wf) (n : Nat) :
    Narrows d (n ∈ ·.nodes) (d.includeNode n) := by
  unfold includeNode
  split
  next h =>
    refine ⟨fun c hc hn => ?_, trivial, trivial⟩
    have := hc.envelopeNodes n hn
    simp [this] at h
  split
  next h hk => exact ⟨trivial, fun c hc => hc.kernelNodes n hk, trivial⟩
  next h hk =>
    have hin : d.envelope.hasNode n = true := by simpa using h
    have hout : d.kernel.hasNode n = false := by simpa using hk
    have hkernel := hd.kernel.hasNode_insertNode (hd.envelope.lt_of_hasNode hin)
    refine ⟨⟨.single (.includeNode n hin hout), by simp, ?_⟩, ?_,
      ⟨fun hne => absurd rfl hne, fun _ => rfl⟩⟩
    · intro c hc hn
      refine ⟨fun m hm => ?_, hc.envelopeNodes, hc.kernelArcs, hc.envelopeArcs⟩
      rw [hkernel, Bool.or_eq_true, decide_eq_true_eq] at hm
      rcases hm with rfl | hm
      · exact hn
      · exact hc.kernelNodes m hm
    · intro c hc
      exact hc.kernelNodes n (by simp [hkernel])

theorem excludeArc_narrows (d : GraphDomain) (t u : Nat) :
    Narrows d ((t, u) ∉ ·.arcs) (d.excludeArc t u) := by
  unfold excludeArc
  split
  next h =>
    refine ⟨trivial, fun c hc ha => ?_, trivial⟩
    have := hc.envelopeArcs t u ha
    simp [this] at h
  split
  next h hk => exact ⟨fun c hc ha => ha (hc.kernelArcs t u hk), trivial, trivial⟩
  next h hk =>
    have hin : d.envelope.hasArc t u = true := by simpa using h
    have hout : d.kernel.hasArc t u = false := by simpa using hk
    refine ⟨⟨.single (.excludeArc t u hin hout), by simp, ?_⟩, ?_,
      ⟨fun _ => rfl, fun hne => absurd rfl hne⟩⟩
    · intro c hc ha
      refine ⟨hc.kernelNodes, hc.envelopeNodes, hc.kernelArcs, fun a b hab => ?_⟩
      refine Digraph.hasArc_eraseArc_iff.mpr ⟨hc.envelopeArcs a b hab, ?_⟩
      rintro ⟨rfl, rfl⟩
      exact ha hab
    · intro c hc ha
      exact (Digraph.hasArc_eraseArc_iff.mp (hc.envelopeArcs t u ha)).2 ⟨rfl, rfl⟩

/-- Missing ends enter the kernel one after the other. -/
theorem chain_insertNodes (hd : d.Wf) {nodes : List Nat} (hnodup : nodes.Nodup)
    (hin : ∀ n ∈ nodes, d.envelope.hasNode n = true)
    (hout : ∀ n ∈ nodes, d.kernel.hasNode n = false) :
    Chain Tick d (nodes.map .nodeKernelAddition)
      { d with kernel := nodes.foldl Digraph.insertNode d.kernel } := by
  induction nodes generalizing d with
  | nil => exact .nil d
  | cons n rest ih =>
    rw [List.nodup_cons] at hnodup
    have hn := hin n (List.mem_cons_self ..)
    have htick := Tick.includeNode n hn (hout n (List.mem_cons_self ..))
    refine .cons htick (ih (htick.wf hd) hnodup.2 ?_ ?_)
    · exact fun m hm => hin m (List.mem_cons_of_mem _ hm)
    · intro m hm
      have hne : m ≠ n := by
        rintro rfl
        exact hnodup.1 hm
      rw [hd.kernel.hasNode_insertNode (hd.envelope.lt_of_hasNode hn),
        hout m (List.mem_cons_of_mem _ hm)]
      simpa using hne

theorem hasArc_insertNodes (nodes : List Nat) (g : Digraph) (t h : Nat) :
    (nodes.foldl Digraph.insertNode g).hasArc t h = g.hasArc t h := by
  induction nodes generalizing g with
  | nil => rfl
  | cons n rest ih => exact ih _

theorem hasNode_insertNodes {order : Nat} {nodes : List Nat} {g : Digraph} (hg : g.Wf order)
    (hlt : ∀ n ∈ nodes, n < order) (hnodup : nodes.Nodup)
    (hout : ∀ n ∈ nodes, g.hasNode n = false) (m : Nat) :
    (nodes.foldl Digraph.insertNode g).hasNode m = true ↔ g.hasNode m = true ∨ m ∈ nodes := by
  induction nodes generalizing g with
  | nil => simp
  | cons n rest ih =>
    rw [List.nodup_cons] at hnodup
    have hn := hlt n (List.mem_cons_self ..)
    have hview := hg.hasNode_insertNode hn
    rw [List.foldl_cons, ih (hg.insertNode hn (hout n (List.mem_cons_self ..)))
      (fun m hm => hlt m (List.mem_cons_of_mem _ hm)) hnodup.2, hview, List.mem_cons]
    · simp only [Bool.or_eq_true, decide_eq_true_eq]
      rw [or_comm (a := m = n), or_assoc]
    · intro m hm
      have hne : m ≠ n := by
        rintro rfl
        exact hnodup.1 hm
      rw [hview, hout m (List.mem_cons_of_mem _ hm)]
      simpa using hne

theorem mem_missing {g : Digraph} {t u n : Nat} :
    n ∈ (if t = u then [t] else [t, u]).filter (fun n => !g.hasNode n)
      ↔ (n = t ∨ n = u) ∧ g.hasNode n = false := by
  rw [List.mem_filter, Bool.not_eq_true']
  refine and_congr_left fun _ => ?_
  split
  next heq => subst heq; simp
  next hne => simp

/-- A loop has one end only. -/
theorem nodup_missing (g : Digraph) (t u : Nat) :
    ((if t = u then [t] else [t, u]).filter fun n => !g.hasNode n).Nodup := by
  refine List.Nodup.filter _ ?_
  split
  next heq => simp
  next hne => simpa using hne

theorem includeArc_narrows (hd : d.Wf) (t u : Nat) :
    Narrows d ((t, u) ∈ ·.arcs) (d.includeArc t u) := by
  unfold includeArc
  split
  next h =>
    refine ⟨fun c hc ha => ?_, trivial, trivial⟩
    have := hc.envelopeArcs t u ha
    simp [this] at h
  split
  next h hk => exact ⟨trivial, fun c hc => hc.kernelArcs t u hk, trivial⟩
  next h hk =>
    have hin : d.envelope.hasArc t u = true := by simpa using h
    have hout : d.kernel.hasArc t u = false := by simpa using hk
    obtain ⟨htail, hhead⟩ := hd.envelope.ends t u hin
    extract_lets ends missing
    -- the ends come first; an end may be in the kernel already
    have hmissing : ∀ n, n ∈ missing ↔ (n = t ∨ n = u) ∧ d.kernel.hasNode n = false := fun n =>
      mem_missing
    have hnodup : missing.Nodup := nodup_missing d.kernel t u
    have henvelope : ∀ n ∈ missing, d.envelope.hasNode n = true := by
      intro n hn
      rcases ((hmissing n).mp hn).1 with rfl | rfl
      · exact htail
      · exact hhead
    have hfirst := chain_insertNodes hd hnodup henvelope fun n hn => ((hmissing n).mp hn).2
    have hwith := Chain.wf hfirst hd
    have hnodes : ∀ m, (missing.foldl Digraph.insertNode d.kernel).hasNode m = true
        ↔ d.kernel.hasNode m = true ∨ m = t ∨ m = u := by
      intro m
      rw [hasNode_insertNodes hd.kernel
        (fun n hn => hd.envelope.lt_of_hasNode (henvelope n hn)) hnodup
        (fun n hn => ((hmissing n).mp hn).2), hmissing]
      cases hm : d.kernel.hasNode m <;> simp
    have hlast := Tick.includeArc (d := ⟨d.order, d.envelope, missing.foldl Digraph.insertNode d.kernel⟩)
      t u hin
      ((hasArc_insertNodes missing d.kernel t u).trans hout)
      ((hnodes t).mpr (Or.inr (Or.inl rfl))) ((hnodes u).mpr (Or.inr (Or.inr rfl)))
    have harcs : ∀ a b, ((missing.foldl Digraph.insertNode d.kernel).insertArc t u).hasArc a b
        = true ↔ (a = t ∧ b = u) ∨ d.kernel.hasArc a b = true := by
      intro a b
      obtain ⟨hlt, hlt'⟩ := hd.envelope.lt_of_hasArc hin
      rw [hwith.kernel.hasArc_insertArc hlt hlt', hasArc_insertNodes, Bool.or_eq_true,
        decide_eq_true_eq]
    refine ⟨⟨hfirst.append (.single hlast), by simp, ?_⟩, ?_,
      ⟨fun hne => absurd rfl hne, fun _ => rfl⟩⟩
    · intro c hc ha
      obtain ⟨ht, hu⟩ := c.ends t u ha
      refine ⟨fun m hm => ?_, hc.envelopeNodes, fun a b hab => ?_, hc.envelopeArcs⟩
      · rcases (hnodes m).mp hm with hm | rfl | rfl
        · exact hc.kernelNodes m hm
        · exact ht
        · exact hu
      · rcases (harcs a b).mp hab with ⟨rfl, rfl⟩ | hab
        · exact ha
        · exact hc.kernelArcs a b hab
    · intro c hc
      exact hc.kernelArcs t u ((harcs t u).mpr (Or.inl ⟨rfl, rfl⟩))

end GraphDomain

end FiniteDomain
