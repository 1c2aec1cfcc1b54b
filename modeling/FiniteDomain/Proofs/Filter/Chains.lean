import FiniteDomain.Proofs.Filter.Sound

/-! # What is checked of a fixed graph

    The filter of paths follows chains through the first neighbour of each node,
    which says everything about the cycles of a graph only where a node has no more
    than one neighbour.  On a fixed graph it has nothing to object to just if the
    graph satisfies `ChainsOnly`, and its judgement is that of `TracedBack`.

    Both are weaker than `PathsOnly`, the absence of cycles; if no node has two
    predecessors, they come to the same (`TracedBack.pathsOnly`). -/

namespace FiniteDomain

namespace Filter

/-! ### First neighbours -/

/-- The first neighbour of a node. -/
def FirstJoined (d : Direction) (c : Subgraph) (n m : Nat) : Prop := IsLeast {k | Joined d c n k} m

variable {d : Direction} {c : Subgraph} {source sink n m : Nat}

/-- Following the first predecessors of nodes never leads back, as far as the source and the sink
    are concerned no arc is wrong. -/
structure TracedBack (source sink : Nat) (c : Subgraph) : Prop where
  /-- No arc enters the source. -/
  source : ∀ n, (n, source) ∉ c.arcs
  /-- No arc leaves the sink. -/
  sink : ∀ n, (sink, n) ∉ c.arcs
  /-- No node comes before itself. -/
  back : ∀ n, ¬ Relation.TransGen (FirstJoined .predecessors c) n n

/-- What the filter of paths enforces. -/
structure ChainsOnly (source sink : Nat) (c : Subgraph) : Prop extends
    TracedBack source sink c where
  /-- No arc is a loop. -/
  loop : ∀ n, (n, n) ∉ c.arcs
  /-- Following the first successors from a node without predecessors does not lead into a
      cycle. -/
  ahead : ∀ n, (∀ m, (m, n) ∉ c.arcs) → ∀ m,
    Relation.ReflTransGen (FirstJoined .successors c) n m →
      ¬ Relation.TransGen (FirstJoined .successors c) m m

/-- Arcs to first neighbours are arcs. -/
theorem transGen_of_firstPredecessors (h : Relation.TransGen (FirstJoined .predecessors c) n m) :
    Relation.TransGen (fun k l => (k, l) ∈ c.arcs) m n :=
  Relation.transGen_swap.mp (Relation.TransGen.mono (fun _ _ hfirst => hfirst.1) _ _ h)

theorem transGen_of_firstSuccessors (h : Relation.TransGen (FirstJoined .successors c) n m) :
    Relation.TransGen (fun k l => (k, l) ∈ c.arcs) n m :=
  Relation.TransGen.mono (fun _ _ hfirst => hfirst.1) _ _ h

/-- A graph without cycles is not objected to. -/
theorem PathsOnly.chainsOnly (h : PathsOnly source sink c) : ChainsOnly source sink c where
  source := h.source
  sink := h.sink
  back := fun n hcycle => h.acyclic n (transGen_of_firstPredecessors hcycle)
  loop := fun n hloop => h.acyclic n (.single hloop)
  ahead := fun _ _ m _ hcycle => h.acyclic m (transGen_of_firstSuccessors hcycle)

/-- If no node has two predecessors, every predecessor is the first, so all cycles are found. -/
theorem TracedBack.pathsOnly (h : TracedBack source sink c)
    (hone : ∀ n m k, (m, n) ∈ c.arcs → (k, n) ∈ c.arcs → m = k) : PathsOnly source sink c where
  source := h.source
  sink := h.sink
  acyclic := fun n hcycle => by
    have hfirst : ∀ m n, (m, n) ∈ c.arcs → FirstJoined .predecessors c n m := fun m n harc =>
      ⟨harc, fun k hk => (hone n m k harc hk).le⟩
    refine h.back n (Relation.transGen_swap.mp ?_)
    exact Relation.TransGen.mono hfirst _ _ hcycle

end Filter

namespace PathNoCycle

open FiniteDomain.Filter

/-! ### Walks that end -/

section Walk

variable {next : Nat → Option Nat} {start steps current last order n m k : Nat}

/-- The second node is the one after the first. -/
def Follows (next : Nat → Option Nat) (m n : Nat) : Prop := next m = some n

theorem Follows.unique (h : Follows next n m) (h' : Follows next n k) : m = k :=
  Option.some.inj (h.symm.trans h')

/-- Where a walk ends there is no next node. -/
theorem next_of_walk (h : walk next start steps current = some last) : next last = none := by
  induction steps generalizing current with
  | zero => cases h
  | succ steps ih =>
    unfold walk at h
    split at h
    next hnone => exact Option.some.inj h ▸ hnone
    next n hn =>
      split at h
      · cases h
      · exact ih h

/-- A chain that comes to an end does not begin in a cycle. -/
theorem not_cyclic_of_ends (hchain : Relation.ReflTransGen (Follows next) m last)
    (hend : next last = none) : ¬ Relation.TransGen (Follows next) m m := by
  induction hchain using Relation.ReflTransGen.head_induction_on with
  | refl =>
    intro hcycle
    obtain ⟨k, hstep, -⟩ := Relation.TransGen.head'_iff.mp hcycle
    exact absurd (hend.symm.trans hstep) nofun
  | @head m n hstep hchain ih =>
    -- a cycle through this node is a cycle through the next one
    intro hcycle
    obtain ⟨k, hstep', hback⟩ := Relation.TransGen.head'_iff.mp hcycle
    obtain rfl : n = k := hstep.unique hstep'
    exact ih (.tail' hback hstep)

/-- A walk from a node ends just if it does not run into a cycle. -/
theorem isSome_walk_iff (hlt : ∀ m n, next m = some n → n < order) (hn : n < order) :
    (walk next n order n).isSome = true ↔
      ∀ m, Relation.ReflTransGen (Follows next) n m → ¬ Relation.TransGen (Follows next) m m := by
  constructor
  · intro h m hreach
    obtain ⟨last, hlast⟩ := Option.isSome_iff_exists.mp h
    have hend : next last = none := next_of_walk hlast
    have hchain : Relation.ReflTransGen (Follows next) n last :=
      reaches_of_walk (fun _ _ h => h) hlast
    -- there is one way to go, so the end lies ahead of every node that is reached
    have hunique : Relator.RightUnique (Follows next) := fun _ _ _ h h' => h.unique h'
    have htotal := Relation.ReflTransGen.total_of_right_unique hunique hreach hchain
    refine not_cyclic_of_ends ?_ hend
    rcases htotal with hahead | hbehind
    · exact hahead
    · rcases Relation.ReflTransGen.cases_head hbehind with rfl | ⟨k, hk, -⟩
      · exact .refl
      · exact absurd (hend.symm.trans hk) nofun
  · intro h
    let Passed (k l : Nat) : Prop := Relation.ReflTransGen (Follows next) n k ∧ next k = some l
    have hfollows : ∀ {k l}, Relation.ReflTransGen Passed k l →
        Relation.ReflTransGen (Follows next) k l := fun hkl =>
      Relation.ReflTransGen.mono (fun _ _ harc => harc.2) _ _ hkl
    have hacyclic : ∀ k, ¬ Relation.TransGen Passed k k := by
      intro k hcycle
      obtain ⟨l, hl, -⟩ := Relation.TransGen.head'_iff.mp hcycle
      exact h k hl.1 (Relation.TransGen.mono (fun _ _ harc => harc.2) _ _ hcycle)
    exact isSome_walk (R := Passed) (fun m k hm hk => ⟨hfollows hm, hk⟩) hacyclic
      (fun m k harc => hlt m k harc.2) [] List.nodup_nil (fun _ h => absurd h List.not_mem_nil)
      hn (Nat.le_add_right _ _) .refl

end Walk

/-! ### Fixed graphs -/

section Fixed

variable {dom : GraphDomain} {d : Direction} {source sink n m : Nat}

/-- The first neighbour in the kernel. -/
def firstCertain? (d : Direction) (dom : GraphDomain) (n : Nat) : Option Nat :=
  (d.neighbours dom.kernel n).head?

theorem firstCertain?_iff (hd : dom.Wf) : firstCertain? d dom n = some m ↔
    FirstJoined d (GraphDomain.content hd.kernel) n m := by
  have hmem : ∀ k, k ∈ d.neighbours dom.kernel n ↔
      Joined d (GraphDomain.content hd.kernel) n k := fun k =>
    OneNeighbour.mem_neighbours hd.kernel
  unfold firstCertain? FirstJoined IsLeast lowerBounds
  -- neighbours are listed in ascending order, so the first one listed is the least one
  have hsorted := OneNeighbour.pairwise_neighbours d dom.kernel n
  cases hlist : d.neighbours dom.kernel n with
  | nil =>
    rw [hlist] at hmem
    constructor
    · exact nofun
    · rintro ⟨hm, -⟩
      exact absurd ((hmem m).mpr hm) List.not_mem_nil
  | cons first rest =>
    rw [hlist] at hmem hsorted
    have hfirst : ∀ k, Joined d (GraphDomain.content hd.kernel) n k → first ≤ k := by
      intro k hk
      rcases List.mem_cons.mp ((hmem k).mpr hk) with rfl | hrest
      · exact le_rfl
      · exact Nat.le_of_lt ((List.pairwise_cons.mp hsorted).1 k hrest)
    have hjoined := (hmem first).mp List.mem_cons_self
    constructor
    · intro h
      obtain rfl : first = m := Option.some.inj h
      exact ⟨hjoined, hfirst⟩
    · rintro ⟨hm, hleast⟩
      exact congrArg some (Nat.le_antisymm (hfirst m hm) (hleast hjoined))

/-- Following first neighbours of the kernel is following those of the graph. -/
theorem follows_firstCertain? (hd : dom.Wf) :
    Follows (firstCertain? d dom) = FirstJoined d (GraphDomain.content hd.kernel) := by
  funext n m
  exact propext (firstCertain?_iff hd)

theorem firstCertain?_lt (hd : dom.Wf) (h : firstCertain? d dom n = some m) : m < dom.order := by
  have harc := ((firstCertain?_iff hd).mp h).1
  have hlt := hd.kernel.lt_of_hasArc harc
  cases d with
  | successors => exact hlt.2
  | predecessors => exact hlt.1

/-- A chain ends just if it does not run into a cycle. -/
theorem isSome_chain_iff (hd : dom.Wf) (d : Direction) (hn : n < dom.order) :
    (walk (firstCertain? d dom) n dom.order n).isSome = true ↔ ∀ m,
      Relation.ReflTransGen (FirstJoined d (GraphDomain.content hd.kernel)) n m →
        ¬ Relation.TransGen (FirstJoined d (GraphDomain.content hd.kernel)) m m := by
  have hlt : ∀ m k, firstCertain? d dom m = some k → k < dom.order := fun _ _ h =>
    firstCertain?_lt hd h
  rw [← follows_firstCertain? hd]
  exact isSome_walk_iff hlt hn

/-- No cycle is found just if no node comes before itself. -/
theorem hasKernelCycle_iff (hd : dom.Wf) : hasKernelCycle dom = false ↔
    ∀ n, ¬ Relation.TransGen (FirstJoined .predecessors (GraphDomain.content hd.kernel)) n n := by
  have hwalk : ∀ {n}, n < dom.order → ((chainStart? dom n).isSome = true ↔ ∀ m,
      Relation.ReflTransGen (FirstJoined .predecessors (GraphDomain.content hd.kernel)) n m →
        ¬ Relation.TransGen (FirstJoined .predecessors (GraphDomain.content hd.kernel)) m m) :=
    isSome_chain_iff hd .predecessors
  unfold hasKernelCycle
  rw [List.any_eq_false]
  constructor
  · intro hnone n hcycle
    -- a node on a cycle has an arc, and is a node of the kernel for that
    obtain ⟨m, hm, -⟩ := Relation.TransGen.head'_iff.mp hcycle
    have harc : dom.kernel.hasArc m n = true := hm.1
    have hn := (hd.kernel.lt_of_hasArc harc).2
    have hsome : (chainStart? dom n).isSome = true := by
      have hnode := hnone n (List.mem_range.mpr hn)
      rw [(hd.kernel.ends m n harc).2, Bool.true_and, Option.isNone_iff_eq_none] at hnode
      exact Option.isSome_iff_ne_none.mpr hnode
    exact (hwalk hn).mp hsome n .refl hcycle
  · intro hacyclic n hn hfound
    rw [Bool.and_eq_true, Option.isNone_iff_eq_none] at hfound
    have hsome := (hwalk (List.mem_range.mp hn)).mpr fun m _ => hacyclic m
    rw [hfound.2] at hsome
    cases hsome

theorem begins_iff (hd : dom.Wf) : Begins dom n ↔
    (∃ m, dom.kernel.hasArc n m = true) ∧ ∀ m, ¬ dom.kernel.hasArc m n = true := by
  unfold Begins
  rw [Bool.and_eq_true, Bool.not_eq_true', List.isEmpty_eq_false_iff_exists_mem,
    List.isEmpty_iff, List.eq_nil_iff_forall_not_mem]
  exact and_congr (exists_congr fun _ => hd.kernel.mem_successorsOf)
    (forall_congr' fun _ => not_congr hd.kernel.mem_predecessorsOf)

/-- A run on a fixed graph has nothing to remove just if the graph is as the filter demands. -/
theorem avoids_iff (hd : dom.Wf) :
    Avoids dom source sink (fun m n => (m, n) ∈ (GraphDomain.content hd.kernel).arcs) ↔
      ChainsOnly source sink (GraphDomain.content hd.kernel) := by
  have hwalk : ∀ {n}, n < dom.order → ((chainEnd? dom n).isSome = true ↔ ∀ m,
      Relation.ReflTransGen (FirstJoined .successors (GraphDomain.content hd.kernel)) n m →
        ¬ Relation.TransGen (FirstJoined .successors (GraphDomain.content hd.kernel)) m m) :=
    isSome_chain_iff hd .successors
  constructor
  · intro h
    refine ⟨⟨h.source, h.sink, (hasKernelCycle_iff hd).mp h.acyclic⟩, h.loop, ?_⟩
    intro n hfirst m hreach
    by_cases hsucc : ∃ k, dom.kernel.hasArc n k = true
    · obtain ⟨k, hk⟩ := hsucc
      have hn := (hd.kernel.lt_of_hasArc hk).1
      obtain ⟨last, hlast, -⟩ := h.closing n hn ((begins_iff hd).mpr ⟨⟨k, hk⟩, hfirst⟩)
      exact (hwalk hn).mp (Option.isSome_iff_exists.mpr ⟨last, hlast⟩) m hreach
    · -- there is nowhere to go
      have hstuck : ∀ k, ¬ FirstJoined .successors (GraphDomain.content hd.kernel) n k :=
        fun k hk => hsucc ⟨k, hk.1⟩
      intro hcycle
      rcases Relation.ReflTransGen.cases_head hreach with rfl | ⟨k, hk, -⟩
      · obtain ⟨k, hk, -⟩ := Relation.TransGen.head'_iff.mp hcycle
        exact hstuck k hk
      · exact hstuck k hk
  · intro h
    refine ⟨h.source, h.sink, h.loop, fun n hn hbegins => ?_, (hasKernelCycle_iff hd).mpr h.back⟩
    have hfirst := ((begins_iff hd).mp hbegins).2
    obtain ⟨last, hlast⟩ := Option.isSome_iff_exists.mp ((hwalk hn).mpr (h.ahead n hfirst))
    exact ⟨last, hlast, hfirst last⟩

end Fixed

/-- Of a fixed graph the filter says that it is right just if no chain leads back. -/
theorem entailment_iff {s : Store} {g : GraphId} {source sink : Nat} (hs : s.Wf)
    (hr : (Filter.pathNoCycle g source sink).Ready s) (hfixed : s.Settles (.graph g)) {a : Valuation}
    (ha : s.Admits a) : Propagator.entailment (Filter.pathNoCycle g source sink) s = .ok .holds ↔
      TracedBack source sink (a.graph g) := by
  have hd := hs.graph g
  obtain ⟨hsource, hsink⟩ := hr.ends g source sink rfl
  have hinside : ¬ (s.graph g).order ≤ max source sink := not_le.mpr (max_lt hsource hsink)
  have hgraph : (s.graph g).isFixed = true := hfixed
  have hjudged := forM_require (s := s) fun v hv => hr.known v (judged_subset _ s v hv)
  have hpreds : (s.graph g).kernel.predecessorsOf source = [] ↔
      ∀ n, (n, source) ∉ (GraphDomain.content hd.kernel).arcs :=
    List.eq_nil_iff_forall_not_mem.trans
      (forall_congr' fun _ => not_congr hd.kernel.mem_predecessorsOf)
  have hsuccs : (s.graph g).kernel.successorsOf sink = [] ↔
      ∀ n, (sink, n) ∉ (GraphDomain.content hd.kernel).arcs :=
    List.eq_nil_iff_forall_not_mem.trans
      (forall_congr' fun _ => not_congr hd.kernel.mem_successorsOf)
  have hclean : (!((s.graph g).kernel.predecessorsOf source).isEmpty
      || !((s.graph g).kernel.successorsOf sink).isEmpty || hasKernelCycle (s.graph g)) = false ↔
      TracedBack source sink (GraphDomain.content hd.kernel) := by
    rw [Bool.or_eq_false_iff, Bool.or_eq_false_iff, Bool.not_eq_false', Bool.not_eq_false',
      List.isEmpty_iff, List.isEmpty_iff, hpreds, hsuccs, hasKernelCycle_iff hd]
    exact ⟨fun ⟨⟨hin, hout⟩, hback⟩ => ⟨hin, hout, hback⟩,
      fun h => ⟨⟨h.source, h.sink⟩, h.back⟩⟩
  -- the kernel is the only graph that is left
  rw [GraphDomain.admits_unique hd hfixed (ha.graph g)]
  show Filter.entailment _ s = _ ↔ _
  unfold Filter.entailment
  rw [hjudged]
  show PathNoCycle.entailment g source sink s = _ ↔ _
  unfold PathNoCycle.entailment
  simp only [hgraph, Bool.not_true, Bool.false_eq_true, if_false, hinside]
  rw [← hclean]
  split
  next hwrong => exact ⟨nofun, fun hfalse => absurd (hwrong.symm.trans hfalse) nofun⟩
  next hright => exact ⟨fun _ => Bool.eq_false_iff.mpr hright, fun _ => rfl⟩

end PathNoCycle

end FiniteDomain
