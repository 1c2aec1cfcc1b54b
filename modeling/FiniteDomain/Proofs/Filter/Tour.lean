import FiniteDomain.Proofs.Filter.Chains
import Mathlib.Data.Fintype.Card
import Mathlib.Data.List.Chain
import Mathlib.Data.List.Nodup

/-! # Paths over all nodes

    Three filters and the demand that all nodes belong to a graph stand for a path
    over all nodes (`Hamiltonian`).  The filter of paths does not find all cycles,
    but the filter of predecessors makes it one that does
    (`Hamiltonian.of_chainsOnly`).  What they demand together is that the arcs are
    those between consecutive nodes of a list that begins with the source, ends
    with the sink and has every node once (`hamiltonian_iff`). -/

namespace FiniteDomain

/-! ### Lists of nodes -/

/-- The second node comes next after the first in the list. -/
def Consecutive (path : List Nat) (m n : Nat) : Prop :=
  ∃ i, path[i]? = some m ∧ path[i + 1]? = some n

/-- The list has each of the nodes below the order once, the source first and the sink last. -/
structure Tour (order source sink : Nat) (path : List Nat) : Prop where
  /-- No node is visited twice. -/
  nodup : path.Nodup
  /-- Every node is visited. -/
  nodes : ∀ n, n ∈ path ↔ n < order
  /-- The path starts in the source. -/
  first : path.head? = some source
  /-- The path ends in the sink. -/
  last : path.getLast? = some sink

section

variable {path other : List Nat} {m n k i j : Nat}

theorem Consecutive.mem (h : Consecutive path m n) : m ∈ path ∧ n ∈ path := by
  obtain ⟨i, hm, hn⟩ := h
  exact ⟨List.mem_of_getElem? hm, List.mem_of_getElem? hn⟩

theorem consecutive_of_isChain {R : Nat → Nat → Prop} (h : path.IsChain R)
    (hstep : Consecutive path m n) : R m n := by
  obtain ⟨i, hm, hn⟩ := hstep
  obtain ⟨hlt, rfl⟩ := List.getElem?_eq_some_iff.mp hn
  obtain ⟨hlt', rfl⟩ := List.getElem?_eq_some_iff.mp hm
  exact List.isChain_iff_getElem.mp h i hlt

/-- Every node but the last has a next one. -/
theorem exists_next (hm : m ∈ path) (hlast : path.getLast? ≠ some m) :
    ∃ n, Consecutive path m n := by
  obtain ⟨i, hi⟩ := List.mem_iff_getElem?.mp hm
  by_cases hlt : i + 1 < path.length
  · exact ⟨path[i + 1], i, hi, List.getElem?_eq_getElem hlt⟩
  · obtain ⟨hlt', -⟩ := List.getElem?_eq_some_iff.mp hi
    obtain rfl : i = path.length - 1 := by omega
    exact absurd (List.getLast?_eq_getElem? ▸ hi) hlast

/-- Every node but the first has one before it. -/
theorem exists_previous (hn : n ∈ path) (hfirst : path.head? ≠ some n) :
    ∃ m, Consecutive path m n := by
  obtain ⟨i, hi⟩ := List.mem_iff_getElem?.mp hn
  cases i with
  | zero => exact absurd (List.head?_eq_getElem? ▸ hi) hfirst
  | succ i =>
    obtain ⟨hlt, -⟩ := List.getElem?_eq_some_iff.mp hi
    exact ⟨path[i], i, List.getElem?_eq_getElem (Nat.lt_of_succ_lt hlt), hi⟩

theorem consecutive_range {order : Nat} :
    Consecutive (List.range order) m n ↔ n = m + 1 ∧ n < order := by
  constructor
  · rintro ⟨i, hm, hn⟩
    obtain ⟨hlt, rfl⟩ := List.getElem?_eq_some_iff.mp hn
    obtain ⟨-, rfl⟩ := List.getElem?_eq_some_iff.mp hm
    rw [List.length_range] at hlt
    simpa using hlt
  · rintro ⟨rfl, hlt⟩
    exact ⟨m, List.getElem?_range (Nat.lt_of_succ_lt hlt), List.getElem?_range hlt⟩

/-- In a list without repetition the position of a node is determined. -/
theorem position_unique (h : path.Nodup) (hi : path[i]? = some m) (hj : path[j]? = some m) :
    i = j := by
  obtain ⟨hlt, -⟩ := List.getElem?_eq_some_iff.mp hi
  exact (List.getElem?_inj hlt h).mp (hi.trans hj.symm)

end

namespace Tour

variable {order source sink : Nat} {path other : List Nat} {m n k : Nat}

theorem first_eq (h : Tour order source sink path) : path[0]? = some source :=
  List.head?_eq_getElem? ▸ h.first

theorem last_eq (h : Tour order source sink path) : path[path.length - 1]? = some sink :=
  List.getLast?_eq_getElem? ▸ h.last

theorem next_unique (h : Tour order source sink path) (hn : Consecutive path m n)
    (hk : Consecutive path m k) : n = k := by
  obtain ⟨i, hm, hn⟩ := hn
  obtain ⟨j, hm', hk⟩ := hk
  obtain rfl := position_unique h.nodup hm hm'
  exact Option.some.inj (hn.symm.trans hk)

theorem previous_unique (h : Tour order source sink path) (hm : Consecutive path m n)
    (hk : Consecutive path k n) : m = k := by
  obtain ⟨i, hm, hn⟩ := hm
  obtain ⟨j, hk, hn'⟩ := hk
  obtain rfl : i = j := Nat.succ.inj (position_unique h.nodup hn hn')
  exact Option.some.inj (hm.symm.trans hk)

theorem not_before_source (h : Tour order source sink path) : ¬ Consecutive path m source := by
  rintro ⟨i, -, hsource⟩
  exact Nat.succ_ne_zero i (position_unique h.nodup hsource h.first_eq)

theorem not_after_sink (h : Tour order source sink path) : ¬ Consecutive path sink n := by
  rintro ⟨i, hsink, hn⟩
  obtain ⟨hlt, -⟩ := List.getElem?_eq_some_iff.mp hn
  have hi := position_unique h.nodup hsink h.last_eq
  omega

/-- Along the path the positions increase. -/
theorem position_lt (h : Tour order source sink path)
    (hreach : Relation.TransGen (Consecutive path) m n) {i : Nat} (hi : path[i]? = some m) :
    ∃ j, i < j ∧ path[j]? = some n := by
  induction hreach with
  | single hstep =>
    obtain ⟨j, hm, hn⟩ := hstep
    obtain rfl := position_unique h.nodup hi hm
    exact ⟨i + 1, Nat.lt_succ_self i, hn⟩
  | tail hreach hstep ih =>
    obtain ⟨j, hlt, hj⟩ := ih
    obtain ⟨j', hm, hn⟩ := hstep
    obtain rfl := position_unique h.nodup hj hm
    exact ⟨j + 1, Nat.lt_succ_of_lt hlt, hn⟩

theorem acyclic (h : Tour order source sink path) :
    ¬ Relation.TransGen (Consecutive path) n n := by
  intro hcycle
  obtain ⟨m, ⟨i, hi, -⟩, -⟩ := Relation.TransGen.head'_iff.mp hcycle
  obtain ⟨j, hlt, hj⟩ := h.position_lt hcycle hi
  exact Nat.ne_of_lt hlt (position_unique h.nodup hi hj)

/-- A path is known from its source and the steps it makes. -/
theorem eq_of_consecutive (h : Tour order source sink path) (h' : Tour order source sink other)
    (hsame : ∀ m n, Consecutive path m n ↔ Consecutive other m n) : path = other := by
  have hall : ∀ i : Nat, path[i]? = other[i]? := by
    intro i
    induction i with
    | zero => exact h.first_eq.trans h'.first_eq.symm
    | succ i ih =>
      -- what comes next is the same in both, if there is anything
      ext n
      constructor
      · intro hn
        obtain ⟨hlt, -⟩ := List.getElem?_eq_some_iff.mp hn
        have hi := List.getElem?_eq_getElem (Nat.lt_of_succ_lt hlt)
        obtain ⟨j, hj, hn'⟩ := (hsame _ n).mp ⟨i, hi, hn⟩
        obtain rfl := position_unique h'.nodup (ih ▸ hi) hj
        exact hn'
      · intro hn
        obtain ⟨hlt, -⟩ := List.getElem?_eq_some_iff.mp hn
        have hi := List.getElem?_eq_getElem (Nat.lt_of_succ_lt hlt)
        obtain ⟨j, hj, hn'⟩ := (hsame _ n).mpr ⟨i, hi, hn⟩
        obtain rfl := position_unique h.nodup (ih ▸ hi) hj
        exact hn'
  exact List.ext_getElem? hall

/-- A path that ends where it starts visits one node. -/
theorem order_of_ends (h : Tour order source source path) : order = 1 := by
  have hlength : 0 < path.length := (List.getElem?_eq_some_iff.mp h.first_eq).1
  have hposition := position_unique h.nodup h.first_eq h.last_eq
  have hmem : ∀ n, n < order ↔ n = source := by
    intro n
    rw [← h.nodes]
    constructor
    · intro hn
      obtain ⟨i, hi⟩ := List.mem_iff_getElem?.mp hn
      obtain ⟨hlt, -⟩ := List.getElem?_eq_some_iff.mp hi
      obtain rfl : i = 0 := by omega
      exact Option.some.inj (hi.symm.trans h.first_eq)
    · rintro rfl
      exact List.mem_of_getElem? h.first_eq
  have hsource : source < order := (hmem source).mpr rfl
  have hzero : 0 = source := (hmem 0).mp (Nat.zero_lt_of_lt hsource)
  have hnone : ¬ 1 < order := fun hlt => absurd ((hmem 1).mp hlt) (by omega)
  omega

/-- The path of a single node. -/
theorem single : Tour 1 0 0 [0] := ⟨List.nodup_singleton 0, by simp, rfl, rfl⟩

theorem eq_single (h : Tour 1 0 0 path) : path = [0] := by
  refine h.eq_of_consecutive single fun m n => ⟨fun hstep => ?_, fun hstep => ?_⟩
  · obtain rfl : m = 0 := Nat.lt_one_iff.mp ((h.nodes m).mp hstep.mem.1)
    exact absurd hstep h.not_after_sink
  · obtain rfl : m = 0 := Nat.lt_one_iff.mp ((single.nodes m).mp hstep.mem.1)
    exact absurd hstep single.not_after_sink

/-- The path through all nodes in ascending order. -/
theorem range (h : 0 < order) : Tour order 0 (order - 1) (List.range order) where
  nodup := List.nodup_range
  nodes := fun _ => List.mem_range
  first := by rw [List.head?_range, if_neg (Nat.ne_of_gt h)]
  last := by rw [List.getLast?_range, if_neg (Nat.ne_of_gt h)]

/-- The arcs of the path. -/
def graph (h : Tour order source sink path) : Subgraph where
  nodes := {n | n < order}
  arcs := {arc | Consecutive path arc.1 arc.2}
  ends := fun _ _ harc => ⟨(h.nodes _).mp harc.mem.1, (h.nodes _).mp harc.mem.2⟩

end Tour

/-- The graph has the nodes below the order, and its arcs lead from a node of the path to the next
    one. -/
structure Subgraph.Traces (c : Subgraph) (order : Nat) (path : List Nat) : Prop where
  /-- All nodes belong to the graph. -/
  nodes : ∀ n, n ∈ c.nodes ↔ n < order
  /-- The arcs are the steps of the path. -/
  arcs : ∀ m n, (m, n) ∈ c.arcs ↔ Consecutive path m n

theorem Tour.traces_graph {order source sink : Nat} {path : List Nat}
    (h : Tour order source sink path) : h.graph.Traces order path :=
  ⟨fun _ => Iff.rfl, fun _ _ => Iff.rfl⟩

/-! ### Graphs that are paths -/

namespace Filter

variable {order source sink : Nat} {c : Subgraph} {path : List Nat}

/-- What is demanded of a graph whose arcs form a path from the source to the sink over all nodes
    below the order. -/
structure Hamiltonian (order source sink : Nat) (c : Subgraph) : Prop where
  /-- All nodes belong to the graph. -/
  nodes : ∀ n < order, n ∈ c.nodes
  /-- Nothing follows the sink, and one node follows each of the others. -/
  successors : OneNeighbourBut .successors sink c
  /-- The source follows nothing, and each of the others follows one node. -/
  predecessors : OneNeighbourBut .predecessors source c
  /-- There are no cycles. -/
  paths : PathsOnly source sink c

theorem OneNeighbourBut.unique {d : Direction} {but n m k : Nat} (h : OneNeighbourBut d but c)
    (hn : n ∈ c.nodes) (hm : Joined d c n m) (hk : Joined d c n k) : m = k := by
  obtain ⟨hnone, hone⟩ := h n hn
  by_cases hbut : n = but
  · exact absurd hm (hnone hbut m)
  · exact (hone hbut).unique hm hk

/-- What is checked along chains is enough, since nodes have one predecessor at most. -/
theorem Hamiltonian.of_chainsOnly (hnodes : ∀ n < order, n ∈ c.nodes)
    (hsuccessors : OneNeighbourBut .successors sink c)
    (hpredecessors : OneNeighbourBut .predecessors source c) (hchains : ChainsOnly source sink c) :
    Hamiltonian order source sink c := by
  refine ⟨hnodes, hsuccessors, hpredecessors, hchains.toTracedBack.pathsOnly fun n m k hm hk => ?_⟩
  exact hpredecessors.unique (c.ends m n hm).2 hm hk

/-- Every node is reached from the source. -/
theorem Hamiltonian.reaches (h : Hamiltonian order source sink c) (hbound : ∀ n ∈ c.nodes, n < order)
    {n : Nat} (hn : n < order) : Relation.ReflTransGen (fun m k => (m, k) ∈ c.arcs) source n := by
  -- going back from a node ends, since there are finitely many nodes and no cycles
  let Before (m k : Fin order) : Prop :=
    Relation.TransGen (fun m k => (m, k) ∈ c.arcs) m.val k.val
  have : IsTrans (Fin order) Before := ⟨fun _ _ _ => Relation.TransGen.trans⟩
  have : Std.Irrefl Before := ⟨fun m => h.paths.acyclic m⟩
  have hwf : WellFounded Before := Finite.wellFounded_of_trans_of_irrefl Before
  have hall : ∀ m : Fin order, Relation.ReflTransGen (fun m k => (m, k) ∈ c.arcs) source m.val := by
    intro m
    induction m using hwf.induction with
    | _ m ih =>
      by_cases hsource : m.val = source
      · rw [hsource]
      · obtain ⟨k, hk, -⟩ := (h.predecessors m.val (h.nodes _ m.isLt)).2 hsource
        have harc : (k, m.val) ∈ c.arcs := hk
        have hlt := hbound k (c.ends _ _ harc).1
        exact (ih ⟨k, hlt⟩ (.single harc)).tail harc
  exact hall ⟨n, hn⟩

/-- The arcs of a path over all nodes are as demanded. -/
theorem hamiltonian_of_traces (h : Tour order source sink path) (hc : c.Traces order path) :
    Hamiltonian order source sink c where
  nodes := fun n hn => (hc.nodes n).mpr hn
  successors := fun n hn => by
    constructor
    · rintro rfl m hm
      exact h.not_after_sink ((hc.arcs n m).mp hm)
    · intro hsink
      have hlast : path.getLast? ≠ some n := fun heq =>
        hsink (Option.some.inj (heq.symm.trans h.last))
      -- only the sink is the last node of the path
      obtain ⟨m, hm⟩ := exists_next ((h.nodes n).mpr ((hc.nodes n).mp hn)) hlast
      exact ⟨m, (hc.arcs n m).mpr hm, fun k hk => h.next_unique ((hc.arcs n k).mp hk) hm⟩
  predecessors := fun n hn => by
    constructor
    · rintro rfl m hm
      exact h.not_before_source ((hc.arcs m n).mp hm)
    · intro hsource
      have hfirst : path.head? ≠ some n := fun heq =>
        hsource (Option.some.inj (heq.symm.trans h.first))
      -- only the source is the first one
      obtain ⟨m, hm⟩ := exists_previous ((h.nodes n).mpr ((hc.nodes n).mp hn)) hfirst
      exact ⟨m, (hc.arcs m n).mpr hm, fun k hk => h.previous_unique ((hc.arcs k n).mp hk) hm⟩
  paths := by
    refine ⟨fun n hn => h.not_before_source ((hc.arcs n source).mp hn),
      fun n hn => h.not_after_sink ((hc.arcs sink n).mp hn), fun n hcycle => ?_⟩
    exact h.acyclic (Relation.TransGen.mono (fun m k => (hc.arcs m k).mp) _ _ hcycle)

/-- A chain of arcs visits no node twice if there is no cycle. -/
theorem nodup_of_isChain (hacyclic : ∀ n, ¬ Relation.TransGen (fun m k => (m, k) ∈ c.arcs) n n)
    (hchain : path.IsChain fun m k => (m, k) ∈ c.arcs) : path.Nodup := by
  have hbefore : path.IsChain (Relation.TransGen fun m k => (m, k) ∈ c.arcs) :=
    hchain.imp fun _ _ harc => .single harc
  refine (List.isChain_iff_pairwise.mp hbefore).imp ?_
  rintro m k hreach rfl
  exact hacyclic m hreach

/-- An arc leads from a node of a chain that ends in the sink to the one that comes next in it. -/
theorem Hamiltonian.consecutive (h : Hamiltonian order source sink c)
    (hchain : path.IsChain fun m k => (m, k) ∈ c.arcs) (hlast : path.getLast? = some sink)
    {m n : Nat} (hm : m ∈ path) (harc : (m, n) ∈ c.arcs) : Consecutive path m n := by
  have hne : path.getLast? ≠ some m := by
    intro heq
    obtain rfl : sink = m := Option.some.inj (hlast.symm.trans heq)
    exact h.paths.sink n harc
  obtain ⟨k, hk⟩ := exists_next hm hne
  obtain rfl : n = k :=
    h.successors.unique (c.ends m n harc).1 harc (consecutive_of_isChain hchain hk)
  exact hk

/-- A chain from the source to the sink visits all nodes, and there are no other arcs. -/
theorem Hamiltonian.tour (h : Hamiltonian order source sink c) (hbound : ∀ n ∈ c.nodes, n < order)
    (hsource : source < order) (hchain : path.IsChain fun m k => (m, k) ∈ c.arcs)
    (hfirst : path.head? = some source) (hlast : path.getLast? = some sink) :
    Tour order source sink path ∧ c.Traces order path := by
  have hreached : ∀ {n}, Relation.ReflTransGen (fun m k => (m, k) ∈ c.arcs) source n →
      n ∈ path := by
    intro n hreach
    induction hreach with
    | refl => exact List.mem_of_head? hfirst
    | tail _ harc ih => exact (h.consecutive hchain hlast ih harc).mem.2
  have hinside : ∀ n ∈ path, n < order := by
    intro n hn
    by_cases heq : n = source
    · exact heq ▸ hsource
    · have hne : path.head? ≠ some n := fun hhead => heq (Option.some.inj (hhead.symm.trans hfirst))
      obtain ⟨m, hstep⟩ := exists_previous hn hne
      exact hbound n (c.ends m n (consecutive_of_isChain hchain hstep)).2
  refine ⟨⟨nodup_of_isChain h.paths.acyclic hchain, fun n => ⟨hinside n, fun hn => ?_⟩, hfirst, hlast⟩,
    fun n => ⟨hbound n, h.nodes n⟩, fun m n => ⟨fun harc => ?_, consecutive_of_isChain hchain⟩⟩
  · exact hreached (h.reaches hbound hn)
  · have hm := hreached (h.reaches hbound (hbound m (c.ends m n harc).1))
    exact h.consecutive hchain hlast hm harc

/-- What is demanded are the arcs of a path over all nodes. -/
theorem hamiltonian_iff (hsource : source < order) (hsink : sink < order)
    (hbound : ∀ n ∈ c.nodes, n < order) : Hamiltonian order source sink c ↔
      ∃ path, Tour order source sink path ∧ c.Traces order path := by
  constructor
  · intro h
    obtain ⟨rest, hchain, hend⟩ :=
      List.exists_isChain_cons_of_relationReflTransGen (h.reaches hbound hsink)
    have hlast : (source :: rest).getLast? = some sink :=
      (List.getLast?_eq_some_getLast (List.cons_ne_nil _ _)).trans (congrArg some hend)
    exact ⟨_, h.tour hbound hsource hchain rfl hlast⟩
  · rintro ⟨path, htour, htraces⟩
    exact hamiltonian_of_traces htour htraces

end Filter

end FiniteDomain
