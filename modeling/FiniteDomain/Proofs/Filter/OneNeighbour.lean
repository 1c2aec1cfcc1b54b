import FiniteDomain.Proofs.Filter.Demand

/-! # One neighbour is filtered

    The filter treats the possible nodes one after the other.  At each it removes
    or demands only what is demanded of the graph there (`Allowed`).  A larger
    domain demands less, so what is done at a node for the domain that is found
    there is done for the domain where the run began. -/

namespace FiniteDomain.OneNeighbour

open Filtering FiniteDomain.Filter

variable {d : Direction} {g : GraphId} {but n m : Nat} {s t : Store} {c : Subgraph}
  {sat : Valuation → Prop} {l : LocalId}

theorem mem_neighbours {order : Nat} {graph : Digraph} (hg : graph.Wf order) :
    m ∈ d.neighbours graph n ↔ graph.hasArc (d.arc n m).1 (d.arc n m).2 = true := by
  cases d with
  | successors => exact hg.mem_successorsOf
  | predecessors => exact hg.mem_predecessorsOf

theorem pairwise_neighbours (d : Direction) (graph : Digraph) (n : Nat) :
    (d.neighbours graph n).Pairwise (· < ·) := by
  cases d with
  | successors => exact Digraph.pairwise_successorsOf graph n
  | predecessors => exact Digraph.pairwise_predecessorsOf graph n

theorem nodup_neighbours (d : Direction) (graph : Digraph) (n : Nat) :
    (d.neighbours graph n).Nodup :=
  (pairwise_neighbours d graph n).imp Nat.ne_of_lt

/-! ### One node -/

theorem sound_removeArcs {neighbours : List Nat} (hs : s.Wf)
    (h : ∀ v, s.Admits v → sat v → ∀ m ∈ neighbours, ¬ Joined d (v.graph g) n m) :
    Sound sat (removeArcs d g n neighbours) s
      fun _ t => ∀ m ∈ neighbours, ∀ v, t.Admits v → ¬ Joined d (v.graph g) n m := by
  unfold removeArcs
  refine Sound.forM_reaches (D := fun m t => ∀ v, t.Admits v → ¬ Joined d (v.graph g) n m)
    (fun m t u hst htu hdone v hv => hdone v (htu.admits (hst.wf hs) hv)) ?_
  intro m hm t hst
  refine Sound.narrowing_exactly
    (Store.excludeArc_keeps (hst.steps.wf hs) g (d.arc n m).1 (d.arc n m).2) ?_
  exact fun v hv hsat => h v (hst.steps.admits hs hv) hsat m hm

theorem possible_of_joined (hs : s.Wf) {v : Valuation} (hv : s.Admits v)
    (h : Joined d (v.graph g) n m) : m ∈ d.neighbours (s.graph g).envelope n :=
  (mem_neighbours (hs.graph g).envelope).mpr ((hv.graph g).envelopeArcs _ _ h)

theorem joined_of_certain (hs : s.Wf) {v : Valuation} (hv : s.Admits v)
    (h : m ∈ d.neighbours (s.graph g).kernel n) : Joined d (v.graph g) n m :=
  (hv.graph g).kernelArcs _ _ ((mem_neighbours (hs.graph g).kernel).mp h)

/-- What is demanded at a node without certain neighbour. -/
theorem Allowed.of_uncertain (hs : s.Wf) (hbut : n ≠ but)
    (hk : d.neighbours (s.graph g).kernel n = []) {v : Valuation} (hv : s.Admits v)
    (hpossible : n ∈ (v.graph g).nodes → d.neighbours (s.graph g).envelope n ≠ [])
    (honly : (s.graph g).kernel.hasNode n = true →
      ∀ k, d.neighbours (s.graph g).envelope n = [k] → Joined d (v.graph g) n k) :
    Allowed d but (s.graph g) (v.graph g) n where
  exception := fun heq => absurd heq hbut
  certain := fun _ k hkernel => by
    have hmem := (mem_neighbours (hs.graph g).kernel).mpr hkernel
    rw [hk] at hmem
    exact absurd hmem List.not_mem_nil
  possible := fun _ hn => by
    obtain ⟨m, hm⟩ := List.exists_mem_of_ne_nil _ (hpossible hn)
    exact ⟨m, (mem_neighbours (hs.graph g).envelope).mp hm⟩
  only := fun _ hn k hall => by
    -- a list without repetition whose elements are all the same has at most one
    have hsame : ∀ m ∈ d.neighbours (s.graph g).envelope n, m = k := fun m hm =>
      hall m ((mem_neighbours (hs.graph g).envelope).mp hm)
    have hnodup := nodup_neighbours d (s.graph g).envelope n
    have hsome := hpossible ((hv.graph g).kernelNodes n hn)
    refine honly hn k ?_
    match hlist : d.neighbours (s.graph g).envelope n with
    | [] => exact absurd hlist hsome
    | [m] =>
      rw [hlist] at hsame
      rw [hsame m List.mem_cons_self]
    | m :: m' :: rest =>
      rw [hlist] at hsame hnodup
      rw [hsame m List.mem_cons_self, hsame m' (List.mem_cons_of_mem _ List.mem_cons_self)] at hnodup
      exact absurd List.mem_cons_self (List.nodup_cons.mp hnodup).1

section

variable (hs : s.Wf) (h : ∀ v, s.Admits v → sat v → Allowed d but (s.graph g) (v.graph g) n)

include hs h

/-- The exceptional node loses all arcs. -/
theorem sound_exception (hbut : n = but) :
    Sound sat (removeArcs d g n (d.neighbours (s.graph g).envelope n)) s
      fun _ t => ∀ v, t.Admits v → Allowed d but (s.graph g) (v.graph g) n := by
  refine (sound_removeArcs hs fun v hv hsat m _ => (h v hv hsat).exception hbut m).imp ?_
  intro _ t hst hleft v hv
  exact ⟨fun _ m hjoined => hleft m (possible_of_joined hs (hst.admits hs hv) hjoined) v hv hjoined,
    fun hne => absurd hbut hne, fun hne => absurd hbut hne, fun hne => absurd hbut hne⟩

/-- One certain neighbour excludes all others. -/
theorem sound_certain (hbut : n ≠ but) {chosen : Nat}
    (hk : d.neighbours (s.graph g).kernel n = [chosen]) :
    Sound sat (removeArcs d g n ((d.neighbours (s.graph g).envelope n).filter (· != chosen))) s
      fun _ t => ∀ v, t.Admits v → Allowed d but (s.graph g) (v.graph g) n := by
  have hg := hs.graph g
  have hchosen : chosen ∈ d.neighbours (s.graph g).kernel n := hk ▸ List.mem_cons_self
  refine (sound_removeArcs hs fun v hv hsat m hm hjoined => ?_).imp fun _ t hst hleft v hv => ?_
  · obtain ⟨-, hne⟩ := List.mem_filter.mp hm
    rw [(h v hv hsat).certain hbut chosen ((mem_neighbours hg.kernel).mp hchosen) m hjoined] at hne
    simp at hne
  · have hv' := hst.admits hs hv
    have hjoined := joined_of_certain hs hv' hchosen
    have hfound := (mem_neighbours hg.envelope).mp (possible_of_joined hs hv' hjoined)
    refine ⟨fun heq => absurd heq hbut, fun _ k hkernel m hm => ?_, fun _ _ => ⟨chosen, hfound⟩,
      fun _ _ k hall => hall chosen hfound ▸ hjoined⟩
    have hk' := (mem_neighbours hg.kernel).mpr hkernel
    rw [hk] at hk'
    rw [List.mem_singleton.mp hk']
    by_contra hne
    refine hleft m (List.mem_filter.mpr ⟨possible_of_joined hs hv' hm, ?_⟩) v hv hm
    simpa using hne

/-- Two certain neighbours are too many. -/
theorem not_sat_of_certain (hbut : n ≠ but) {first second : Nat} {rest : List Nat}
    (hk : d.neighbours (s.graph g).kernel n = first :: second :: rest) {v : Valuation}
    (hv : s.Admits v) : ¬ sat v := by
  intro hsat
  have hfirst : first ∈ d.neighbours (s.graph g).kernel n := hk ▸ List.mem_cons_self
  have hsecond : second ∈ d.neighbours (s.graph g).kernel n :=
    hk ▸ List.mem_cons_of_mem _ List.mem_cons_self
  have heq := (h v hv hsat).certain hbut first ((mem_neighbours (hs.graph g).kernel).mp hfirst)
    second (joined_of_certain hs hv hsecond)
  have hnodup := nodup_neighbours d (s.graph g).kernel n
  rw [hk, heq] at hnodup
  exact (List.nodup_cons.mp hnodup).1 List.mem_cons_self

/-- Without possible neighbour the node cannot be there. -/
theorem sound_lonely (hbut : n ≠ but) (hk : d.neighbours (s.graph g).kernel n = [])
    (hp : d.neighbours (s.graph g).envelope n = []) :
    Sound sat (if (s.graph g).kernel.hasNode n then refuse else narrowing (·.excludeNode g n)) s
      fun _ t => ∀ v, t.Admits v → Allowed d but (s.graph g) (v.graph g) n := by
  have habsent : ∀ v, s.Admits v → sat v → n ∉ (v.graph g).nodes := by
    intro v hv hsat hn
    obtain ⟨m, hm⟩ := (h v hv hsat).possible hbut hn
    have hmem := (mem_neighbours (hs.graph g).envelope).mpr hm
    rw [hp] at hmem
    exact List.not_mem_nil hmem
  by_cases hneeded : (s.graph g).kernel.hasNode n = true
  · rw [if_pos hneeded]
    exact Sound.refuse fun v hv hsat => habsent v hv hsat ((hv.graph g).kernelNodes n hneeded)
  · rw [if_neg hneeded]
    refine (Sound.narrowing_exactly (Store.excludeNode_keeps hs g n) habsent).imp
      fun _ t hst hleft v hv => ?_
    exact .of_uncertain hs hbut hk (hst.admits hs hv) (fun hn => absurd hn (hleft v hv))
      fun hn => absurd hn hneeded

/-- The only possible neighbour of a certain node is its neighbour. -/
theorem sound_only (hbut : n ≠ but) (hk : d.neighbours (s.graph g).kernel n = []) {only : Nat}
    (hp : d.neighbours (s.graph g).envelope n = [only]) :
    Sound sat (if (s.graph g).kernel.hasNode n
        then narrowing (·.includeArc g (d.arc n only).1 (d.arc n only).2) else pure ()) s
      fun _ t => ∀ v, t.Admits v → Allowed d but (s.graph g) (v.graph g) n := by
  have hsome : d.neighbours (s.graph g).envelope n ≠ [] := hp ▸ List.cons_ne_nil _ _
  by_cases hneeded : (s.graph g).kernel.hasNode n = true
  · rw [if_pos hneeded]
    refine (Sound.narrowing_exactly (Store.includeArc_keeps hs g _ _) fun v hv hsat => ?_).imp
      fun _ t hst hleft v hv => ?_
    · refine (h v hv hsat).only hbut hneeded only fun m hm => ?_
      have hmem := (mem_neighbours (hs.graph g).envelope).mpr hm
      rw [hp] at hmem
      exact List.mem_singleton.mp hmem
    · refine .of_uncertain hs hbut hk (hst.admits hs hv) (fun _ => hsome) fun _ k hsingle => ?_
      rw [hp] at hsingle
      exact List.singleton_inj.mp hsingle ▸ hleft v hv
  · rw [if_neg hneeded]
    exact Sound.pure fun v hv =>
      .of_uncertain hs hbut hk hv (fun _ => hsome) fun hn => absurd hn hneeded

theorem sound_filterNode : Sound sat (filterNode d g but n) s
    fun _ t => ∀ v, t.Admits v → Allowed d but (s.graph g) (v.graph g) n := by
  unfold filterNode
  refine Sound.bind_read ?_
  by_cases hbut : n = but
  · rw [if_pos hbut]
    exact sound_exception hs h hbut
  rw [if_neg hbut]
  refine Sound.bind_read ?_
  match hk : d.neighbours (s.graph g).kernel n with
  | [chosen] => exact sound_certain hs h hbut hk
  | _ :: _ :: _ => exact Sound.refuse fun v hv => not_sat_of_certain hs h hbut hk hv
  | [] =>
    refine Sound.bind_read ?_
    match hp : d.neighbours (s.graph g).envelope n with
    | [] => exact sound_lonely hs h hbut hk hp
    | [only] => exact sound_only hs h hbut hk hp
    | _ :: _ :: _ =>
      -- several neighbours are possible
      refine Sound.pure fun v hv => .of_uncertain hs hbut hk hv (fun _ => ?_) fun _ k hsingle => ?_
      · exact hp ▸ List.cons_ne_nil _ _
      · rw [hp] at hsingle
        cases hsingle

end

/-! ### All nodes -/

theorem sound (hs : s.Wf) (h : (Filter.oneNeighbour d g but).Granted sat s) :
    Sound sat (filter d g but) s fun _ t => Done (.oneNeighbour d g but) l s t := by
  unfold filter
  refine Sound.bind_read ?_
  refine (Sound.forM_reaches (D := fun n t => ∀ v, t.Admits v →
    Allowed d but (s.graph g) (v.graph g) n) ?_ ?_).imp ?_
  · exact fun n t u hst htu hdone v hv => hdone v (htu.admits (hst.wf hs) hv)
  · intro n _ t hst
    have ht := hst.steps.wf hs
    have hback : ∀ {v : Valuation}, Allowed d but (t.graph g) (v.graph g) n →
        Allowed d but (s.graph g) (v.graph g) n := fun hallowed =>
      hallowed.of_narrower (hst.steps.narrower hs)
    refine Sound.bind_read ?_
    by_cases hn : (t.graph g).envelope.hasNode n = true
    · rw [if_pos hn]
      exact (sound_filterNode ht fun v hv hsat => h t hst v hv hsat l n).imp
        fun _ _ _ hdone v hv => hback (hdone v hv)
    · -- nothing is demanded at a node that is not there
      rw [if_neg hn]
      refine Sound.pure fun v hv => hback ?_
      exact .of_notMem (hv.graph g) fun hmem => hn ((hv.graph g).envelopeNodes n hmem)
  · intro _ t hst hdone v hv n
    by_cases hn : n < (s.graph g).order
    · exact hdone n (List.mem_range.mpr hn) v hv
    · have hv' := (hst.admits hs hv).graph g
      exact .of_notMem hv' fun hmem =>
        hn ((hs.graph g).envelope.lt_of_hasNode (hv'.envelopeNodes n hmem))

/-- What the test on the arcs of a graph says. -/
theorem all_iff {order : Nat} {graph : Digraph} (hg : graph.Wf order) :
    ((List.range order).all fun n => !graph.hasNode n
        || (d.neighbours graph n).length == (if n = but then 0 else 1)) = true
      ↔ OneNeighbourBut d but (GraphDomain.content hg) := by
  have hjoined : ∀ n m, Joined d (GraphDomain.content hg) n m ↔ m ∈ d.neighbours graph n :=
    fun n m => (mem_neighbours hg).symm
  rw [List.all_eq_true]
  constructor
  · intro hall n hn
    have hn' : graph.hasNode n = true := hn
    have hnode := hall n (List.mem_range.mpr (hg.lt_of_hasNode hn))
    simp only [hn', Bool.not_true, Bool.false_or, beq_iff_eq] at hnode
    constructor
    · intro hbut m hm
      rw [if_pos hbut, List.length_eq_zero_iff] at hnode
      rw [hjoined, hnode] at hm
      exact List.not_mem_nil hm
    · intro hbut
      rw [if_neg hbut, List.length_eq_one_iff] at hnode
      obtain ⟨chosen, hchosen⟩ := hnode
      refine ⟨chosen, (hjoined n chosen).mpr (hchosen ▸ List.mem_cons_self), fun m hm => ?_⟩
      have hmem := (hjoined n m).mp hm
      rw [hchosen] at hmem
      exact List.mem_singleton.mp hmem
  · intro hone n _
    by_cases hn : graph.hasNode n = true
    swap
    · rw [Bool.eq_false_iff.mpr hn]
      rfl
    obtain ⟨hnone, hunique⟩ := hone n hn
    rw [hn, Bool.not_true, Bool.false_or, beq_iff_eq]
    by_cases hbut : n = but
    · rw [if_pos hbut, List.length_eq_zero_iff, List.eq_nil_iff_forall_not_mem]
      exact fun m hm => hnone hbut m ((hjoined n m).mpr hm)
    · rw [if_neg hbut]
      obtain ⟨chosen, hchosen, honly⟩ := hunique hbut
      -- the list has no repetitions
      refine List.length_eq_one_iff.mpr ⟨chosen, ?_⟩
      refine List.perm_singleton.mp ((List.perm_ext_iff_of_nodup (nodup_neighbours d graph n)
        (List.nodup_singleton chosen)).mpr fun m => ?_)
      rw [← hjoined, List.mem_singleton]
      exact ⟨honly m, fun heq => heq ▸ hchosen⟩

theorem judges (hs : s.Wf) :
    Judges (fun v => OneNeighbourBut d but (v.graph g)) s ((s.graph g).isFixed = true)
      (entailment d g but s) := by
  have hg := hs.graph g
  unfold entailment
  simp only
  by_cases hfixed : (s.graph g).isFixed = true
  · have honly : ∀ v, s.Admits v → v.graph g = GraphDomain.content hg.kernel := fun v hv =>
      GraphDomain.admits_unique hg hfixed (hv.graph g)
    rw [hfixed]
    simp only [Bool.not_true, Bool.false_eq_true, if_false]
    split
    next hall =>
      refine ⟨fun _ v hv => ?_, nofun, nofun⟩
      rw [honly v hv]
      exact (all_iff hg.kernel).mp hall
    next hnot =>
      refine ⟨nofun, fun _ v hv hsat => hnot ?_, nofun⟩
      rw [honly v hv] at hsat
      exact (all_iff hg.kernel).mpr hsat
  · rw [Bool.eq_false_iff.mpr hfixed]
    exact ⟨nofun, nofun, fun hsettled => nomatch hsettled⟩

end FiniteDomain.OneNeighbour
