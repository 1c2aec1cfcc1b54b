import FiniteDomain.Problem.HamiltonianPath
import FiniteDomain.Proofs.Model.Postable
import FiniteDomain.Proofs.Search.Complete

/-! # Exact enumeration of paths

    Demanding a path over all nodes posts filters of which one checks less than it
    says, so the solutions of the space are not all that can be said.  But what
    passes all filters is a path (`Filter.Hamiltonian.of_chainsOnly`), so nothing
    else is left when a search has fixed the graph.

    The graphs that a search hands out are therefore the paths over all nodes along
    the given arcs (`Solver.lists_tours`), and a solution that is written tells the
    nodes in the order in which the path visits them (`Solution.Draws.text`). -/

namespace FiniteDomain

/-! ### Following a path -/

section

variable {as : List (Nat × Nat)} {path : List Nat} {m i steps : Nat}

/-- Following the steps of a path from a position tells what comes after it. -/
theorem Output.follow_eq (hnodup : path.Nodup)
    (has : ∀ m n, (m, n) ∈ as ↔ Consecutive path m n) (hi : path[i]? = some m)
    (hsteps : path.length ≤ i + 1 + steps) : Output.follow as steps m = path.drop (i + 1) := by
  induction steps generalizing i m with
  | zero => exact (List.drop_eq_nil_of_le hsteps).symm
  | succ steps ih =>
    unfold Output.follow
    split
    next k n hfind =>
      -- what is found is the step from this position, since the node is at no other one
      obtain rfl : k = m := by simpa using List.find?_some hfind
      obtain ⟨j, hj, hn⟩ := (has k n).mp (List.mem_of_find?_eq_some hfind)
      obtain rfl := position_unique hnodup hi hj
      obtain ⟨hlt, hget⟩ := List.getElem?_eq_some_iff.mp hn
      rw [List.drop_eq_getElem_cons hlt, hget, ih hn (by omega)]
    next hfind =>
      have hend : path.length ≤ i + 1 := by
        by_contra hlt
        have hstep : Consecutive path m path[i + 1] :=
          ⟨i, hi, List.getElem?_eq_getElem (Nat.lt_of_not_le hlt)⟩
        simpa using List.find?_eq_none.mp hfind _ ((has _ _).mpr hstep)
      exact (List.drop_eq_nil_of_le hend).symm

/-- There is a step from every node but the last. -/
theorem length_le_of_consecutive (hnodup : path.Nodup)
    (has : ∀ m n, (m, n) ∈ as ↔ Consecutive path m n) : path.length ≤ as.length + 1 := by
  have hsubset : path.dropLast ⊆ as.map Prod.fst := by
    intro m hm
    obtain ⟨i, hlt, rfl⟩ := List.mem_iff_getElem.mp hm
    have hlt' : i + 1 < path.length := by
      rw [List.length_dropLast] at hlt
      omega
    rw [List.getElem_dropLast]
    have hstep : Consecutive path path[i] path[i + 1] :=
      ⟨i, List.getElem?_eq_getElem _, List.getElem?_eq_getElem hlt'⟩
    exact List.mem_map.mpr ⟨_, (has _ _).mpr hstep, rfl⟩
  have hlength := (List.subperm_of_subset (hnodup.sublist (List.dropLast_sublist _)) hsubset).length_le
  rw [List.length_dropLast, List.length_map] at hlength
  omega

end

/-- The solution has all nodes below the order, and its arcs are the steps of the path. -/
structure Solution.Draws (sol : Solution) (g : GraphId) (order : Nat) (path : List Nat) : Prop where
  /-- All nodes belong to the graph. -/
  nodes : ∀ n, n ∈ sol.nodes g ↔ n < order
  /-- The arcs are those from a node of the path to the next one. -/
  arcs : ∀ m n, (m, n) ∈ sol.arcs g ↔ Consecutive path m n

/-- A path is written with its nodes in the order in which it visits them. -/
theorem Solution.Draws.text {sol : Solution} {g : GraphId} {order source sink : Nat}
    {path : List Nat} (h : sol.Draws g order path) (htour : Tour order source sink path)
    (name : String) : (Output.path name g source).text sol = .ok (Output.listing name path) := by
  have hsteps : path.length ≤ 0 + 1 + (sol.arcs g).length := by
    have hlength := length_le_of_consecutive htour.nodup h.arcs
    omega
  have hfollow := Output.follow_eq htour.nodup h.arcs htour.first_eq hsteps
  obtain ⟨rest, hpath⟩ := List.head?_eq_some_iff.mp htour.first
  have hwritten : source :: Output.follow (sol.arcs g) (sol.arcs g).length source = path := by
    rw [hfollow, hpath]
    rfl
  exact congrArg (fun nodes => Except.ok (Output.listing name nodes)) hwritten

/-! ### Lists of paths -/

/-- The arc sets of the solutions are those of the paths over all nodes along given arcs, each of
    them once. -/
structure ListsTours (order source sink : Nat) (arcs : List (Nat × Nat)) (g : GraphId)
    (sols : List Solution) (paths : List (List Nat)) : Prop where
  /-- Every solution draws its path. -/
  draws : List.Forall₂ (Solution.Draws · g order ·) sols paths
  /-- No two solutions have the same arcs. -/
  distinct : sols.Pairwise fun sol other => ¬ ∀ arc, arc ∈ sol.arcs g ↔ arc ∈ other.arcs g
  /-- The paths are those along given arcs. -/
  mem_paths : ∀ path, path ∈ paths ↔ Tour order source sink path
    ∧ ∀ m n, Consecutive path m n → (m, n) ∈ arcs

namespace ListsTours

variable {order source sink : Nat} {arcs : List (Nat × Nat)} {g : GraphId} {sols : List Solution}
  {paths : List (List Nat)}

/-- No path over several nodes ends where it starts. -/
theorem nil_of_ends (h : ListsTours order source source arcs g sols paths) (horder : 1 < order) :
    sols = [] := by
  have hpaths : paths = [] := List.eq_nil_iff_forall_not_mem.mpr fun path hpath =>
    absurd ((h.mem_paths path).mp hpath).1.order_of_ends (Nat.ne_of_gt horder)
  have hlength := h.draws.length_eq
  rw [hpaths] at hlength
  exact List.length_eq_zero_iff.mp hlength

/-- The path over a single node has no arc. -/
theorem single (h : ListsTours 1 0 0 arcs g sols paths) :
    ∃ sol, sols = [sol] ∧ sol.arcs g = [] := by
  have hnone : ∀ m n, ¬ Consecutive [0] m n := by
    rintro m n ⟨i, hm, hn⟩
    obtain ⟨hlt, -⟩ := List.getElem?_eq_some_iff.mp hn
    simp at hlt
  have hmem : [0] ∈ paths :=
    (h.mem_paths [0]).mpr ⟨.single, fun m n hstep => absurd hstep (hnone m n)⟩
  have hempty : ∀ sol ∈ sols, sol.arcs g = [] := by
    intro sol hsol
    obtain ⟨i, hi, rfl⟩ := List.mem_iff_getElem.mp hsol
    have hi' : i < paths.length := h.draws.length_eq ▸ hi
    have hdraws := h.draws.get hi hi'
    obtain ⟨htour, -⟩ := (h.mem_paths _).mp (List.getElem_mem hi')
    refine List.eq_nil_iff_forall_not_mem.mpr fun ⟨m, n⟩ harc => hnone m n ?_
    rw [← htour.eq_single]
    exact (hdraws.arcs m n).mp harc
  obtain ⟨sol, rest, rfl⟩ : ∃ sol rest, sols = sol :: rest := by
    have hlength := h.draws.length_eq
    have hpos := List.length_pos_of_mem hmem
    exact List.exists_cons_of_length_pos (hlength ▸ hpos)
  refine ⟨sol, ?_, hempty sol List.mem_cons_self⟩
  -- a second solution would have no arc either
  cases rest with
  | nil => rfl
  | cons other rest =>
    have hdiffer := List.rel_of_pairwise_cons h.distinct List.mem_cons_self
    refine absurd (fun arc => ?_) hdiffer
    rw [hempty sol List.mem_cons_self, hempty other (List.mem_cons_of_mem _ List.mem_cons_self)]

/-- The solutions are written as the paths that they draw. -/
theorem lines (h : ListsTours order source sink arcs g sols paths) {inst : Instance} {name : String}
    (houtputs : inst.outputs = [.path name g source]) :
    List.Forall₂ (fun sol path => inst.lines sol = .ok [Output.listing name path]) sols paths := by
  refine List.forall₂_iff_get.mpr ⟨h.draws.length_eq, fun i hi hi' => ?_⟩
  obtain ⟨htour, -⟩ := (h.mem_paths _).mp (List.getElem_mem hi')
  have htext := (h.draws.get hi hi').text htour name
  simp only [List.get_eq_getElem] at htext
  unfold Instance.lines
  rw [houtputs, List.mapM_cons, List.mapM_nil, List.get_eq_getElem, htext]
  rfl

end ListsTours

/-! ### A single graph -/

/-- The store with one graph variable. -/
def Store.ofGraph (d : GraphDomain) : Store := (Store.empty.addGraph d).2

namespace Store

variable {d : GraphDomain} {a : Valuation}

theorem wf_ofGraph (hd : d.Wf) : (ofGraph d).Wf := wf_empty.addGraph hd

theorem knows_ofGraph {v : VariableId} (h : (ofGraph d).knows v = true) : v = .graph ⟨0⟩ := by
  cases v with
  | int x =>
    have hlt : x.index < 0 := of_decide_eq_true h
    exact absurd hlt (Nat.not_lt_zero _)
  | set y =>
    have hlt : y.index < 0 := of_decide_eq_true h
    exact absurd hlt (Nat.not_lt_zero _)
  | graph g =>
    have hlt : g.index < 1 := of_decide_eq_true h
    exact congrArg (fun i => VariableId.graph ⟨i⟩) (Nat.lt_one_iff.mp hlt)

theorem interior_ofGraph : (ofGraph d).Interior := by
  intro x hx
  cases knows_ofGraph hx

variable {order source sink : Nat} {arcs : List (Nat × Nat)} {b : Valuation} {path : List Nat}

/-- A valuation that is looked for gives the arcs of a path to the graph. -/
theorem exists_tour (hd : GraphDomain.subgraphsOf order arcs = .ok d) (hsource : source < order)
    (hsink : sink < order) (ha : (ofGraph d).Admits a)
    (hpath : Filter.Hamiltonian order source sink (a.graph ⟨0⟩)) :
    ∃ path, (Tour order source sink path ∧ ∀ m n, Consecutive path m n → (m, n) ∈ arcs)
      ∧ (a.graph ⟨0⟩).Traces order path := by
  obtain ⟨hinside, hamong⟩ := (GraphDomain.admits_subgraphsOf hd).mp (ha.graph ⟨0⟩)
  obtain ⟨path, htour, htraces⟩ := (Filter.hamiltonian_iff hsource hsink hinside).mp hpath
  exact ⟨path, ⟨htour, fun m n hstep => hamong m n ((htraces.arcs m n).mpr hstep)⟩, htraces⟩

/-- The arcs of every path along given arcs are given by a valuation that is looked for. -/
theorem exists_admits_of_tour (hd : GraphDomain.subgraphsOf order arcs = .ok d)
    (htour : Tour order source sink path) (halong : ∀ m n, Consecutive path m n → (m, n) ∈ arcs) :
    ∃ a, (ofGraph d).Admits a ∧ Filter.Hamiltonian order source sink (a.graph ⟨0⟩)
      ∧ (a.graph ⟨0⟩).Traces order path := by
  obtain ⟨b, hb⟩ := (wf_ofGraph (GraphDomain.subgraphsOf_spec hd).1).exists_admits
  have hadmits : ((ofGraph d).graph ⟨0⟩).Admits htour.graph :=
    (GraphDomain.admits_subgraphsOf hd).mpr ⟨fun _ hn => hn, halong⟩
  have htraces : ((b.withGraph ⟨0⟩ htour.graph).graph ⟨0⟩).Traces order path := by
    rw [Valuation.graph_withGraph_self]
    exact htour.traces_graph
  exact ⟨_, hb.withGraph hadmits, Filter.hamiltonian_of_traces htour htraces, htraces⟩

/-- Valuations that are looked for differ in their arcs. -/
theorem eq_of_arcs (hd : GraphDomain.subgraphsOf order arcs = .ok d)
    (ha : (ofGraph d).Admits a) (hb : (ofGraph d).Admits b)
    (hnodes : ∀ n < order, n ∈ (a.graph ⟨0⟩).nodes) (hnodes' : ∀ n < order, n ∈ (b.graph ⟨0⟩).nodes)
    (harcs : ∀ arc, arc ∈ (a.graph ⟨0⟩).arcs ↔ arc ∈ (b.graph ⟨0⟩).arcs) : a = b := by
  have hinside := ((GraphDomain.admits_subgraphsOf hd).mp (ha.graph ⟨0⟩)).1
  have hinside' := ((GraphDomain.admits_subgraphsOf hd).mp (hb.graph ⟨0⟩)).1
  have hgraph : a.graph ⟨0⟩ = b.graph ⟨0⟩ := by
    refine Subgraph.ext (Set.ext fun n => ?_) (Set.ext harcs)
    exact ⟨fun hn => hnodes' n (hinside n hn), fun hn => hnodes n (hinside' n hn)⟩
  refine ha.ext (wf_ofGraph (GraphDomain.subgraphsOf_spec hd).1) hb fun v hv => ?_
  rw [knows_ofGraph hv]
  exact hgraph

end Store

/-- Every choice among the arcs of the only graph suits, alone or as a sequence. -/
theorem Strategy.suits_arcs {d : GraphDomain} {s : Store} (h : (Store.ofGraph d).Narrower s)
    {selection : ArcSelection}
    (hsource : ∀ source, selection = .pathExtension source → source < d.order) :
    (Strategy.arcs ⟨0⟩ selection).Suits s
      ∧ (Strategy.sequence [.arcs ⟨0⟩ selection] 0).Suits s := by
  have hfits : Strategy.Fits s s (.arcs ⟨0⟩ selection) := by
    refine ⟨h.knows (.graph ⟨0⟩), fun source hselection => ?_⟩
    rw [h.order]
    exact hsource source hselection
  have hall : ∀ v, s.knows v = true → v ∈ [VariableId.graph ⟨0⟩] := fun v hv =>
    List.mem_singleton.mpr (Store.knows_ofGraph ((h.knows v).symm.trans hv))
  exact ⟨Or.inr (Or.inr ⟨hfits, hall⟩), Or.inr (Or.inr ⟨⟨hfits, trivial⟩, hall⟩)⟩

/-- Lists of the valuations that are looked for are lists of paths. -/
theorem SolutionStream.Lists.tours {order source sink : Nat} {arcs : List (Nat × Nat)}
    {d : GraphDomain} (hd : GraphDomain.subgraphsOf order arcs = .ok d)
    (hsource : source < order) (hsink : sink < order) {sols : List Solution}
    (h : SolutionStream.Lists sols fun a => (Store.ofGraph d).Admits a
      ∧ Filter.Hamiltonian order source sink (a.graph ⟨0⟩)) :
    ∃ paths, ListsTours order source sink arcs ⟨0⟩ sols paths := by
  obtain ⟨vals, hreads, hnodup, hmem⟩ := h
  have hlength := hreads.length_eq
  choose! pathOf hpathOf using fun a ha =>
    Store.exists_tour hd hsource hsink ((hmem a).mp ha).1 ((hmem a).mp ha).2
  refine ⟨vals.map pathOf, ?_, ?_, fun path => ?_⟩
  · refine List.forall₂_map_right_iff.mpr (List.forall₂_iff_get.mpr ⟨hlength, fun i hi hi' => ?_⟩)
    have hread := hreads.get hi hi'
    obtain ⟨-, htraces⟩ := hpathOf _ (List.getElem_mem hi')
    exact ⟨fun n => (hread.nodes ⟨0⟩ n).trans (htraces.nodes n),
      fun m n => (hread.arcs ⟨0⟩ m n).trans (htraces.arcs m n)⟩
  · refine List.pairwise_iff_getElem.mpr fun i j hi hj hlt hsame => ?_
    have hi' : i < vals.length := hlength ▸ hi
    have hj' : j < vals.length := hlength ▸ hj
    have hread := hreads.get hi hi'
    have hread' := hreads.get hj hj'
    obtain ⟨ha, hpath⟩ := (hmem _).mp (List.getElem_mem hi')
    obtain ⟨hb, hpath'⟩ := (hmem _).mp (List.getElem_mem hj')
    -- two solutions with the same arcs are one valuation, which is listed once
    have heq : vals[i] = vals[j] := Store.eq_of_arcs hd ha hb hpath.nodes hpath'.nodes fun arc =>
      (hread.arcs ⟨0⟩ arc.1 arc.2).symm.trans ((hsame arc).trans (hread'.arcs ⟨0⟩ arc.1 arc.2))
    exact Nat.ne_of_lt hlt (hnodup.getElem_inj_iff.mp heq)
  · rw [List.mem_map]
    constructor
    · rintro ⟨a, ha, rfl⟩
      exact (hpathOf a ha).1
    · rintro ⟨htour, halong⟩
      obtain ⟨a, hadmits, hpath, htraces⟩ := Store.exists_admits_of_tour hd htour halong
      have ha := (hmem a).mpr ⟨hadmits, hpath⟩
      obtain ⟨⟨htour', -⟩, htraces'⟩ := hpathOf a ha
      exact ⟨a, ha, htour'.eq_of_consecutive htour fun m n =>
        (htraces'.arcs m n).symm.trans (htraces.arcs m n)⟩

/-! ### Complete graphs -/

namespace Modelling

variable {order m n : Nat}

theorem mem_completeArcs : (m, n) ∈ completeArcs order ↔ m < order ∧ n < order ∧ n ≠ m := by
  simp [completeArcs]

theorem completeArcs_of_consecutive (h : Consecutive (List.range order) m n) :
    (m, n) ∈ completeArcs order := by
  obtain ⟨rfl, hlt⟩ := consecutive_range.mp h
  exact mem_completeArcs.mpr ⟨Nat.lt_of_succ_lt hlt, hlt, Nat.succ_ne_self m⟩

end Modelling

/-! ### Demanding a path -/

namespace Solver

open Program Modelling

variable {order source sink : Nat} {arcs : List (Nat × Nat)} {d : GraphDomain}
  {sv : Solver Filter}

/-- A solver with one graph, of which nothing is demanded. -/
theorem represents_newGraph (random : Random) (harcs : ∀ arc ∈ arcs, arc.1 < order ∧ arc.2 < order)
    (hd : GraphDomain.subgraphsOf order arcs = .ok d) (name? : Option String) :
    ∃ sv, (newGraph order arcs name? : Modelling Filter GraphId).run.run (Solver.empty random)
        = .ok (.ok ⟨0⟩, sv)
      ∧ sv.Represents .lapses (Store.ofGraph d) fun _ => True := by
  have hempty := represents_empty (k := .lapses) random
  obtain ⟨names, hadd⟩ := run_add (·.addGraph d) VariableId.graph name? (Solver.empty random)
  have hrun := (run_newGraph hempty.resting.root harcs hd name?).trans hadd
  have hgrow := Store.growAlike_addGraph hempty.wf hempty.narrower
    (GraphDomain.subgraphsOf_spec hd).1
  have honward := ((kept_onward _).upholds_newGraph order arcs name?).keeps _ _ _
    hempty.resting.onward hrun
  exact ⟨_, hrun, hempty.grows Concern.persists_lapses (fun _ _ _ => Iff.rfl) honward.resting rfl
    rfl hgrow⟩

/-- After a path was demanded, the paths along given arcs are listed, whatever strategy decides the
    graph; if the demand was refused, there are none. -/
theorem Represents.toList_tours (h : sv.Represents .lapses (Store.ofGraph d) fun _ => True)
    (hd : GraphDomain.subgraphsOf order arcs = .ok d) (hsource : source < order)
    (hsink : sink < order) :
    ∃ r sv', (Constraint.postHamiltonianPath ⟨0⟩ source sink).run.run sv = .ok (r, sv')
      ∧ (r = .ok () ∨ ∀ path, Tour order source sink path →
          ¬ ∀ m n, Consecutive path m n → (m, n) ∈ arcs)
      ∧ (Store.ofGraph d).Narrower sv'.store
      ∧ ∀ b : Strategy, b.Suits sv'.store → ∃ sols paths st',
          (SolutionStream.ofSearch ⟨sv', b, Limit.indefinite⟩).toList
            = .ok (sols, SolutionStream.lastAnswer (!sols.isEmpty), st')
          ∧ ListsTours order source sink arcs ⟨0⟩ sols paths := by
  have horder : ((Store.ofGraph d).graph ⟨0⟩).order = order := (GraphDomain.subgraphsOf_spec hd).2.1
  obtain ⟨r, sv', hrun, hafter, htightens, hcase⟩ := Constraint.demands_hamiltonianPath
    Concern.regards_lapses (by rfl) (horder ▸ hsource) (horder ▸ hsink) h
  rw [horder] at hafter htightens
  have hlooked : sv'.Represents .lapses (Store.ofGraph d) fun a =>
      Filter.Hamiltonian order source sink (a.graph ⟨0⟩) :=
    hafter.congr fun _ _ => and_iff_right trivial
  refine ⟨r, sv', hrun, hcase.imp_right fun hinfeasible path htour halong => ?_, hafter.narrower,
    fun b hb => ?_⟩
  · obtain ⟨a, hadmits, hpath, -⟩ := Store.exists_admits_of_tour hd htour halong
    exact hlooked.refuted hinfeasible a hadmits hpath
  · have hconclusive : sv'.infeasible = false → sv'.space.Conclusive .lapses := fun hfeasible =>
      hlooked.conclusive hfeasible fun a ha => (htightens.passes hfeasible a ha).2
    obtain ⟨sols, st', hlist, hlists⟩ := hlooked.toList_spec hconclusive Store.interior_ofGraph hb
    obtain ⟨paths, htours⟩ := hlists.tours hd hsource hsink
    exact ⟨sols, paths, st', hlist, htours⟩

/-- The model of a complete graph is built, and its solutions are written as their paths. -/
theorem hamiltonianPath_model (random : Random) (h : 0 < order) :
    ∃ inst sv, runOn (HamiltonianPath.model order) (Solver.empty random : Solver Filter)
        = .ok (.ok inst, sv)
      ∧ inst.strategy.Suits sv.store
      ∧ ∀ b : Strategy, b.Suits sv.store → ∃ sols paths st',
          (SolutionStream.ofSearch ⟨sv, b, Limit.indefinite⟩).toList
            = .ok (sols, SolutionStream.lastAnswer (!sols.isEmpty), st')
          ∧ ListsTours order 0 (order - 1) (completeArcs order) ⟨0⟩ sols paths
          ∧ List.Forall₂ (fun sol path => inst.lines sol = .ok [Output.listing "path" path])
              sols paths := by
  have harcs : ∀ arc ∈ completeArcs order, arc.1 < order ∧ arc.2 < order := fun arc harc =>
    ⟨(mem_completeArcs.mp harc).1, (mem_completeArcs.mp harc).2.1⟩
  obtain ⟨d, hd⟩ := GraphDomain.exists_subgraphsOf harcs
  obtain ⟨mid, hnew, hmid⟩ := represents_newGraph random harcs hd (some "path")
  obtain ⟨r, sv, hpost, hcase, hnarrower, hlists⟩ :=
    hmid.toList_tours hd h (Nat.sub_one_lt_of_lt h)
  -- there is a path, so the demand was not refused
  obtain rfl : r = .ok () := hcase.resolve_right fun hnone =>
    hnone _ (Tour.range h) fun m n hstep => completeArcs_of_consecutive hstep
  have hrun : runOn (HamiltonianPath.model order) (Solver.empty random : Solver Filter)
      = .ok (.ok { outputs := [.path "path" ⟨0⟩ 0]
                   strategy := .sequence [.arcs ⟨0⟩ (.pathExtension 0)] 0
                   objective? := none }, sv) := by
    have hpost' : (Constraint.post (.hamiltonianPath ⟨0⟩ 0 (order - 1))).run.run mid
        = .ok (.ok (), sv) := hpost
    rw [runOn, HamiltonianPath.model, newCompleteGraph, run_bind, hnew]
    simp only [Except.bind]
    rw [run_bind, hpost']
    rfl
  refine ⟨_, sv, hrun, ?_, fun b hb => ?_⟩
  · refine (Strategy.suits_arcs hnarrower fun source hsource => ?_).2
    cases hsource
    rw [(GraphDomain.subgraphsOf_spec hd).2.1]
    exact h
  · obtain ⟨sols, paths, st', hlist, htours⟩ := hlists b hb
    exact ⟨sols, paths, st', hlist, htours, htours.lines rfl⟩

/-! ### Exact enumeration -/

end Solver

end FiniteDomain
