import FiniteDomain.Proofs.Model.Postable
import FiniteDomain.Proofs.Search.Reports

/-! # What is reported of paths

    The filter of paths follows chains of arcs through the first neighbours of
    nodes.  A graph that is reported by any search has been checked in this way, no
    more: there are no arcs into the source or out of the sink and no loops, but
    there may be a cycle if a node has several predecessors
    (`Solver.chains_of_found`). -/

namespace FiniteDomain

/-- The nodes and arcs that the solution tells of the graph variable. -/
structure Solution.Shows (sol : Solution) (g : GraphId) (c : Subgraph) : Prop where
  /-- Its nodes. -/
  nodes : ∀ n, n ∈ sol.nodes g ↔ n ∈ c.nodes
  /-- Its arcs. -/
  arcs : ∀ tail head, (tail, head) ∈ sol.arcs g ↔ (tail, head) ∈ c.arcs

theorem Solution.shows_content {s : Store} {g : GraphId} (hd : (s.graph g).Wf) :
    Solution.Shows ⟨s⟩ g (GraphDomain.content hd.kernel) where
  nodes := fun _ => Digraph.mem_nodeList
  arcs := fun _ _ => hd.kernel.mem_arcList

namespace Search

variable {k : Concern} {cuts : Option Predicate → Prop} {root sp : Space Filter}
  {levels : List Level}

/-- Wherever the alternatives of a search have been carried out, the space is at rest. -/
theorem Opened.atRest (h : Opened cuts root levels sp) (hroot : root.AtRest k) : sp.AtRest k := by
  induction h with
  | root => exact hroot
  | @level level outer base sp d cut? hbase hcheckpoint hcurrent hcut hsettle ih =>
    have hrequests : d.request :: (cut?.map Narrowing.impose).toList
        = (d :: (cut?.map Decision.impose).toList).map Decision.request := by
      cases cut? <;> rfl
    rw [hrequests] at hsettle
    exact ih.settle hsettle

end Search

namespace Solver

open Modelling Program Search FiniteDomain.Filter

variable {origin sv sv' : Solver Filter} {domains : Store} {f : Filter} {g : GraphId}
  {source sink : Nat} {statements : List Statement}

/-- The filter is posted, unless it is known that there is no solution. -/
def Posts (sv : Solver Filter) (f : Filter) : Prop :=
  sv.infeasible = true ∨ ∃ i, sv.space.filterAt? i = some f

theorem Posts.onward (h : origin.Posts f) (honward : origin.Onward sv) : sv.Posts f := by
  rcases h with hinfeasible | ⟨i, hi⟩
  · exact Or.inl (honward.infeasible hinfeasible)
  · exact Or.inr ⟨i, honward.filters i f hi⟩

theorem posts_of_post (h : sv.Resting) {r : Except ModelError Unit}
    (hrun : (post f).run.run sv = .ok (r, sv')) : sv'.Posts f := by
  rcases post_cases h.root hrun with ⟨hinfeasible, -, rfl⟩ | ⟨-, result, space, hpost, hend⟩
  · exact Or.inl hinfeasible
  have hleads := Space.leads_post h.wf hpost
  have hfilter := (hleads.filterAt _).trans Space.filterAt?_entered_self
  rcases hend with ⟨id, -, -, rfl⟩ | ⟨c, -, -, rfl⟩
  · exact Or.inr ⟨_, hfilter⟩
  · exact Or.inl rfl

/-- Posting that there are paths only posts the filter. -/
theorem posts_of_pathNoCycle (h : sv.Resting) (hknown : sv.store.knows (.graph g) = true)
    (hsource : source < (sv.store.graph g).order) (hsink : sink < (sv.store.graph g).order)
    {r : Except ModelError Unit}
    (hrun : runOn (Statement.post (.pathNoCycle g source sink)).program sv = .ok (r, sv')) :
    sv'.Posts (.pathNoCycle g source sink) := by
  refine posts_of_post h (r := r) ?_
  have hprogram : (Constraint.postPathNoCycle g source sink).run.run sv = .ok (r, sv') := hrun
  rw [Constraint.postPathNoCycle, run_bind, run_requireNode hknown hsource] at hprogram
  simp only [Except.bind] at hprogram
  rw [run_bind, run_requireNode hknown hsink] at hprogram
  exact hprogram

/-- A filter of paths among the statements is posted in the end. -/
theorem Poised.posts (h : sv.Poised .lapses domains) (hpermits : domains.Permits statements)
    (hstated : .post (.pathNoCycle g source sink) ∈ statements)
    (hsource : source < ((domains.declare statements).graph g).order)
    (hsink : sink < ((domains.declare statements).graph g).order)
    (hrun : sv.state statements = .ok sv') : sv'.Posts (.pathNoCycle g source sink) := by
  induction statements generalizing sv domains with
  | nil => exact absurd hstated List.not_mem_nil
  | cons st rest ih =>
    obtain ⟨r, mid, hst, hmid, -⟩ := h.stated hpermits.1
    have hrest : mid.state rest = .ok sv' := by
      simp only [Solver.state, hst, bind, Except.bind] at hrun
      exact hrun
    rcases List.mem_cons.mp hstated with rfl | hlater
    · have hknown : domains.knows (.graph g) = true := hpermits.1
      obtain ⟨-, -, -, hgrows⟩ := hmid.state hpermits.2
      change domains.Grows (domains.declare rest) at hgrows
      -- the graph has been there before the statement, so it has not changed since
      have horder : ((domains.declare rest).graph g).order = (sv.store.graph g).order := by
        rw [hgrows.graph g hknown]
        exact (h.narrower.order g).symm
      have hposts := posts_of_pathNoCycle h.resting ((h.narrower.knows _).trans hknown)
        (lt_of_lt_of_eq hsource horder) (lt_of_lt_of_eq hsink horder) hst
      exact hposts.onward (hmid.resting.onward.state hrest)
    · exact ih hmid hpermits.2 hlater hsource hsink hrest

/-- What any search finds is at rest. -/
theorem Poised.atRest_of_found (h : sv.Poised .lapses domains) {B T : Type} [Brancher B]
    [Termination T] {sr last : Search Filter B T} (hvisits : sr.Visits sv)
    (hsolve : sr.solve = .ok (.found, last)) :
    sv.infeasible = false ∧ last.solver.space.AtRest .lapses
      ∧ sv.space.Leads last.solver.space := by
  obtain ⟨hfeasible, levels, sp, hopened, halike⟩ := exists_opened hvisits h.resting hsolve
  have hrest := h.rest hfeasible
  exact ⟨hfeasible, (hopened.atRest hrest).alike halike,
    (hopened.leads hrest.settled hrest.wf).trans halike.leads⟩

/-- A graph for which paths are demanded: whenever a search reports it fixed, it has been checked
    along chains, and the filter judges that it is right.  If no node has two predecessors, there
    is no cycle. -/
theorem chains_of_found {random : Random} (hpermits : Store.empty.Permits statements)
    (hstated : .post (.pathNoCycle g source sink) ∈ statements)
    (hsource : source < ((Store.empty.declare statements).graph g).order)
    (hsink : sink < ((Store.empty.declare statements).graph g).order) :
    ∃ sv, (Solver.empty random).state statements = .ok sv ∧
      ∀ {B T : Type} [Brancher B] [Termination T] {sr last : Search Filter B T}, sr.Visits sv →
        sr.solve = .ok (.found, last) → last.solver.store.Settles (.graph g) →
        ∃ c, last.solver.solution.Shows g c ∧ ChainsOnly source sink c
          ∧ Propagator.entailment (Filter.pathNoCycle g source sink) last.solver.store = .ok .holds
          ∧ ((∀ n m k, (m, n) ∈ c.arcs → (k, n) ∈ c.arcs → m = k) → PathsOnly source sink c) := by
  obtain ⟨sv, hstate, hpoised, -⟩ := (poised_empty random).state hpermits
  refine ⟨sv, hstate, ?_⟩
  intro B T _ _ sr last hvisits hsolve hfixed
  obtain ⟨hfeasible, hrest, hleads⟩ := hpoised.atRest_of_found hvisits hsolve
  have hposts := (poised_empty random).posts hpermits hstated hsource hsink hstate
  -- what was searched is feasible, so that the constraint has been posted
  obtain ⟨i, hi⟩ := hposts.resolve_left (Bool.eq_false_iff.mp hfeasible)
  have hfilter := (hleads.filterAt i).trans hi
  have hd := hrest.wf.graph g
  have hall : ∀ v ∈ (Filter.pathNoCycle g source sink).scope, last.solver.store.Settles v := by
    intro v hv
    rw [List.mem_singleton.mp hv]
    exact hfixed
  obtain ⟨a, ha⟩ := hrest.wf.exists_admits
  have hchains : ChainsOnly source sink (a.graph g) :=
    hrest.watchful.passes hrest.settled hfilter hall ha
  have hholds := (PathNoCycle.entailment_iff hrest.wf (hrest.watchful.ready i _ hfilter) hfixed
    ha).mpr hchains.toTracedBack
  rw [GraphDomain.admits_unique hd hfixed (ha.graph g)] at hchains
  exact ⟨_, Solution.shows_content hd, hchains, hholds, hchains.toTracedBack.pathsOnly⟩

/-- A graph in which node 2 may have two predecessors. -/
def looped : List Statement :=
  [.graph 4 [(0, 2), (2, 1), (2, 3), (3, 2)] none, .post (.pathNoCycle ⟨0⟩ 0 1)]

/-- The first solution has all arcs. -/
theorem looped_found :
    ∃ sv last, (Solver.empty (.ofSeed 0)).state looped = .ok sv
      ∧ (Search.mk sv (Strategy.standard sv.store) Limit.indefinite).solve = .ok (.found, last)
      ∧ last.solver.store.Settles (.graph ⟨0⟩)
      ∧ last.solver.solution.arcs ⟨0⟩ = [(0, 2), (2, 1), (2, 3), (3, 2)]
      ∧ Propagator.entailment (Filter.pathNoCycle ⟨0⟩ 0 1) last.solver.store = .ok .holds := by
  have hrun : (((Solver.empty (.ofSeed 0)).state looped).bind fun sv =>
      (Search.mk sv (Strategy.standard sv.store) Limit.indefinite).solve.bind fun out =>
        (Propagator.entailment (Filter.pathNoCycle ⟨0⟩ 0 1) out.2.solver.store).map fun e =>
          ((out.1, e), (out.2.solver.store.graph ⟨0⟩).isFixed, out.2.solver.solution.arcs ⟨0⟩)).toOption
      = some ((.found, .holds), true, [(0, 2), (2, 1), (2, 3), (3, 2)]) := by
    decide +kernel
  obtain ⟨sv, hstate, hrun⟩ := exists_of_toOption_bind hrun
  obtain ⟨⟨verdict, last⟩, hsolve, hrun⟩ := exists_of_toOption_bind hrun
  obtain ⟨e, hjudged, hrun⟩ := exists_of_toOption_map hrun
  simp only [Prod.mk.injEq] at hrun
  obtain ⟨⟨rfl, rfl⟩, hfixed, harcs⟩ := hrun
  exact ⟨sv, last, hstate, hsolve, hfixed, harcs, hjudged⟩

/-- The first solution has been checked along chains. -/
theorem chains_of_found_looped :
    ∃ sv last c, (Solver.empty (.ofSeed 0)).state looped = .ok sv
      ∧ (Search.mk sv (Strategy.standard sv.store) Limit.indefinite).solve = .ok (.found, last)
      ∧ last.solver.solution.Shows ⟨0⟩ c ∧ ChainsOnly 0 1 c := by
  obtain ⟨sv, last, hstate, hsolve, hfixed, -⟩ := looped_found
  obtain ⟨sv', hstate', hall⟩ := @chains_of_found ⟨0⟩ 0 1 looped (.ofSeed 0)
    ⟨trivial, rfl, trivial⟩ (List.mem_cons_of_mem _ List.mem_cons_self) (by decide) (by decide)
  obtain rfl := Except.ok.inj (hstate.symm.trans hstate')
  obtain ⟨c, hshows, hchains, -⟩ := hall (.start _ _) hsolve hfixed
  exact ⟨sv, last, c, hstate, hsolve, hshows, hchains⟩

/-- It has a cycle, and the filter judges that it is right. -/
theorem cycle_of_found_looped :
    ∃ sv last, (Solver.empty (.ofSeed 0)).state looped = .ok sv
      ∧ (Search.mk sv (Strategy.standard sv.store) Limit.indefinite).solve = .ok (.found, last)
      ∧ last.solver.store.Settles (.graph ⟨0⟩)
      ∧ (∀ c, last.solver.solution.Shows ⟨0⟩ c → ¬ PathsOnly 0 1 c)
      ∧ Propagator.entailment (Filter.pathNoCycle ⟨0⟩ 0 1) last.solver.store = .ok .holds := by
  obtain ⟨sv, last, hstate, hsolve, hfixed, harcs, hjudged⟩ := looped_found
  refine ⟨sv, last, hstate, hsolve, hfixed, fun c hshows hpaths => ?_, hjudged⟩
  have hforth : (2, 3) ∈ c.arcs := (hshows.arcs 2 3).mp (by rw [harcs]; decide)
  have hback : (3, 2) ∈ c.arcs := (hshows.arcs 3 2).mp (by rw [harcs]; decide)
  exact hpaths.acyclic 2 (.tail (.single hforth) hback)

end Solver

end FiniteDomain
