import FiniteDomain.Proofs.Model.Postable
import FiniteDomain.Proofs.Propagation.Chores
import FiniteDomain.Proofs.Search.Paths

/-! # Consistency wherever propagation has come to rest

    A filter is run only after the changes that it watches for, and it may have
    been passive for long, while other filters, decisions and cuts go on taking
    things away from the same domains.  But a filter that relates two different
    variables with enumerated domains is consistent whenever propagation has come
    to rest (`consistent_at_rest`): in a model that is being built
    (`Solver.Built`), in any search in it, and in any course of a space. -/

namespace FiniteDomain

/-! ### Models that are built and searched -/

/-- The solver was given statements that can be made, and searches were made in between; the store
    has the variables that were declared, with the domains that they had in the beginning. -/
inductive Solver.Built : Solver Filter → Store → Prop where
  /-- Nothing has been stated. -/
  | empty (random : Random) : Built (.empty random) Store.empty
  /-- A statement was made about variables that were declared. -/
  | stated {sv sv' : Solver Filter} {domains : Store} {st : Statement}
      {result : Except ModelError Unit} (before : Built sv domains) (postable : st.Postable domains)
      (run : Modelling.runOn st.program sv = .ok (result, sv')) : Built sv' (st.declare domains)
  /-- A search was made and given up, at its end or earlier. -/
  | searched {B T : Type} [Brancher B] [Termination T] {sv : Solver Filter} {domains : Store}
      {sr sr' : Search Filter B T} (before : Built sv domains) (visits : sr.Visits sv)
      (restored : sr.restore = .ok sr') : Built sr'.solver domains

namespace Solver

variable {k : Concern} {sv sv' : Solver Filter} {domains : Store}

theorem Poised.restored (h : sv.Poised k domains) (hrestored : sv.Restored sv') :
    sv'.Poised k domains where
  resting := hrestored.resting h.resting
  wf := h.wf
  narrower := by
    have hstore : sv'.store = sv.store := hrestored.space.store
    rw [hstore]
    exact h.narrower
  rest := fun hfeasible =>
    (h.rest (hrestored.infeasible.symm.trans hfeasible)).alike hrestored.space

/-- Whatever was stated and searched, propagation has seen to the concern. -/
theorem Built.poised [k.Universal] (h : sv.Built domains) : sv.Poised k domains := by
  induction h with
  | empty random => exact (represents_empty random).toPoised
  | stated before postable run ih =>
    obtain ⟨result, last, hlast, hpoised, -⟩ := ih.stated postable
    obtain ⟨-, rfl⟩ := Prod.mk.inj (Except.ok.inj (hlast.symm.trans run))
    exact hpoised
  | searched before visits restored ih =>
    obtain ⟨last, hlast, hrestored⟩ := visits.restored ih.resting
    obtain rfl := Except.ok.inj (hlast.symm.trans restored)
    exact ih.restored hrestored

/-- Statements that can be made are all carried out. -/
theorem Built.state {statements : List Statement} (h : sv.Built domains)
    (hpermits : domains.Permits statements) :
    ∃ sv', sv.state statements = .ok sv' ∧ sv'.Built (domains.declare statements) := by
  induction statements generalizing sv domains with
  | nil => exact ⟨sv, rfl, h⟩
  | cons st rest ih =>
    have hpoised : sv.Poised .chores domains := h.poised
    obtain ⟨result, mid, hrun, -⟩ := hpoised.stated hpermits.1
    obtain ⟨sv', hstate, hbuilt⟩ := ih (h.stated hpermits.1 hrun) hpermits.2
    refine ⟨sv', ?_, hbuilt⟩
    unfold Solver.state
    rw [hrun]
    exact hstate

end Solver

/-! ### Searches -/

namespace Search

open Solver

variable {k : Concern} {cuts : Option Predicate → Prop} {root : Space Filter} {sv : Solver Filter}

/-- Unless it goes back a search stands in a space at rest. -/
theorem Tracks.atRest (h : Tracks cuts root sv) (hroot : root.AtRest k)
    (hback : sv.stage ≠ .backtrack) (hdone : sv.stage ≠ .done) : sv.space.AtRest k := by
  cases hstage : sv.stage with
  | select =>
    simp only [Tracks, hstage] at h
    obtain ⟨sp, hopened, halike⟩ := h
    exact (hopened.atRest hroot).alike halike
  | solution =>
    simp only [Tracks, hstage] at h
    obtain ⟨sp, hopened, halike⟩ := h
    exact (hopened.atRest hroot).alike halike
  | decide =>
    simp only [Tracks, hstage] at h
    obtain ⟨level, outer, base, -, hopened, -, -, halike⟩ := h
    exact (hopened.atRest hroot).alike halike
  | propagate =>
    simp only [Tracks, hstage] at h
    rcases h with ⟨-, -, -, halike⟩ | ⟨level, outer, base, d, -, hopened, -, -, -, halike⟩
    · exact hroot.alike halike
    · exact (hopened.atRest hroot).alike halike
  | backtrack => exact absurd hstage hback
  | done => exact absurd hstage hdone

theorem Visits.atRest {B T : Type} [Brancher B] [Termination T] {sr : Search Filter B T}
    {domains : Store} (h : sr.Visits sv) (hpoised : sv.Poised k domains)
    (hsearching : sr.solver.isSearching = true) (hback : sr.solver.stage ≠ .backtrack)
    (hdone : sr.solver.stage ≠ .done) : sr.solver.space.AtRest k := by
  rcases h.anchored (fun _ => True) hpoised.resting trivial (Or.inr fun _ => trivial) with
    hstart | ⟨-, -, hsource, htracks⟩
  · rw [hstart, Solver.isSearching, hpoised.resting.root] at hsearching
    cases hsearching
  · exact htracks.atRest (hpoised.rest hsource) hback hdone

end Search

/-! ### Consistency -/

namespace Space

variable {sp : Space Filter}

theorem AtRest.consistent (h : sp.AtRest .chores) : sp.Consistent :=
  h.watchful.consistent h.settled

end Space

/-- Whenever propagation has come to rest, the posted filters that relate two different variables
    with enumerated domains are consistent: after any statement, at any moment of any search that
    is not going back, and after a propagation or a posting that meets no contradiction, wherever
    a course of the space has led. -/
theorem consistent_at_rest :
    (∀ {sv : Solver Filter} {domains : Store}, sv.Built domains →
      (sv.infeasible = false → sv.space.Consistent)
        ∧ ∀ {B T : Type} [Brancher B] [Termination T] {sr : Search Filter B T}, sr.Visits sv →
          sr.solver.isSearching = true → sr.solver.stage ≠ .backtrack → sr.solver.stage ≠ .done →
          sr.solver.space.Consistent)
      ∧ ∀ {sp : Space Filter} {marks : List Checkpoint} {standing : Space.Standing},
        Space.Course sp marks standing → standing ≠ .failed →
        (∃ c? sp', sp.propagate = .ok (c?, sp') ∧ (c? = none → sp'.Consistent))
          ∧ ∀ f : Filter, f.Enumerated sp.store → f.Ready sp.store →
            ∃ result sp', sp.post f = .ok (result, sp') ∧ ∀ id, result = .ok id → sp'.Consistent := by
  refine ⟨fun {sv domains} hbuilt => ?_, fun {sp marks standing} hcourse hable => ⟨?_, ?_⟩⟩
  · have hpoised : sv.Poised .chores domains := hbuilt.poised
    refine ⟨fun hfeasible => (hpoised.rest hfeasible).consistent, ?_⟩
    intro B T _ _ sr hvisits hsearching hback hdone
    exact (hvisits.atRest hpoised hsearching hback hdone).consistent
  · have hwatchful := hcourse.kept.watchful hable
    obtain ⟨c?, sp', hrun, -, hend⟩ := Space.propagate_spec hwatchful hwatchful.spares_satisfies
    exact ⟨c?, sp', hrun, fun hnone => (hend hnone).1.consistent_of_unrest (hend hnone).2⟩
  · intro f henum hready
    have hwatchful := hcourse.kept.watchful hable
    obtain ⟨c?, sp', hrun, -, hend⟩ := Space.post_spec hwatchful henum hready
      (hwatchful.entered henum hready).spares_satisfies
    refine ⟨_, sp', hrun, fun id hid => ?_⟩
    cases c? with
    | none => exact (hend rfl).1.consistent_of_unrest (hend rfl).2
    | some c => cases hid

/-! ### Two listed variables and a set -/

/-- A solver with two variables with the values 0, 1, 3 and 4, and a set among 0, 3, 4 and 9. -/
def drawn : Solver Filter :=
  { (Solver.empty (.ofSeed 7) : Solver Filter) with
    space := { Space.empty with
      store := (Space.twoListed.addSet (SetDomain.subsetsOf [0, 3, 4, 9])).2 } }

theorem drawn_built : drawn.Built drawn.store := by
  -- the lists are sorted already; sorting is evaluated by its lemma
  have hvalues : Modelling.sortedDistinct [0, 1, 3, 4] = [0, 1, 3, 4] := by
    rw [Modelling.sortedDistinct, List.mergeSort_of_pairwise (by decide)]
    rfl
  have helements : Modelling.sortedDistinct [0, 3, 4, 9] = [0, 3, 4, 9] := by
    rw [Modelling.sortedDistinct, List.mergeSort_of_pairwise (by decide)]
    rfl
  let statements : List Statement := [.enumerated [0, 1, 3, 4] (by decide) none,
    .enumerated [0, 1, 3, 4] (by decide) none, .set [0, 3, 4, 9] none]
  have hrun : (Solver.empty (.ofSeed 7)).state statements = .ok drawn := by
    simp only [statements, Solver.state, Statement.program, Modelling.newEnumerated,
      Modelling.newSet, hvalues, helements]
    rfl
  have hdeclare : Store.empty.declare statements = drawn.store := by
    simp only [statements, Store.declare, List.foldl, Statement.declare, hvalues, helements]
    rfl
  have hpermits : Store.empty.Permits statements := ⟨trivial, trivial, trivial, trivial⟩
  obtain ⟨sv, hstate, hbuilt⟩ := (Solver.Built.empty (.ofSeed 7)).state hpermits
  obtain rfl := Except.ok.inj (hstate.symm.trans hrun)
  rwa [hdeclare] at hbuilt

/-- The first variable differs from the second plus three, and belongs to the set. -/
def apartInSet : List Statement :=
  [.post (.distinct (.plain ⟨0⟩) Space.plusThree), .post (.member (.plain ⟨0⟩) ⟨0⟩)]

theorem apartInSet_permits : drawn.store.Permits apartInSet := by
  have hgrows : Space.twoListed.Grows drawn.store :=
    Store.grows_addSet Space.twoListed_wf (SetDomain.subsetsOf_wf (by decide))
  refine ⟨⟨trivial, nofun, _, rfl, fun _ => List.forall_mem_singleton.mpr ?_⟩,
    ⟨trivial, nofun, _, rfl, fun _ => List.forall_mem_singleton.mpr ?_⟩, trivial⟩
  · exact Space.apart_ready.grows hgrows
  · refine ⟨by decide, fun x hx => ?_, nofun, nofun⟩
    rw [List.mem_singleton.mp hx]
    exact Space.twoListed_ranges (by decide)

/-- After one decision the set has lost its choice about 0, and the two filters are consistent; the
    first of them is so as well where it is posted alone. -/
theorem consistent_at_rest_drawn :
    ∃ (sv : Solver Filter) (sr : Search Filter Strategy Limit) (sp : Space Filter),
      drawn.state apartInSet = .ok sv ∧ sr.Visits sv ∧ sr.solver.stage = .select
      ∧ sr.solver.measures.nodes = 1 ∧ (sr.solver.store.set ⟨0⟩).inKernel 0 = true
      ∧ sr.solver.space.Consistent
      ∧ (Filter.member (.plain ⟨0⟩) ⟨0⟩).Consistent sr.solver.store
      ∧ Space.post { Space.empty with store := Space.twoListed } Space.apart = .ok (.ok ⟨0⟩, sp)
      ∧ sp.Consistent := by
  obtain ⟨hmodels, hcourses⟩ := consistent_at_rest
  obtain ⟨sv, hstate, hbuilt⟩ := drawn_built.state apartInSet_permits
  have hrun : ((drawn.state apartInSet).bind fun sv => ((Search.inOrder sv).steps 4).map fun sr =>
      ((sv.infeasible, sr.solver.stage, sr.solver.measures.nodes),
        (sr.solver.store.set ⟨0⟩).inKernel 0, sr.solver.space.filterAt? 1,
        (sr.solver.store.int ⟨0⟩).isEnumerated)).toOption
      = some ((false, .select, 1), true, some (.member (.plain ⟨0⟩) ⟨0⟩), true) := by
    decide +kernel
  rw [hstate] at hrun
  simp only [Except.bind] at hrun
  cases hsteps : (Search.inOrder sv).steps 4 with
  | error e => rw [hsteps] at hrun; cases hrun
  | ok sr =>
    simp only [hsteps, Except.map, Except.toOption, Option.some.injEq, Prod.mk.injEq] at hrun
    obtain ⟨⟨hfeasible, hstage, hnodes⟩, hkernel, hfilter, henum⟩ := hrun
    obtain ⟨hvisits, hsearching⟩ :=
      ((Search.Visits.start (Search.inOrder sv).brancher (Search.inOrder sv).limit).enter
        hfeasible).steps (Search.isSearching_enter _) hsteps
    have hconsistent := (hmodels hbuilt).2 hvisits hsearching (by rw [hstage]; decide)
      (by rw [hstage]; decide)
    have hmember := hconsistent 1 _ hfilter trivial (List.forall_mem_singleton.mpr henum)
    have hposted : (Space.post { Space.empty with store := Space.twoListed } Space.apart).map
        (fun r => r.1.toOption) = .ok (some ⟨0⟩) := by
      decide +kernel
    have henumerated : Space.apart.Enumerated Space.twoListed := by
      intro x hx
      rcases List.mem_pair.mp hx with rfl | rfl <;> rfl
    obtain ⟨result, sp, hpost, hend⟩ := (hcourses (.start Space.twoListed_wf rfl fun _ => rfl)
      (by decide)).2 Space.apart henumerated Space.apart_ready
    rw [hpost] at hposted
    cases result with
    | error c => cases hposted
    | ok id =>
      obtain rfl := Option.some.inj (Except.ok.inj hposted)
      exact ⟨sv, sr, sp, hstate, hvisits, hstage, hnodes, hkernel, hconsistent, hmember, hpost,
        hend _ rfl⟩

end FiniteDomain
