import FiniteDomain.Proofs.Branching.Partition
import FiniteDomain.Proofs.Propagation.Fixpoint
import FiniteDomain.Proofs.Search.Visits

/-! # The branches that a search is given

    A sequence of strategies remembers which of them had the last branch, and
    looks no further back.  That is right only as long as everything before this
    position is fixed, which going back may undo.  `Search.Explores` lists the
    searches with strategies of the library; at each of them the strategy fits the
    store that the search has come to, since going back and reporting a solution
    both return it to its beginning (`Explores.fits`).

    So at every moment of a search the next branch partitions the valuations
    (`branches_partition`). -/

namespace FiniteDomain

namespace Search

/-- The searches that one from the given solver goes through with strategies of the library. -/
inductive Explores {T : Type} [Termination T] (sv : Solver Filter) :
    Search Filter Strategy T → Prop where
  /-- Nothing has happened. -/
  | start {b : Strategy} (limit : T) (fits : Strategy.Fits sv.store sv.store b) :
      Explores sv ⟨sv, b, limit⟩
  /-- The search is entered, or goes on. -/
  | enter {sr : Search Filter Strategy T} (before : Explores sv sr)
      (feasible : sr.solver.infeasible = false) : Explores sv (sr.update Solver.enter)
  /-- A transition is made. -/
  | step {sr sr' : Search Filter Strategy T} {verdict? : Option Verdict} (before : Explores sv sr)
      (searching : sr.solver.isSearching = true) (made : sr.step = .ok (verdict?, sr')) :
      Explores sv sr'
  /-- The search goes on with another strategy and another limit. -/
  | resume {sr : Search Filter Strategy T} {b : Strategy} (before : Explores sv sr) (limit : T)
      (fits : Strategy.Fits sv.store sr.solver.store b) : Explores sv ⟨sr.solver, b, limit⟩
  /-- A cut is set before the search goes back. -/
  | cut {sr : Search Filter Strategy T} (before : Explores sv sr)
      (searching : sr.solver.isSearching = true) (stage : sr.solver.stage = .backtrack)
      (p : Predicate) : Explores sv (sr.update (·.setCut p))

variable {T : Type} [Termination T] {sv : Solver Filter} {sr sr' : Search Filter Strategy T}

theorem Explores.visits (h : sr.Explores sv) : sr.Visits sv := by
  induction h with
  | start limit fits => exact .start _ limit
  | enter before feasible ih => exact ih.enter feasible
  | step before searching made ih => exact ih.step searching made
  | resume before limit fits ih => exact ih.resume _ limit
  | cut before searching stage p ih => exact ih.cut searching stage p

/-- Whatever a search has come to, its store is one that the store of the solver leads to. -/
theorem Visits.narrower {B : Type} [Brancher B] {sr : Search Filter B T} (h : sr.Visits sv)
    (hprepared : sv.Prepared) : sv.store.Narrower sr.solver.store := by
  have hresting := hprepared.resting
  rcases h.anchored (fun _ => True) hresting trivial (Or.inr fun _ => trivial) with
    hstart | ⟨-, -, hfeasible, htracks⟩
  · rw [hstart]
    exact .refl hresting.wf
  · exact (htracks.leads (hresting.settled hfeasible) hresting.wf).narrower hresting.wf

/-! ### Strategies fit throughout -/

omit [Termination T] in
theorem store_decide {P B : Type} (sr : Search P B T) : sr.decide.solver.store = sr.solver.store := by
  simp only [decide, update]
  split
  · rfl
  · split <;> rfl

omit [Termination T] in
/-- A strategy that has answered fits as before. -/
theorem fits_select {root : Store} (hroot : root.Narrower sr.solver.store)
    (hfits : Strategy.Fits root sr.solver.store sr.brancher) (hselect : sr.select = .ok sr') :
    Strategy.Fits root sr'.solver.store sr'.brancher := by
  obtain ⟨branch?, b, r, hnext, hanswer⟩ :=
    Strategy.next_spec hroot sr.brancher hfits sr.solver.random
  have hasked : Brancher.next sr.brancher sr.solver.store sr.solver.random
      = .ok (branch?, b, r) := hnext
  simp only [select, hasked, bind, Except.bind] at hselect
  cases branch? with
  | some branch =>
    cases hselect
    exact hanswer.fits
  | none =>
    cases hselect
    exact hanswer.fits

omit [Termination T] in
/-- With every level that the search goes back the strategy returns to its beginning. -/
theorem fits_retreat {root : Store} {levels : List Level}
    (hfits : Strategy.Fits root sr.solver.store sr.brancher)
    (hretreat : sr.retreat levels = .ok sr') :
    Strategy.Fits root sr'.solver.store sr'.brancher := by
  induction levels generalizing sr with
  | nil =>
    cases hretreat
    exact hfits
  | cons level outer ih =>
    simp only [retreat, bind, Except.bind] at hretreat
    split at hretreat
    · cases hretreat
    · split at hretreat
      · cases hretreat
        exact (Strategy.fits_rewind _ hfits).1
      · exact ih (Strategy.fits_rewind _ hfits).1 hretreat

/-- Propagation narrows the store, so that what is fixed stays fixed. -/
theorem fits_propagate {root : Store} (hwf : sr.solver.store.Wf)
    (hfits : Strategy.Fits root sr.solver.store sr.brancher)
    (hpropagate : sr.propagate = .ok sr') :
    Strategy.Fits root sr'.solver.store sr'.brancher := by
  have hspace := (announce_solver sr).1
  -- announcing the decision counts it and tells the limit, nothing else
  have hbrancher : sr.announce.brancher = sr.brancher := by
    unfold announce
    split <;> rfl
  simp only [propagate, bind, Except.bind] at hpropagate
  split at hpropagate
  · cases hpropagate
  next r hr =>
    obtain ⟨contradiction?, space⟩ := r
    rw [hspace] at hr
    have hnarrower := (Space.leads_settle hwf hr).narrower hwf
    have hfits' : Strategy.Fits root space.store sr.announce.brancher := by
      rw [hbrancher]
      exact Strategy.Fits.narrower hwf hnarrower _ hfits
    cases contradiction? with
    | none =>
      cases hpropagate
      exact hfits'
    | some c =>
      cases hpropagate
      exact hfits'

theorem fits_step {root : Store} {verdict? : Option Verdict}
    (hroot : root.Narrower sr.solver.store)
    (hfits : Strategy.Fits root sr.solver.store sr.brancher)
    (hstep : sr.step = .ok (verdict?, sr')) :
    Strategy.Fits root sr'.solver.store sr'.brancher := by
  cases transition_of_step hstep with
  | stopped hstop hstage => exact hfits
  | selected hstage hselect => exact @fits_select _ sr.poll.2 _ _ hroot hfits hselect
  | decided hstage =>
    have hbrancher : sr.decide.brancher = sr.brancher := rfl
    rw [store_decide, hbrancher]
    exact hfits
  | propagated hstage hpropagate => exact fits_propagate hroot.wf hfits hpropagate
  | wentBack hstage hbacktrack =>
    refine fits_retreat ?_ hbacktrack
    exact hfits
  | found hstage => exact (Strategy.fits_rewind _ hfits).1
  | exhausted hstage => exact hfits

/-- At every moment of a search the strategy fits the store. -/
theorem Explores.fits (h : sr.Explores sv) (hprepared : sv.Prepared) :
    Strategy.Fits sv.store sr.solver.store sr.brancher := by
  induction h with
  | start limit fits => exact fits
  | @enter sr before feasible ih =>
    show Strategy.Fits sv.store sr.solver.enter.store sr.brancher
    rw [store_enter]
    exact ih
  | step before searching made ih => exact fits_step (before.visits.narrower hprepared) ih made
  | resume before limit fits ih => exact fits
  | cut before searching stage p ih => exact ih

/-- Branches cover the space without overlap: at every moment of a search with a strategy of the
    library and whatever is drawn, there is no branch exactly if the variables of the strategy are
    fixed, and otherwise every valuation of the store satisfies exactly one alternative and each
    alternative makes a domain smaller. -/
theorem branches_partition (hprepared : sv.Prepared) (hexplores : sr.Explores sv) (r : Random) :
    ∃ branch? b' r', Brancher.next sr.brancher sr.solver.store r = .ok (branch?, b', r')
      ∧ (branch? = none ↔ ∀ v ∈ sr.brancher.targets, sr.solver.store.Settles v)
      ∧ ∀ branch, branch? = some branch → branch.Partitions sr.solver.store :=
  Strategy.next_partitions (hexplores.visits.narrower hprepared) (hexplores.fits hprepared) r

theorem Explores.steps {count : Nat} (h : sr.Explores sv)
    (hsearching : sr.solver.isSearching = true) (hsteps : sr.steps count = .ok sr') :
    sr'.Explores sv := by
  induction count generalizing sr with
  | zero =>
    cases hsteps
    exact h
  | succ count ih =>
    simp only [Search.steps, bind, Except.bind] at hsteps
    split at hsteps
    · cases hsteps
    next r hstep =>
      have hnext : r.2.solver.isSearching = true := by
        rwa [Solver.isSearching, (transition_of_step hstep).sameTask.root]
      exact ih (h.step hsearching hstep) hnext hsteps

/-- A variable and a graph. -/
def numberAndGraph : List Statement := [.bounded 0 2 Width.fits_zero_two none, .graph 1 [] none]

/-- First a view of the variable, then the arcs and nodes of the graph. -/
def viewThenGraph : Strategy :=
  .sequence [.variables .firstFail [.view (.plain ⟨0⟩) ⟨-2, 1, by decide⟩] .middle,
    .arcs ⟨0⟩ (.pathExtension 0)] 0

theorem fits_viewThenGraph {root s : Store} (hx : root.knows (.int ⟨0⟩) = true)
    (hg : root.knows (.graph ⟨0⟩) = true) (horder : 0 < (root.graph ⟨0⟩).order)
    (hlower : (root.int ⟨0⟩).lower = 0) (hupper : (root.int ⟨0⟩).upper = 2) :
    Strategy.Fits root s viewThenGraph := by
  refine ⟨fun x hmem => ?_, ⟨hg, fun source hsource => ?_⟩, trivial⟩
  · obtain rfl := List.mem_singleton.mp hmem
    refine ⟨hx, fun v hv => ?_⟩
    obtain ⟨hle, hge, -⟩ := IntegerDomain.contains_iff.mp hv
    change (root.int ⟨0⟩).lower ≤ v at hle
    change v ≤ (root.int ⟨0⟩).upper at hge
    simp only [IntVar.Within, IntVar.image, AffineMap.image, Width.Fits, Width.interior,
      Width.value, minValue, maxValue]
    omega
  · cases hsource
    exact horder

/-- When the graph has been decided both ways and the variable is fixed anew, the search is given a
    branch on the graph. -/
theorem branches_partition_viewThenGraph :
    ∃ (sv : Solver Filter) (sr : Search Filter Strategy Limit) (branch : Branch) (b' : Strategy)
      (r' : Random), sv.Prepared ∧ sr.Explores sv ∧ sr.solver.stage = .select
      ∧ sr.solver.measures.backtracks = 2
      ∧ Brancher.next sr.brancher sr.solver.store (.ofSeed 5) = .ok (some branch, b', r')
      ∧ branch.Partitions sr.solver.store := by
  have hrun : (((Solver.empty (.ofSeed 0)).state numberAndGraph).bind fun sv =>
      ((Search.mk sv.enter viewThenGraph Limit.indefinite).steps 15).bind fun sr =>
        (Brancher.next sr.brancher sr.solver.store (.ofSeed 5)).map fun answer =>
          ((sv.infeasible, sv.store.knows (.int ⟨0⟩), sv.store.knows (.graph ⟨0⟩)),
            ((sv.store.graph ⟨0⟩).order, (sv.store.int ⟨0⟩).lower, (sv.store.int ⟨0⟩).upper),
            sr.solver.stage, sr.solver.measures.backtracks, answer.1.isSome)).toOption
      = some ((false, true, true), (1, 0, 2), .select, 2, true) := by
    decide +kernel
  cases hstate : (Solver.empty (.ofSeed 0)).state numberAndGraph with
  | error f => rw [hstate] at hrun; cases hrun
  | ok sv =>
    rw [hstate] at hrun
    simp only [Except.bind] at hrun
    cases hsteps : (Search.mk sv.enter viewThenGraph Limit.indefinite).steps 15 with
    | error f => rw [hsteps] at hrun; cases hrun
    | ok sr =>
      have hprepared := (Solver.Prepared.empty (.ofSeed 0)).state hstate
      simp only [hsteps] at hrun
      cases hnext : Brancher.next sr.brancher sr.solver.store (.ofSeed 5) with
      | error f => rw [hnext] at hrun; cases hrun
      | ok answer =>
        simp only [hnext, Except.map, Except.toOption, Option.some.injEq, Prod.mk.injEq] at hrun
        obtain ⟨⟨hfeasible, hx, hg⟩, ⟨horder, hlower, hupper⟩, hstage, hbacktracks, hsome⟩ := hrun
        have hstart : Explores sv (Search.mk sv viewThenGraph Limit.indefinite) :=
          .start _ (fits_viewThenGraph hx hg (horder ▸ Nat.one_pos) hlower hupper)
        have hexplores := (hstart.enter hfeasible).steps (isSearching_enter _) hsteps
        obtain ⟨branch?, b', r', heq, -, hpartitions⟩ :=
          branches_partition hprepared hexplores (.ofSeed 5)
        rw [hnext] at heq
        cases heq
        obtain ⟨branch, rfl⟩ := Option.isSome_iff_exists.mp hsome
        exact ⟨sv, sr, branch, b', r', hprepared, hexplores, hstage, hbacktracks, hnext,
          hpartitions branch rfl⟩

end Search

end FiniteDomain
