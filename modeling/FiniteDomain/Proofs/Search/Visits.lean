import FiniteDomain.Proofs.Model.Build
import FiniteDomain.Proofs.Search.Replay

/-! # Searches from a model

    A solver is prepared by statements and by searches that have been given up or
    have come to their end.  `Search.Visits` says which searches one started from
    a solver goes through: it enters, makes transitions, may be continued with
    another brancher or limit, and an optimisation may set a cut when a solution
    was found. -/

namespace FiniteDomain

namespace Search

/-- The searches that one from the given solver goes through. -/
inductive Visits {B T : Type} [Brancher B] [Termination T] (sv : Solver Filter) :
    Search Filter B T → Prop where
  /-- Nothing has happened. -/
  | start (brancher : B) (limit : T) : Visits sv ⟨sv, brancher, limit⟩
  /-- The search is entered, or goes on. -/
  | enter {sr : Search Filter B T} (before : Visits sv sr)
      (feasible : sr.solver.infeasible = false) : Visits sv (sr.update Solver.enter)
  /-- A transition is made. -/
  | step {sr sr' : Search Filter B T} {verdict? : Option Verdict} (before : Visits sv sr)
      (searching : sr.solver.isSearching = true) (made : sr.step = .ok (verdict?, sr')) :
      Visits sv sr'
  /-- The search goes on with another brancher and another limit. -/
  | resume {sr : Search Filter B T} (before : Visits sv sr) (brancher : B) (limit : T) :
      Visits sv ⟨sr.solver, brancher, limit⟩
  /-- A cut is set before the search goes back. -/
  | cut {sr : Search Filter B T} (before : Visits sv sr)
      (searching : sr.solver.isSearching = true) (stage : sr.solver.stage = .backtrack)
      (p : Predicate) : Visits sv (sr.update (·.setCut p))

end Search

/-- Solvers in which models are built. -/
inductive Solver.Prepared : Solver Filter → Prop where
  /-- Nothing has been stated. -/
  | empty (random : Random) : Prepared (.empty random)
  /-- A statement was made. -/
  | stated {sv sv' : Solver Filter} {result : Except ModelError Unit} (before : Prepared sv)
      (st : Statement) (run : Modelling.runOn st.program sv = .ok (result, sv')) : Prepared sv'
  /-- A search was made and given up, at its end or earlier. -/
  | searched {B T : Type} [Brancher B] [Termination T] {sv : Solver Filter}
      {sr sr' : Search Filter B T} (before : Prepared sv) (visits : sr.Visits sv)
      (restored : sr.restore = .ok sr') : Prepared sr'.solver

theorem Solver.Prepared.state {statements : List Statement} {sv sv' : Solver Filter}
    (h : sv.Prepared) (hrun : sv.state statements = .ok sv') : sv'.Prepared := by
  induction statements generalizing sv with
  | nil =>
    cases hrun
    exact h
  | cons st rest ih =>
    simp only [Solver.state, bind, Except.bind] at hrun
    split at hrun
    · cases hrun
    next r hr => exact ih (h.stated st hr) hrun

namespace Search

variable {B T : Type} {sv : Solver Filter} {sr sr' : Search Filter B T}

/-! ### What is true at every visit -/

/-- The search has not been entered, or keeps track of the solver it started from. -/
def Anchored (cuts : Option Predicate → Prop) (sv : Solver Filter) (sr : Search Filter B T) :
    Prop :=
  sr.solver = sv
    ∨ (∃ root, sr.solver.root? = some root ∧ root.checkpoint = sv.store.checkpoint)
      ∧ sr.solver.infeasible = false ∧ sv.infeasible = false ∧ Tracks cuts sv.space sr.solver

theorem Visits.anchored [Brancher B] [Termination T] (h : sr.Visits sv)
    (cuts : Option Predicate → Prop) (hresting : sv.Resting)
    (hnone : cuts none) (hcut : sr.solver.cut? = none ∨ ∀ p, cuts (some p)) :
    Anchored cuts sv sr := by
  -- on the visits: entering a search that runs already changes nothing
  induction h with
  | start brancher limit => exact Or.inl rfl
  | @enter sr before feasible ih =>
    cases hroot : sr.solver.root? with
    | some root =>
      have hsame : sr.solver.enter = sr.solver := by simp only [Solver.enter, hroot]
      simp only [update, hsame] at hcut ⊢
      exact ih hcut
    | none =>
      have henter : sr.solver.enter
          = { sr.solver with root? := some ⟨sr.solver.store.checkpoint, sr.solver.store.contents⟩
                             stage := .propagate } := by
        simp only [Solver.enter, hroot]
      simp only [update, henter] at hcut ⊢
      rcases ih hcut with hstart | ⟨⟨root, hsome, -⟩, -⟩
      · rw [hstart] at feasible ⊢
        exact Or.inr ⟨⟨_, rfl, rfl⟩, feasible, feasible,
          Or.inl ⟨hresting.levels, hresting.decision, hresting.cut, .refl _⟩⟩
      · rw [hroot] at hsome
        cases hsome
  | @step sr sr' verdict? before searching made ih =>
    have hsame := (transition_of_step made).sameTask
    rw [hsame.cut] at hcut
    rcases ih hcut with hstart | ⟨hroot, hfeasible, hsource, htracks⟩
    · rw [hstart, Solver.isSearching, hresting.root] at searching
      cases searching
    · have hallowed : cuts sr.solver.cut? := by
        cases hc : sr.solver.cut? with
        | none => exact hnone
        | some p => exact hcut.resolve_left (by simp [hc]) p
      refine Or.inr ⟨by rwa [hsame.root], by rwa [hsame.infeasible], hsource, ?_⟩
      exact tracks_step (hresting.settled hsource) hresting.wf hallowed htracks made
  | resume before brancher limit ih => exact ih hcut
  | @cut sr before searching stage p ih =>
    have hall : ∀ p, cuts (some p) := hcut.resolve_left (Option.some_ne_none p)
    rcases ih (Or.inr hall) with hstart | ⟨hroot, hfeasible, hsource, htracks⟩
    · rw [hstart, Solver.isSearching, hresting.root] at searching
      cases searching
    · refine Or.inr ⟨hroot, hfeasible, hsource, ?_⟩
      simp only [Tracks, stage] at htracks
      simp only [update, Solver.setCut, Tracks, stage]
      exact htracks

/-! ### Giving up -/

end Search

/-- The second solver is the first one after a search: the space differs in what it has counted and
    noted, and nothing is left of the search. -/
structure Solver.Restored (sv sv' : Solver Filter) : Prop where
  /-- Store, propagators, subscriptions and queue are the same. -/
  space : sv.space.Alike sv'.space
  /-- What is known about the model is the same. -/
  infeasible : sv'.infeasible = sv.infeasible
  /-- No search is in progress. -/
  root : sv'.root? = none
  /-- No level is open. -/
  levels : sv'.levels = []
  /-- No decision is waiting. -/
  decision : sv'.decision? = none
  /-- Nothing is demanded of solutions. -/
  cut : sv'.cut? = none

namespace Solver.Restored

variable {sv sv' sv'' : Solver Filter}

theorem refl (h : sv.Resting) : sv.Restored sv :=
  ⟨.refl _, rfl, h.root, h.levels, h.decision, h.cut⟩

theorem trans (h₁ : sv.Restored sv') (h₂ : sv'.Restored sv'') : sv.Restored sv'' :=
  ⟨h₁.space.trans h₂.space, h₂.infeasible.trans h₁.infeasible, h₂.root, h₂.levels, h₂.decision,
    h₂.cut⟩

/-- A solver that was at rest is at rest again. -/
theorem resting (h : sv.Restored sv') (hresting : sv.Resting) : sv'.Resting where
  root := h.root
  levels := h.levels
  decision := h.decision
  cut := h.cut
  wf := by
    show sv'.space.store.Wf
    rw [h.space.store]
    exact hresting.wf
  lines := by
    rw [h.space.queue]
    exact hresting.lines
  settled := fun hfeasible => (hresting.settled (h.infeasible.symm.trans hfeasible)).alike h.space

end Solver.Restored

namespace Search

variable {B T : Type} [Brancher B] [Termination T] {sv : Solver Filter}
  {sr sr' : Search Filter B T}

omit [Termination T] in
theorem restored_of_tracks {cuts : Option Predicate → Prop} {root : Root}
    (hresting : sv.Resting) (hsource : sv.infeasible = false)
    (hfeasible : sr.solver.infeasible = false) (hroot : sr.solver.root? = some root)
    (hcheckpoint : root.checkpoint = sv.store.checkpoint)
    (htracks : Tracks cuts sv.space sr.solver) :
    ∃ sr', sr.restore = .ok sr' ∧ sv.Restored sr'.solver := by
  simp only [restore, bind, Except.bind, pure, Except.pure]
  have hsettled := hresting.settled hsource
  obtain ⟨t, hback, halike⟩ := Space.backtrackTo_leads hsettled hresting.wf
    (htracks.leads hsettled hresting.wf)
  have hback' : sr.solver.space.backtrackTo root.checkpoint = .ok t := by
    rw [hcheckpoint]
    exact hback
  simp only [hroot, hback']
  exact ⟨_, rfl, halike, hfeasible.trans hsource.symm, rfl, rfl, rfl, rfl⟩

/-- A search can be given up wherever it has got to, and then everything is as before. -/
theorem Visits.restored (h : sr.Visits sv) (hresting : sv.Resting) :
    ∃ sr', sr.restore = .ok sr' ∧ sv.Restored sr'.solver := by
  rcases h.anchored (fun _ => True) hresting trivial (Or.inr fun _ => trivial) with
    hstart | ⟨⟨root, hroot, hcheckpoint⟩, hfeasible, hsource, htracks⟩
  · simp only [restore, hstart, hresting.root, bind, Except.bind, pure, Except.pure]
    exact ⟨_, rfl, .refl _, rfl, rfl, rfl, rfl, rfl⟩
  · exact restored_of_tracks hresting hsource hfeasible hroot hcheckpoint htracks

/-- A search that is given up leaves a solver at rest. -/
theorem Visits.resting_restore (h : sr.Visits sv) (hresting : sv.Resting)
    (hrestore : sr.restore = .ok sr') : sr'.solver.Resting := by
  obtain ⟨last, hlast, hrestored⟩ := h.restored hresting
  obtain rfl := Except.ok.inj (hlast.symm.trans hrestore)
  exact hrestored.resting hresting

end Search

/-- Whatever was stated and searched before, a prepared solver is at rest. -/
theorem Solver.Prepared.resting {sv : Solver Filter} (h : sv.Prepared) : sv.Resting := by
  induction h with
  | empty random => exact Solver.resting_empty random
  | stated before st run ih => exact st.upholds_program.keeps _ _ _ ih run
  | searched before visits restored ih => exact visits.resting_restore ih restored

namespace Search

variable {B T : Type} [Brancher B] [Termination T] {sv : Solver Filter}
  {sr sr' : Search Filter B T}

/-! ### Calls of a solver -/

theorem Visits.run {fuel : Nat} {verdict : Verdict} (h : sr.Visits sv)
    (hsearching : sr.solver.isSearching = true) (hrun : sr.run fuel = .ok (verdict, sr')) :
    sr'.Visits sv ∧ sr'.solver.isSearching = true := by
  induction fuel generalizing sr with
  | zero => cases hrun
  | succ fuel ih =>
    simp only [Search.run, bind, Except.bind] at hrun
    split at hrun
    · cases hrun
    next r hstep =>
      obtain ⟨verdict?, next⟩ := r
      have hnext : next.solver.isSearching = true := by
        rwa [Solver.isSearching, (transition_of_step hstep).sameTask.root]
      cases verdict? with
      | some v =>
        cases hrun
        exact ⟨h.step hsearching hstep, hnext⟩
      | none => exact ih (h.step hsearching hstep) hnext hrun

/-- Where a call of the solver stops is among the searches visited. -/
theorem Visits.solve {verdict : Verdict} (h : sr.Visits sv)
    (hsolve : sr.solve = .ok (verdict, sr')) : sr'.Visits sv := by
  unfold Search.solve at hsolve
  by_cases hinfeasible : sr.solver.infeasible = true
  · simp only [hinfeasible, if_true] at hsolve
    cases hsolve
    exact h
  · simp only [hinfeasible, Bool.false_eq_true, if_false] at hsolve
    exact ((h.enter (Bool.eq_false_iff.mpr hinfeasible)).run
      (isSearching_enter _) hsolve).1

/-- Makes a number of transitions, whatever the verdicts. -/
def steps : (count : Nat) → Search Filter B T → Except Fault (Search Filter B T)
  | 0, sr => return sr
  | count + 1, sr => do
    let (_, sr) ← sr.step
    steps count sr

theorem Visits.steps {count : Nat} (h : sr.Visits sv) (hsearching : sr.solver.isSearching = true)
    (hsteps : sr.steps count = .ok sr') : sr'.Visits sv ∧ sr'.solver.isSearching = true := by
  induction count generalizing sr with
  | zero =>
    cases hsteps
    exact ⟨h, hsearching⟩
  | succ count ih =>
    simp only [Search.steps, bind, Except.bind] at hsteps
    split at hsteps
    · cases hsteps
    next r hstep =>
      have hnext : r.2.solver.isSearching = true := by
        rwa [Solver.isSearching, (transition_of_step hstep).sameTask.root]
      exact ih (h.step hsearching hstep) hnext hsteps

end Search

/-! ### Searches in progress -/

/-- A search that started from the first solver, which was at rest, has come to the second. -/
structure Solver.Midway (start sv : Solver Filter) : Prop where
  resting : start.Resting
  source : start.infeasible = false
  feasible : sv.infeasible = false
  root : ∃ root, sv.root? = some root ∧ root.checkpoint = start.store.checkpoint
  tracks : Search.Tracks (fun _ => True) start.space sv

namespace Solver.Midway

variable {B T : Type} {start : Solver Filter} {sr sr' : Search Filter B T}

theorem searching {sv : Solver Filter} (h : start.Midway sv) : sv.isSearching = true := by
  obtain ⟨root, hroot, -⟩ := h.root
  rw [isSearching, hroot]
  rfl

theorem settled {sv : Solver Filter} (h : start.Midway sv) : start.space.Settled :=
  h.resting.settled h.source

theorem enter_eq {sv : Solver Filter} (h : start.Midway sv) : sv.enter = sv := by
  obtain ⟨root, hroot, -⟩ := h.root
  exact Search.enter_eq_self hroot

theorem enter (hresting : start.Resting) (hfeasible : start.infeasible = false) :
    start.Midway start.enter := by
  have henter : start.enter
      = { start with root? := some ⟨start.store.checkpoint, start.store.contents⟩
                     stage := .propagate } := by
    simp only [Solver.enter, hresting.root]
  rw [henter]
  exact ⟨hresting, hfeasible, hfeasible, ⟨_, rfl, rfl⟩,
    Or.inl ⟨hresting.levels, hresting.decision, hresting.cut, .refl _⟩⟩

theorem step [Brancher B] [Termination T] {verdict? : Option Verdict} (h : start.Midway sr.solver)
    (hstep : sr.step = .ok (verdict?, sr')) : start.Midway sr'.solver := by
  have hsame := (Search.transition_of_step hstep).sameTask
  refine ⟨h.resting, h.source, hsame.infeasible.trans h.feasible, ?_, ?_⟩
  · rw [hsame.root]
    exact h.root
  · exact Search.tracks_step h.settled h.resting.wf trivial h.tracks hstep

/-- Where the search goes back next, nothing said of it is about cuts. -/
theorem cut {sv : Solver Filter} (h : start.Midway sv) (hstage : sv.stage = .backtrack)
    (p : Predicate) : start.Midway (sv.setCut p) := by
  refine ⟨h.resting, h.source, h.feasible, h.root, ?_⟩
  have htracks := h.tracks
  simp only [Search.Tracks, hstage] at htracks
  simpa only [Search.Tracks, setCut, hstage] using htracks

theorem restored [Brancher B] (h : start.Midway sr.solver) :
    ∃ sr', sr.restore = .ok sr' ∧ start.Restored sr'.solver := by
  obtain ⟨root, hroot, hcheckpoint⟩ := h.root
  exact Search.restored_of_tracks h.resting h.source h.feasible hroot hcheckpoint h.tracks

end Solver.Midway

namespace Search

variable {B T : Type} [Brancher B] [Termination T] {sv : Solver Filter}
  {sr sr' : Search Filter B T}

/-! ### The space when a branch is asked for -/

/-- Whenever a search without a cut asks for a branch, its domains, passive propagators and
    propagators are those that a replay of the current alternatives from the start leads to. -/
theorem replay_of_select (hprepared : sv.Prepared) (hvisit : sr.Visits sv)
    (hsearching : sr.solver.isSearching = true) (hcut : sr.solver.cut? = none)
    (hstage : sr.solver.stage = .select) :
    ∃ decisions sp, sr.solver.levels.reverse.map Level.current? = decisions.map some
      ∧ sv.space.replay decisions = .ok (none, sp)
      ∧ sp.store.ints = sr.solver.store.ints ∧ sp.store.sets = sr.solver.store.sets
      ∧ sp.store.graphs = sr.solver.store.graphs
      ∧ (∀ p, sp.store.isPassive p = sr.solver.store.isPassive p)
      ∧ sp.posted = sr.solver.space.posted := by
  rcases hvisit.anchored (· = none) hprepared.resting rfl (Or.inl hcut) with
    hstart | ⟨-, -, -, htracks⟩
  · rw [hstart, Solver.isSearching, hprepared.resting.root] at hsearching
    cases hsearching
  · simp only [Tracks, hstage] at htracks
    obtain ⟨sp, hopened, halike⟩ := htracks
    obtain ⟨decisions, hcurrent, hreplay⟩ := hopened.replay
    have hstore : sr.solver.store = sp.store := halike.store
    rw [hstore]
    exact ⟨decisions, sp, hcurrent, hreplay, rfl, rfl, rfl, fun _ => rfl, halike.posted.symm⟩

/-- Three variables that differ pairwise and a graph. -/
def trio : List Statement :=
  [.bounded 0 2 Width.fits_zero_two none, .bounded 0 1 (by decide) none, .bounded 0 1 (by decide) none,
    .graph 1 [] none,
    .post (.allDifferent [.plain ⟨0⟩, .plain ⟨1⟩, .plain ⟨2⟩] .instantiation)]

/-- The search of a solver for all variables in order. -/
def inOrder (sv : Solver Filter) : Search Filter Strategy Limit :=
  ⟨sv.enter, .covering sv.store .inputOrder .min .minimum .lexicographic, .indefinite⟩

/-- After two contradictions and two solutions three alternatives are left to be replayed. -/
theorem replay_of_select_trio :
    ∃ (sv : Solver Filter) (sr : Search Filter Strategy Limit) (decisions : List Decision)
      (sp : Space Filter), sv.Prepared ∧ sr.Visits sv ∧ sr.solver.isSearching = true
      ∧ sr.solver.cut? = none ∧ sr.solver.stage = .select ∧ sr.solver.measures.fails = 2
      ∧ sr.solver.measures.solutions = 2 ∧ sr.solver.levels.length = 3
      ∧ sr.solver.levels.reverse.map Level.current? = decisions.map some
      ∧ sv.space.replay decisions = .ok (none, sp) ∧ sp.store.ints = sr.solver.store.ints
      ∧ sp.store.sets = sr.solver.store.sets ∧ sp.store.graphs = sr.solver.store.graphs
      ∧ (∀ p, sp.store.isPassive p = sr.solver.store.isPassive p)
      ∧ sp.posted = sr.solver.space.posted := by
  have hrun : (((Solver.empty (.ofSeed 0)).state trio).bind fun sv =>
      ((inOrder sv).steps 25).map fun sr =>
        ((sv.infeasible, sr.solver.cut?, sr.solver.stage), sr.solver.measures.fails,
          sr.solver.measures.solutions, sr.solver.levels.length)).toOption
      = some ((false, none, .select), 2, 2, 3) := by
    decide +kernel
  cases hstate : (Solver.empty (.ofSeed 0)).state trio with
  | error f => rw [hstate] at hrun; cases hrun
  | ok sv =>
    rw [hstate] at hrun
    simp only [Except.bind] at hrun
    cases hsteps : (inOrder sv).steps 25 with
    | error f => rw [hsteps] at hrun; cases hrun
    | ok sr =>
      simp only [hsteps, Except.map, Except.toOption, Option.some.injEq, Prod.mk.injEq] at hrun
      obtain ⟨⟨hfeasible, hcut, hstage⟩, hfails, hsolutions, hlevels⟩ := hrun
      have hprepared := (Solver.Prepared.empty (.ofSeed 0)).state hstate
      obtain ⟨hvisit, hsearching⟩ :=
        ((Visits.start (inOrder sv).brancher (inOrder sv).limit).enter hfeasible).steps
          (isSearching_enter _) hsteps
      obtain ⟨decisions, sp, hspace⟩ :=
        replay_of_select hprepared hvisit hsearching hcut hstage
      exact ⟨sv, sr, decisions, sp, hprepared, hvisit, hsearching, hcut, hstage, hfails, hsolutions,
        hlevels, hspace⟩

end Search

end FiniteDomain
