import FiniteDomain.Proofs.Search.Replay
import FiniteDomain.Search.SolutionStream

/-! # Searches that go the same way

    How a search goes on depends on the space, apart from what that has counted
    and noted, on the state of the search, and on brancher, limit and random
    source.  It does not depend on names, counters and history.  Two searches that
    agree on the former (`Search.Alike`) make the same transitions and stop for the
    same reasons, and streams over them give the same answers
    (`SolutionStream.Alike.take`). -/

namespace FiniteDomain

/-- The two solvers are in the same state of the same search.  What a solver does next matters only
    once a search is in progress. -/
structure Solver.Alike (sv sv' : Solver Filter) : Prop where
  /-- Domains, propagators and queue are the same. -/
  space : sv.space.Alike sv'.space
  /-- The next random draws are the same. -/
  random : sv'.random = sv.random
  /-- Both or none of the models are known to have no solution. -/
  infeasible : sv'.infeasible = sv.infeasible
  /-- The search has started in the same place. -/
  root : sv'.root? = sv.root?
  /-- The open levels are the same. -/
  levels : sv'.levels = sv.levels
  /-- The waiting decision is the same. -/
  decision : sv'.decision? = sv.decision?
  /-- The demand of the optimisation is the same. -/
  cut : sv'.cut? = sv.cut?
  /-- A search in progress does the same next. -/
  stage : sv.isSearching = true → sv'.stage = sv.stage

namespace Solver.Alike

variable {sv sv' : Solver Filter}

theorem store (h : sv.Alike sv') : sv'.store = sv.store := h.space.store

theorem enter (h : sv.Alike sv') : sv.enter.Alike sv'.enter := by
  have hroot := h.root
  unfold Solver.enter
  cases hsv : sv.root? with
  | some root =>
    rw [hsv] at hroot
    rw [hroot]
    exact h
  | none =>
    rw [hsv] at hroot
    rw [hroot, h.store]
    exact ⟨h.space, h.random, h.infeasible, rfl, h.levels, h.decision, h.cut, fun _ => rfl⟩

theorem rootContents (h : sv.Alike sv') : sv'.rootContents = sv.rootContents := by
  unfold Solver.rootContents
  rw [h.root, h.store]

theorem solution (h : sv.Alike sv') : sv'.solution = sv.solution := congrArg Solution.mk h.store

end Solver.Alike

namespace Search

variable {B T : Type}

/-- The two searches differ in names, counters and history only. -/
structure Alike (sr sr' : Search Filter B T) : Prop where
  /-- The solvers are in the same state. -/
  solver : sr.solver.Alike sr'.solver
  /-- Branches come from the same brancher. -/
  brancher : sr'.brancher = sr.brancher
  /-- The limit is the same. -/
  limit : sr'.limit = sr.limit

namespace Alike

variable {sr sr' next : Search Filter B T}

/-- An alike search is the search itself with another space, and other names, counters and history. -/
theorem exists_eq (h : sr.Alike sr') :
    ∃ space names measures stage history, sr.solver.space.Alike space
      ∧ (sr.solver.isSearching = true → stage = sr.solver.stage)
      ∧ sr' = { sr with solver := { sr.solver with space, names, measures, stage, history } } := by
  obtain ⟨⟨space, names, random, infeasible, measures, stage, levels, decision?, root?, cut?,
    history⟩, brancher, limit⟩ := sr'
  obtain ⟨⟨hspace, rfl, rfl, rfl, rfl, rfl, rfl, hstage⟩, rfl, rfl⟩ := h
  exact ⟨space, names, measures, stage, history, hspace, hstage, rfl⟩

/-! ### Transitions -/

theorem enter (h : sr.Alike sr') : (sr.update Solver.enter).Alike (sr'.update Solver.enter) :=
  ⟨h.solver.enter, h.brancher, h.limit⟩

theorem poll [Termination T] (h : sr.Alike sr') :
    sr'.poll.1 = sr.poll.1 ∧ sr.poll.2.Alike sr'.poll.2 := by
  obtain ⟨space, names, measures, stage, history, hspace, hstage, rfl⟩ := h.exists_eq
  exact ⟨rfl, ⟨⟨hspace, rfl, rfl, rfl, rfl, rfl, rfl, hstage⟩, rfl, rfl⟩⟩

theorem select [Brancher B] (h : sr.Alike sr') (hselect : sr.select = .ok next) :
    ∃ next', sr'.select = .ok next' ∧ next.Alike next' := by
  obtain ⟨space, names, measures, stage, history, hspace, -, rfl⟩ := h.exists_eq
  simp only [Search.select, Solver.store, hspace.store, bind, Except.bind] at hselect ⊢
  split at hselect
  · cases hselect
  next answer hask =>
    obtain ⟨branch?, brancher, random⟩ := answer
    cases branch? with
    | none =>
      cases hselect
      exact ⟨_, rfl, ⟨⟨hspace, rfl, rfl, rfl, rfl, rfl, rfl, fun _ => rfl⟩, rfl, rfl⟩⟩
    | some branch =>
      cases hselect
      have hlevels := congrArg
        (fun s : Store => Level.ofBranch s.checkpoint branch :: sr.solver.levels) hspace.store
      exact ⟨_, rfl, ⟨⟨hspace, rfl, rfl, rfl, hlevels, rfl, rfl, fun _ => rfl⟩, rfl, rfl⟩⟩

theorem decide (h : sr.Alike sr') : sr.decide.Alike sr'.decide := by
  obtain ⟨space, names, measures, stage, history, hspace, -, rfl⟩ := h.exists_eq
  simp only [Search.decide, update]
  split
  · exact ⟨⟨hspace, rfl, rfl, rfl, rfl, rfl, rfl, fun _ => rfl⟩, rfl, rfl⟩
  · split <;> exact ⟨⟨hspace, rfl, rfl, rfl, rfl, rfl, rfl, fun _ => rfl⟩, rfl, rfl⟩

theorem announce [Termination T] (h : sr.Alike sr') : sr.announce.Alike sr'.announce := by
  obtain ⟨space, names, measures, stage, history, hspace, hstage, rfl⟩ := h.exists_eq
  simp only [Search.announce]
  split
  · exact ⟨⟨hspace, rfl, rfl, rfl, rfl, rfl, rfl, hstage⟩, rfl, rfl⟩
  · exact ⟨⟨hspace, rfl, rfl, rfl, rfl, rfl, rfl, hstage⟩, rfl, rfl⟩

theorem propagate [Termination T] (h : sr.Alike sr') (hpropagate : sr.propagate = .ok next) :
    ∃ next', sr'.propagate = .ok next' ∧ next.Alike next' := by
  have hannounced := h.announce
  simp only [Search.propagate, bind, Except.bind] at hpropagate ⊢
  generalize sr.announce = sr at hannounced hpropagate
  generalize sr'.announce = sr' at hannounced
  obtain ⟨space, names, measures, stage, history, hspace, -, rfl⟩ := hannounced.exists_eq
  split at hpropagate
  · cases hpropagate
  next r hsettle =>
    obtain ⟨contradiction?, t⟩ := r
    obtain ⟨t', hsettle', ht⟩ := hspace.settle hsettle
    have hsettle'' : space.settle ({ sr.solver with space, names, measures, stage, history } :
        Solver Filter).requests = .ok (contradiction?, t') := hsettle'
    simp only [hsettle'']
    cases contradiction? <;> cases hpropagate <;>
      exact ⟨_, rfl, ⟨⟨ht, rfl, rfl, rfl, rfl, rfl, rfl, fun _ => rfl⟩, rfl, rfl⟩⟩

theorem retreat [Brancher B] {levels : List Level} (h : sr.Alike sr')
    (hretreat : sr.retreat levels = .ok next) :
    ∃ next', sr'.retreat levels = .ok next' ∧ next.Alike next' := by
  induction levels generalizing sr sr' with
  | nil =>
    obtain ⟨space, names, measures, stage, history, hspace, -, rfl⟩ := h.exists_eq
    cases hretreat
    exact ⟨_, rfl, ⟨⟨hspace, rfl, rfl, rfl, rfl, rfl, rfl, fun _ => rfl⟩, rfl, rfl⟩⟩
  | cons level outer ih =>
    obtain ⟨space, names, measures, stage, history, hspace, hstage, rfl⟩ := h.exists_eq
    simp only [Search.retreat, bind, Except.bind] at hretreat ⊢
    split at hretreat
    · cases hretreat
    next t hback =>
      obtain ⟨t', hback', ht⟩ := hspace.backtrackTo hback
      rw [hback']
      cases hadvance : level.advance? with
      | some r =>
        rw [hadvance] at hretreat
        cases hretreat
        exact ⟨_, rfl, ⟨⟨ht, rfl, rfl, rfl, rfl, rfl, rfl, fun _ => rfl⟩, rfl, rfl⟩⟩
      | none =>
        rw [hadvance] at hretreat
        refine ih ?_ hretreat
        exact ⟨⟨ht, rfl, rfl, rfl, rfl, rfl, rfl, hstage⟩, rfl, rfl⟩

theorem backtrack [Brancher B] (h : sr.Alike sr') (hbacktrack : sr.backtrack = .ok next) :
    ∃ next', sr'.backtrack = .ok next' ∧ next.Alike next' := by
  obtain ⟨space, names, measures, stage, history, hspace, hstage, rfl⟩ := h.exists_eq
  refine retreat ?_ hbacktrack
  exact ⟨⟨hspace, rfl, rfl, rfl, rfl, rfl, rfl, hstage⟩, rfl, rfl⟩

theorem report [Brancher B] [Termination T] (h : sr.Alike sr') : sr.report.Alike sr'.report := by
  obtain ⟨space, names, measures, stage, history, hspace, -, rfl⟩ := h.exists_eq
  simp only [Search.report, Solver.store, hspace.store]
  exact ⟨⟨hspace, rfl, rfl, rfl, rfl, rfl, rfl, fun _ => rfl⟩, rfl, rfl⟩

/-- Alike searches make the same transition. -/
theorem step [Brancher B] [Termination T] {verdict? : Option Verdict} (h : sr.Alike sr')
    (hsearching : sr.solver.isSearching = true) (hstep : sr.step = .ok (verdict?, next)) :
    ∃ next', sr'.step = .ok (verdict?, next') ∧ next.Alike next' := by
  have hstage := h.solver.stage hsearching
  obtain ⟨hstop, hpoll⟩ := h.poll
  unfold Search.step at hstep ⊢
  rw [hstage]
  cases hsr : sr.solver.stage with
  | select =>
    simp only [hsr, hstop, bind, Except.bind] at hstep ⊢
    -- both are polled alike, so they stop together
    by_cases hpolled : sr.poll.1 = true
    · simp only [if_pos hpolled] at hstep ⊢
      cases hstep
      exact ⟨_, rfl, hpoll⟩
    · simp only [if_neg hpolled] at hstep ⊢
      split at hstep
      · cases hstep
      next hselect =>
        cases hstep
        obtain ⟨next', hselect', hnext⟩ := hpoll.select hselect
        exact ⟨next', by rw [hselect']; rfl, hnext⟩
  | decide =>
    simp only [hsr] at hstep ⊢
    cases hstep
    exact ⟨_, rfl, h.decide⟩
  | propagate =>
    simp only [hsr, bind, Except.bind] at hstep ⊢
    split at hstep
    · cases hstep
    next hpropagate =>
      cases hstep
      obtain ⟨next', hpropagate', hnext⟩ := h.propagate hpropagate
      exact ⟨next', by rw [hpropagate']; rfl, hnext⟩
  | backtrack =>
    simp only [hsr, hstop, bind, Except.bind] at hstep ⊢
    by_cases hpolled : sr.poll.1 = true
    · simp only [if_pos hpolled] at hstep ⊢
      cases hstep
      exact ⟨_, rfl, hpoll⟩
    · simp only [if_neg hpolled] at hstep ⊢
      split at hstep
      · cases hstep
      next hbacktrack =>
        cases hstep
        obtain ⟨next', hbacktrack', hnext⟩ := hpoll.backtrack hbacktrack
        exact ⟨next', by rw [hbacktrack']; rfl, hnext⟩
  | solution =>
    simp only [hsr] at hstep ⊢
    cases hstep
    exact ⟨_, rfl, h.report⟩
  | done =>
    simp only [hsr] at hstep ⊢
    cases hstep
    exact ⟨_, rfl, h⟩

variable [Brancher B] [Termination T] {verdict : Verdict}

theorem run {fuel : Nat} (h : sr.Alike sr') (hsearching : sr.solver.isSearching = true)
    (hrun : sr.run fuel = .ok (verdict, next)) :
    ∃ next', sr'.run fuel = .ok (verdict, next') ∧ next.Alike next' := by
  induction fuel generalizing sr sr' with
  | zero => cases hrun
  | succ fuel ih =>
    simp only [Search.run, bind, Except.bind] at hrun ⊢
    split at hrun
    · cases hrun
    next r hstep =>
      obtain ⟨verdict?, mid⟩ := r
      obtain ⟨mid', hstep', hmid⟩ := h.step hsearching hstep
      rw [hstep']
      have hgoes : mid.solver.isSearching = true := by
        rwa [Solver.isSearching, (transition_of_step hstep).sameTask.root]
      cases verdict? with
      | some v =>
        cases hrun
        exact ⟨mid', rfl, hmid⟩
      | none => exact ih hmid hgoes hrun

/-- Calls of alike searches stop for the same reason. -/
theorem solve (h : sr.Alike sr') (hsolve : sr.solve = .ok (verdict, next)) :
    ∃ next', sr'.solve = .ok (verdict, next') ∧ next.Alike next' := by
  have hbound : sr'.stepBound = sr.stepBound := by
    unfold stepBound
    rw [h.solver.rootContents, h.brancher]
  unfold Search.solve at hsolve ⊢
  rw [h.solver.infeasible, hbound]
  split at hsolve
  next hinfeasible =>
    cases hsolve
    exact ⟨sr', if_pos hinfeasible, h⟩
  next hfeasible =>
    obtain ⟨next', hrun, hnext⟩ := h.enter.run (isSearching_enter _) hsolve
    exact ⟨next', (if_neg hfeasible).trans hrun, hnext⟩

omit [Termination T] in
/-- Alike searches are given up alike. -/
theorem restore (h : sr.Alike sr') (hrestore : sr.restore = .ok next) :
    ∃ next', sr'.restore = .ok next' ∧ next.Alike next' := by
  obtain ⟨space, names, measures, stage, history, hspace, -, rfl⟩ := h.exists_eq
  simp only [Search.restore, bind, Except.bind] at hrestore ⊢
  cases hroot : sr.solver.root? with
  | none =>
    simp only [hroot] at hrestore
    cases hrestore
    exact ⟨_, rfl, ⟨⟨hspace, rfl, rfl, rfl, rfl, rfl, rfl, fun _ => rfl⟩, rfl, rfl⟩⟩
  | some root =>
    simp only [hroot] at hrestore
    cases hback : sr.solver.space.backtrackTo root.checkpoint with
    | error f =>
      rw [hback] at hrestore
      cases hrestore
    | ok t =>
      obtain ⟨t', hback', ht⟩ := hspace.backtrackTo hback
      rw [hback] at hrestore
      simp only [hback']
      cases hrestore
      exact ⟨_, rfl, ⟨⟨ht, rfl, rfl, rfl, rfl, rfl, rfl, fun _ => rfl⟩, rfl, rfl⟩⟩

end Alike

end Search

/-! ### Streams -/

namespace SolutionStream

variable {B T : Type} [Brancher B] [Termination T]

/-- The streams are over alike searches and have come equally far. -/
structure Alike (st st' : SolutionStream Filter B T) : Prop where
  /-- The searches are alike. -/
  search : st.search.Alike st'.search
  /-- Both or none have handed out a solution. -/
  hasSolution : st'.hasSolution = st.hasSolution

variable {st st' last : SolutionStream Filter B T} {answer : StreamAnswer}
  {answers : List StreamAnswer}

theorem Alike.next (h : st.Alike st') (hnext : st.next = .ok (answer, last)) :
    ∃ last', st'.next = .ok (answer, last') ∧ last.Alike last' := by
  simp only [SolutionStream.next, bind, Except.bind] at hnext ⊢
  split at hnext
  · cases hnext
  next r hsolve =>
    obtain ⟨verdict, sr⟩ := r
    obtain ⟨sr', hsolve', hsr⟩ := h.search.solve hsolve
    rw [hsolve']
    cases verdict with
    | found =>
      cases hnext
      simp only [hsr.solver.solution]
      exact ⟨_, rfl, hsr, rfl⟩
    | stopped =>
      cases hnext
      exact ⟨_, rfl, hsr, h.hasSolution⟩
    | exhausted =>
      simp only at hnext ⊢
      split at hnext
      · cases hnext
      next hrestore =>
        obtain ⟨restored', hrestore', hrestored⟩ := hsr.restore hrestore
        cases hnext
        simp only [hrestore', h.hasSolution]
        exact ⟨_, rfl, hrestored, rfl⟩

/-- Streams over alike searches answer the same, however often they are asked. -/
theorem Alike.take {count : Nat} (h : st.Alike st') (htake : st.take count = .ok (answers, last)) :
    ∃ last', st'.take count = .ok (answers, last') := by
  induction count generalizing st st' answers with
  | zero =>
    cases htake
    exact ⟨st', rfl⟩
  | succ count ih =>
    simp only [SolutionStream.take, bind, Except.bind] at htake ⊢
    split at htake
    · cases htake
    next r hnext =>
      obtain ⟨answer, mid⟩ := r
      obtain ⟨mid', hnext', hmid⟩ := h.next hnext
      rw [hnext']
      simp only at htake ⊢
      split at htake
      · cases htake
      next r hrest =>
        obtain ⟨later, final⟩ := r
        cases htake
        obtain ⟨final', hfinal⟩ := ih hmid hrest
        simp only [hfinal]
        exact ⟨final', rfl⟩

end SolutionStream

end FiniteDomain
