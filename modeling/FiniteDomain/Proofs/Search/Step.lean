import FiniteDomain.Search.Run

/-! # Transitions of a search

    `Transition` lists what a step of a search can do, stage by stage. -/

namespace FiniteDomain.Search

variable {P B T : Type}

/-- What a step of a search can do. -/
inductive Transition [Propagator P] [Brancher B] [Termination T] (sr : Search P B T) :
    Option Verdict → Search P B T → Prop where
  /-- The limit stops the search. -/
  | stopped (hstop : sr.poll.1 = true)
      (hstage : sr.solver.stage = .select ∨ sr.solver.stage = .backtrack) :
      Transition sr (some .stopped) sr.poll.2
  /-- The brancher is asked. -/
  | selected {sr' : Search P B T} (hstage : sr.solver.stage = .select)
      (hselect : sr.poll.2.select = .ok sr') : Transition sr none sr'
  /-- The first alternative of a new level is taken. -/
  | decided (hstage : sr.solver.stage = .decide) : Transition sr none sr.decide
  /-- The waiting decision is carried out. -/
  | propagated {sr' : Search P B T} (hstage : sr.solver.stage = .propagate)
      (hpropagate : sr.propagate = .ok sr') : Transition sr none sr'
  /-- The search goes back. -/
  | wentBack {sr' : Search P B T} (hstage : sr.solver.stage = .backtrack)
      (hbacktrack : sr.poll.2.backtrack = .ok sr') : Transition sr none sr'
  /-- A solution is reported. -/
  | found (hstage : sr.solver.stage = .solution) : Transition sr (some .found) sr.report
  /-- The search space is exhausted. -/
  | exhausted (hstage : sr.solver.stage = .done) : Transition sr (some .exhausted) sr

theorem transition_of_step [Propagator P] [Brancher B] [Termination T] {sr sr' : Search P B T}
    {verdict? : Option Verdict} (h : sr.step = .ok (verdict?, sr')) : Transition sr verdict? sr' := by
  -- one case for each stage; the stages that poll the limit have a second one
  unfold step at h
  split at h
  next hstage =>
    by_cases hstop : sr.poll.1 = true
    · simp only [hstop, if_true] at h
      cases h
      exact .stopped hstop (Or.inl hstage)
    · simp only [hstop, Bool.false_eq_true, if_false, bind, Except.bind] at h
      split at h
      · cases h
      next hselect =>
        cases h
        exact .selected hstage hselect
  next hstage =>
    cases h
    exact .decided hstage
  next hstage =>
    simp only [bind, Except.bind] at h
    split at h
    · cases h
    next hpropagate =>
      cases h
      exact .propagated hstage hpropagate
  next hstage =>
    by_cases hstop : sr.poll.1 = true
    · simp only [hstop, if_true] at h
      cases h
      exact .stopped hstop (Or.inr hstage)
    · simp only [hstop, Bool.false_eq_true, if_false, bind, Except.bind] at h
      split at h
      · cases h
      next hbacktrack =>
        cases h
        exact .wentBack hstage hbacktrack
  next hstage =>
    cases h
    exact .found hstage
  next hstage =>
    cases h
    exact .exhausted hstage

/-- A search that goes on after a poll was not stopped by it. -/
theorem poll_of_step [Propagator P] [Brancher B] [Termination T] {sr sr' : Search P B T}
    (h : sr.step = .ok (none, sr')) (hstage : sr.solver.stage = .select ∨ sr.solver.stage = .backtrack) :
    sr.poll.1 = false := by
  cases hpoll : sr.poll.1 with
  | false => rfl
  | true =>
    rcases hstage with hstage | hstage <;>
      · simp only [step, hstage, hpoll, if_true] at h
        cases h

/-! ### What a search never changes -/

/-- The parts of a solver that a search leaves as they are. -/
structure SameTask (sv sv' : Solver P) : Prop where
  cut : sv'.cut? = sv.cut?
  root : sv'.root? = sv.root?
  infeasible : sv'.infeasible = sv.infeasible

namespace SameTask

variable {sv sv' sv'' : Solver P}

theorem trans (h₁ : SameTask sv sv') (h₂ : SameTask sv' sv'') : SameTask sv sv'' :=
  ⟨h₂.cut.trans h₁.cut, h₂.root.trans h₁.root, h₂.infeasible.trans h₁.infeasible⟩

end SameTask

variable {sr sr' : Search P B T}

theorem sameTask_select [Brancher B] (h : sr.select = .ok sr') : SameTask sr.solver sr'.solver := by
  simp only [select, bind, Except.bind] at h
  split at h
  · cases h
  next r hr =>
    obtain ⟨branch?, brancher, random⟩ := r
    cases branch? <;> cases h <;> exact ⟨rfl, rfl, rfl⟩

theorem sameTask_decide (sr : Search P B T) : SameTask sr.solver sr.decide.solver := by
  simp only [decide, update]
  split
  · exact ⟨rfl, rfl, rfl⟩
  · split <;> exact ⟨rfl, rfl, rfl⟩

theorem sameTask_announce [Termination T] (sr : Search P B T) :
    SameTask sr.solver sr.announce.solver := by
  unfold announce
  split <;> exact ⟨rfl, rfl, rfl⟩

theorem sameTask_propagate [Propagator P] [Termination T] (h : sr.propagate = .ok sr') :
    SameTask sr.solver sr'.solver := by
  simp only [propagate, bind, Except.bind] at h
  have hannounce := sameTask_announce sr
  split at h
  · cases h
  next r hr =>
    split at h <;> cases h <;>
      exact ⟨hannounce.cut, hannounce.root, hannounce.infeasible⟩

theorem sameTask_retreat [Brancher B] {levels : List Level} (h : sr.retreat levels = .ok sr') :
    SameTask sr.solver sr'.solver := by
  induction levels generalizing sr with
  | nil =>
    cases h
    exact ⟨rfl, rfl, rfl⟩
  | cons level outer ih =>
    simp only [retreat, bind, Except.bind] at h
    split at h
    · cases h
    next space hspace =>
      split at h
      · cases h
        exact ⟨rfl, rfl, rfl⟩
      · have hrest := ih h
        exact ⟨hrest.cut, hrest.root, hrest.infeasible⟩

theorem Transition.sameTask [Propagator P] [Brancher B] [Termination T]
    {verdict? : Option Verdict} (h : Transition sr verdict? sr') : SameTask sr.solver sr'.solver := by
  cases h with
  | stopped hstop hstage => exact ⟨rfl, rfl, rfl⟩
  | selected hstage hselect =>
    have h := sameTask_select hselect
    exact ⟨h.cut, h.root, h.infeasible⟩
  | decided hstage => exact sameTask_decide sr
  | propagated hstage hpropagate => exact sameTask_propagate hpropagate
  | wentBack hstage hbacktrack =>
    have h := sameTask_retreat hbacktrack
    exact ⟨h.cut, h.root, h.infeasible⟩
  | found hstage => exact ⟨rfl, rfl, rfl⟩
  | exhausted hstage => exact ⟨rfl, rfl, rfl⟩

/-! ### Entering a search -/

theorem store_enter (sv : Solver P) : sv.enter.store = sv.store := by
  unfold Solver.enter
  cases sv.root? <;> rfl

theorem rootContents_enter (sv : Solver P) : sv.enter.rootContents = sv.rootContents := by
  unfold Solver.enter
  cases hroot : sv.root? with
  | some root => rfl
  | none =>
    simp only [Solver.rootContents, hroot]
    rfl

theorem cut?_enter (sv : Solver P) : sv.enter.cut? = sv.cut? := by
  unfold Solver.enter
  cases sv.root? <;> rfl

theorem infeasible_enter (sv : Solver P) : sv.enter.infeasible = sv.infeasible := by
  unfold Solver.enter
  cases sv.root? <;> rfl

theorem measures_enter (sv : Solver P) : sv.enter.measures = sv.measures := by
  unfold Solver.enter
  cases sv.root? <;> rfl

theorem enter_eq_self {sv : Solver P} {r : Root} (h : sv.root? = some r) : sv.enter = sv := by
  unfold Solver.enter
  rw [h]

theorem exists_root_enter (sv : Solver P) : ∃ r, sv.enter.root? = some r := by
  unfold Solver.enter
  cases hroot : sv.root? with
  | some r => exact ⟨r, hroot⟩
  | none => exact ⟨_, rfl⟩

theorem isSearching_enter (sv : Solver P) : sv.enter.isSearching = true := by
  obtain ⟨r, hroot⟩ := exists_root_enter sv
  rw [Solver.isSearching, hroot]
  rfl

/-! ### What happens to the limit -/

theorem limit_select [Brancher B] (h : sr.select = .ok sr') : sr'.limit = sr.limit := by
  simp only [select, bind, Except.bind] at h
  split at h
  · cases h
  · split at h <;> cases h <;> rfl

theorem limit_retreat [Brancher B] {levels : List Level} (h : sr.retreat levels = .ok sr') :
    sr'.limit = sr.limit := by
  induction levels generalizing sr with
  | nil =>
    cases h
    rfl
  | cons level outer ih =>
    simp only [retreat, bind, Except.bind] at h
    split at h
    · cases h
    next =>
      split at h
      · cases h
        rfl
      · exact (ih h).trans rfl

theorem limit_restore [Brancher B] (h : sr.restore = .ok sr') : sr'.limit = sr.limit := by
  simp only [restore, bind, Except.bind] at h
  cases hroot : sr.solver.root? with
  | none =>
    rw [hroot] at h
    cases h
    rfl
  | some root =>
    simp only [hroot] at h
    cases hback : sr.solver.space.backtrackTo root.checkpoint with
    | error f =>
      rw [hback] at h
      cases h
    | ok space =>
      rw [hback] at h
      cases h
      rfl

/-- What stays true of a limit, whatever it is asked and told. -/
structure Steady [Termination T] (keep : T → Prop) : Prop where
  poll : ∀ {t}, keep t → keep (Termination.shouldStop t).2
  decision : ∀ {t}, keep t → keep (Termination.onDecision t)
  conflict : ∀ {t}, keep t → keep (Termination.onConflict t)
  solution : ∀ {t}, keep t → keep (Termination.onSolution t)

theorem Steady.transition [Propagator P] [Brancher B] [Termination T] {keep : T → Prop}
    {verdict? : Option Verdict} (hkeep : Steady keep) (h : Transition sr verdict? sr')
    (hlimit : keep sr.limit) : keep sr'.limit := by
  cases h with
  | stopped hstop hstage => exact hkeep.poll hlimit
  | selected hstage hselect =>
    rw [limit_select hselect]
    exact hkeep.poll hlimit
  | decided hstage => exact hlimit
  | propagated hstage hpropagate =>
    have hannounce : keep sr.announce.limit := by
      unfold announce
      split
      · exact hlimit
      · exact hkeep.decision hlimit
    simp only [propagate, bind, Except.bind] at hpropagate
    split at hpropagate
    · cases hpropagate
    · split at hpropagate
      · cases hpropagate
        exact hannounce
      · cases hpropagate
        exact hkeep.conflict hannounce
  | wentBack hstage hbacktrack =>
    rw [limit_retreat hbacktrack]
    exact hkeep.poll hlimit
  | found hstage => exact hkeep.solution hlimit
  | exhausted hstage => exact hlimit

end FiniteDomain.Search
