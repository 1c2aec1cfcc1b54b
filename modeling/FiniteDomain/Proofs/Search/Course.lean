import FiniteDomain.Proofs.Search.Step
import FiniteDomain.Search.SolutionStream

/-! # The course of a search

    The course of a search is what it has come to, apart from its limit: the
    solver with its counters, its random source and its history, and the brancher.
    The history is read without the polls, which are the business of the limit.

    The limit decides whether a search makes its next transition, but has no say
    in what comes of it.  So every transition can be made on the course alone,
    and that is what the lemmas here say, one for each transition
    (`course_move` for all of them). -/

namespace FiniteDomain

/-- The limit that has no say. -/
instance : Termination Unit where
  shouldStop := fun _ => (false, ())
  onDecision := id
  onConflict := id
  onSolution := id

/-- The observation is about the limit alone. -/
@[simp] def Observation.isPoll : Observation → Bool
  | .polled _ => true
  | _ => false

/-- The solver with all polls struck out of its history. -/
def Solver.withoutPolls {P : Type} (sv : Solver P) : Solver P :=
  { sv with history := sv.history.filter fun o => !o.isPoll }

theorem Solver.withoutPolls_polled {P : Type} (sv : Solver P) (stop : Bool) :
    (sv.observe (.polled stop)).withoutPolls = sv.withoutPolls := by
  simp only [withoutPolls, observe, Array.filter_push, Observation.isPoll, Bool.not_true,
    Bool.false_eq_true, if_false]

/-- An answer with a state, as it looks to someone who sees less of the state. -/
def seen {A S V : Type} (view : S → V) (answer : A × S) : A × V := (answer.1, view answer.2)

namespace Search

variable {P B T : Type} (sr : Search P B T)

/-- The search without the polls and without a limit. -/
def course : Search P B Unit := ⟨sr.solver.withoutPolls, sr.brancher, ()⟩

/-! ### Transitions on the course -/

theorem course_enter : (sr.update Solver.enter).course = sr.course.update Solver.enter := by
  have henter : sr.solver.enter.withoutPolls = sr.solver.withoutPolls.enter := by
    simp only [Solver.enter, Solver.withoutPolls]
    split <;> rfl
  simp only [course, update, henter]

/-- Polling leaves the course as it is. -/
theorem course_poll [Termination T] : sr.poll.2.course = sr.course := by
  simp only [course, poll, Solver.withoutPolls_polled]

theorem course_select [Brancher B] : sr.select.map course = sr.course.select := by
  have hask : Brancher.next sr.course.brancher sr.course.solver.store sr.course.solver.random
      = Brancher.next sr.brancher sr.solver.store sr.solver.random := rfl
  simp only [select, hask, bind, Except.bind]
  cases Brancher.next sr.brancher sr.solver.store sr.solver.random with
  | error f => rfl
  | ok answer =>
    obtain ⟨branch?, b', random⟩ := answer
    cases branch? with
    | none => simp [course, Solver.withoutPolls, Solver.observe, Except.map, pure, Except.pure]
    | some branch =>
      simp [course, Solver.withoutPolls, Solver.observe, Except.map, pure, Except.pure, Solver.store]

theorem course_decide : sr.decide.course = sr.course.decide := by
  simp only [decide, update, course, Solver.withoutPolls]
  cases sr.solver.levels with
  | nil => rfl
  | cons level outer =>
    simp only
    cases level.advance? <;> rfl

theorem course_announce [Termination T] : sr.announce.course = sr.course.announce := by
  have hsame : sr.course.solver.decision? = sr.solver.decision? := rfl
  simp only [announce, hsame]
  cases sr.solver.decision? with
  | none => rfl
  | some d =>
    simp [course, Solver.withoutPolls, Solver.observe]

theorem course_propagate [Propagator P] [Termination T] :
    sr.propagate.map course = sr.course.propagate := by
  simp only [propagate, ← course_announce, bind, Except.bind]
  have hsettle : sr.announce.course.solver.space.settle sr.announce.course.solver.requests
      = sr.announce.solver.space.settle sr.announce.solver.requests := rfl
  simp only [hsettle]
  cases sr.announce.solver.space.settle sr.announce.solver.requests with
  | error f => rfl
  | ok answer =>
    obtain ⟨contradiction?, space⟩ := answer
    cases contradiction? with
    | none => rfl
    | some c =>
      simp [course, Solver.withoutPolls, Solver.observe, Except.map, pure, Except.pure]

theorem course_retreat [Brancher B] (levels : List Level) :
    (sr.retreat levels).map course = sr.course.retreat levels := by
  induction levels generalizing sr with
  | nil =>
    simp [retreat, course, update, Solver.withoutPolls, Solver.observe, Except.map, pure,
      Except.pure]
  | cons level outer ih =>
    have hback : sr.course.solver.space.backtrackTo level.checkpoint
        = sr.solver.space.backtrackTo level.checkpoint := rfl
    simp only [retreat, hback, bind, Except.bind]
    cases sr.solver.space.backtrackTo level.checkpoint with
    | error f => rfl
    | ok space =>
      simp only
      cases level.advance? with
      | none =>
        simp only [ih]
        simp [course, Solver.withoutPolls, Solver.observe]
      | some next =>
        simp [course, update, Solver.withoutPolls, Solver.observe, Except.map, pure, Except.pure]

theorem course_backtrack [Brancher B] : sr.backtrack.map course = sr.course.backtrack :=
  course_retreat _ _

theorem course_report [Brancher B] [Termination T] : sr.report.course = sr.course.report := by
  simp [report, course, Solver.withoutPolls, Solver.observe, Solver.store]

theorem course_restore [Brancher B] : sr.restore.map course = sr.course.restore := by
  have hroot : sr.course.solver.root? = sr.solver.root? := rfl
  simp only [restore, hroot, bind, Except.bind]
  cases sr.solver.root? with
  | none => rfl
  | some root =>
    have hback : sr.course.solver.space.backtrackTo root.checkpoint
        = sr.solver.space.backtrackTo root.checkpoint := rfl
    simp only [hback]
    cases sr.solver.space.backtrackTo root.checkpoint with
    | error f => rfl
    | ok space =>
      simp [course, Solver.withoutPolls, Solver.observe, Except.map, pure, Except.pure]

/-! ### Runs without a limit -/

/-- One transition, without asking the limit. -/
def move [Propagator P] [Brancher B] [Termination T] (sr : Search P B T) :
    Except Fault (Option Verdict × Search P B T) :=
  match sr.solver.stage with
  | .select => return (none, ← sr.select)
  | .decide => return (none, sr.decide)
  | .propagate => return (none, ← sr.propagate)
  | .backtrack => return (none, ← sr.backtrack)
  | .solution => return (some .found, sr.report)
  | .done => return (some .exhausted, sr)

theorem course_move [Propagator P] [Brancher B] [Termination T] :
    sr.move.map (seen course) = sr.course.move := by
  have hstage : sr.course.solver.stage = sr.solver.stage := rfl
  simp only [move, hstage]
  cases sr.solver.stage with
  | select =>
    simp only [← course_select]
    cases sr.select <;> rfl
  | decide => exact congrArg (fun sr => Except.ok (none, sr)) sr.course_decide
  | propagate =>
    simp only [← course_propagate]
    cases sr.propagate <;> rfl
  | backtrack =>
    simp only [← course_backtrack]
    cases sr.backtrack <;> rfl
  | solution => exact congrArg (fun sr => Except.ok (some Verdict.found, sr)) sr.course_report
  | done => rfl

/-- A step stops at a poll, or comes to what the transition on the course comes to. -/
theorem step_cases [Propagator P] [Brancher B] [Termination T] :
    (sr.poll.1 = true ∧ sr.step = .ok (some .stopped, sr.poll.2))
      ∨ sr.step.map (seen course) = sr.course.move := by
  -- the limit is polled at two stages only, elsewhere a step is the transition
  have hstage : sr.course.solver.stage = sr.solver.stage := rfl
  cases hsr : sr.solver.stage with
  | select =>
    cases hstop : sr.poll.1 with
    | true => exact Or.inl ⟨rfl, by simp only [step, hsr, hstop, if_true, pure, Except.pure]⟩
    | false =>
      right
      simp only [step, move, hstage, hsr, hstop, Bool.false_eq_true, if_false]
      rw [← sr.course_poll, ← course_select]
      cases sr.poll.2.select <;> rfl
  | backtrack =>
    cases hstop : sr.poll.1 with
    | true => exact Or.inl ⟨rfl, by simp only [step, hsr, hstop, if_true, pure, Except.pure]⟩
    | false =>
      right
      simp only [step, move, hstage, hsr, hstop, Bool.false_eq_true, if_false]
      rw [← sr.course_poll, ← course_backtrack]
      cases sr.poll.2.backtrack <;> rfl
  | decide => exact Or.inr (sr.course_move ▸ by simp only [step, move, hsr])
  | propagate => exact Or.inr (sr.course_move ▸ by simp only [step, move, hsr])
  | solution => exact Or.inr (sr.course_move ▸ by simp only [step, move, hsr])
  | done => exact Or.inr (sr.course_move ▸ by simp only [step, move, hsr])

end Search

end FiniteDomain
