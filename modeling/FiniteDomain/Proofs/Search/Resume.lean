import FiniteDomain.Proofs.Search.Course
import FiniteDomain.Proofs.Search.Visits

/-! # Stopping and resuming

    A search that its limit has stopped stays where it is, and the next call goes
    on from there.  A caller who calls again after every stop gets the answers of
    the search that is never stopped, and the searches take the same course: the
    same counters, the same random draws, the same questions to the brancher and
    answers from it.

    The limit may be any that stops finitely often, whatever it is asked and told
    (`Termination.StopsAtMost`).  Where it stops is up to it.

    The comparison is made with the run of the course without any limit
    (`Search.proceed`).  A call that is not stopped is that run, and a call that is
    stopped is its beginning (`run_stopped`).  What the run comes to if it is given
    enough transitions is its `outcome`; a run without end has the outcome that the
    transitions never suffice. -/

namespace FiniteDomain

/-! ### Limits that stop finitely often -/

namespace Termination

variable {T : Type} [Termination T]

/-- What a limit is asked or told. -/
inductive Signal where
  /-- Whether to stop. -/
  | poll
  /-- That a decision is carried out. -/
  | decision
  /-- That a contradiction was met. -/
  | conflict
  /-- That a solution was found. -/
  | solution

/-- How many of the polls among the signals the limit stops at. -/
def stops : List Signal → T → Nat
  | [], _ => 0
  | .poll :: rest, t => (shouldStop t).1.toNat + stops rest (shouldStop t).2
  | .decision :: rest, t => stops rest (onDecision t)
  | .conflict :: rest, t => stops rest (onConflict t)
  | .solution :: rest, t => stops rest (onSolution t)

/-- The limit stops at no more polls than that, whatever the signals are. -/
def StopsAtMost (t : T) (count : Nat) : Prop := ∀ signals, stops signals t ≤ count

/-- Signals do not make a limit stop more often. -/
theorem steady_stopsAtMost (count : Nat) : Search.Steady fun t : T => StopsAtMost t count where
  poll := fun h signals => Nat.le_trans (Nat.le_add_left _ _) (h (.poll :: signals))
  decision := fun h signals => h (.decision :: signals)
  conflict := fun h signals => h (.conflict :: signals)
  solution := fun h signals => h (.solution :: signals)

/-- Every stop uses up one of them. -/
theorem StopsAtMost.stopped {t : T} {count : Nat} (h : StopsAtMost t count)
    (hstop : (shouldStop t).1 = true) : ∃ m, m < count ∧ StopsAtMost (shouldStop t).2 m := by
  have hone : ∀ signals, 1 + stops signals (shouldStop t).2 ≤ count := fun signals => by
    have hall := h (.poll :: signals)
    rwa [stops, hstop] at hall
  exact ⟨count - 1, by have := hone []; omega, fun signals => by have := hone signals; omega⟩

end Termination

/-- The next poll is listed, or not, apart from those that come after it. -/
theorem Limit.polls_le (listed : List Nat) (polled : Nat) :
    (listed.contains (polled + 1)).toNat
        + (listed.filter fun k => decide (polled + 1 < k)).length
      ≤ (listed.filter fun k => decide (polled < k)).length := by
  induction listed with
  | nil => exact Nat.le_refl 0
  | cons k rest ih =>
    rw [List.contains_cons, List.filter_cons, List.filter_cons]
    rcases Nat.lt_trichotomy k (polled + 1) with hlt | rfl | hgt
    · have hne : (polled + 1 == k) = false := beq_eq_false_iff_ne.mpr (Nat.ne_of_gt hlt)
      rw [hne, Bool.false_or, decide_eq_false (by omega), decide_eq_false (by omega)]
      exact ih
    · rw [decide_eq_false (Nat.lt_irrefl _), decide_eq_true (Nat.lt_succ_self polled), BEq.rfl,
        Bool.true_or, if_neg Bool.false_ne_true, if_pos rfl, List.length_cons, Nat.add_comm]
      exact Nat.add_le_add_right (Nat.le_trans (Nat.le_add_left _ _) ih) 1
    · have hne : (polled + 1 == k) = false := beq_eq_false_iff_ne.mpr (Nat.ne_of_lt hgt)
      rw [hne, Bool.false_or, decide_eq_true hgt, decide_eq_true (Nat.lt_of_succ_lt hgt),
        if_pos rfl, if_pos rfl, List.length_cons, List.length_cons]
      exact Nat.succ_le_succ ih

/-- A limit that stops at listed polls stops no more often than polls are listed. -/
theorem Limit.stopsAtMost_polls (listed : List Nat) (polled : Nat) :
    Termination.StopsAtMost (Limit.polls listed polled) listed.length := by
  -- only the listed polls that are still to come count
  have hcoming : ∀ signals polled, Termination.stops signals (Limit.polls listed polled)
      ≤ (listed.filter fun k => decide (polled < k)).length := by
    intro signals
    induction signals with
    | nil => exact fun _ => Nat.zero_le _
    | cons signal rest ih =>
      intro polled
      cases signal with
      | poll =>
        exact Nat.le_trans (Nat.add_le_add_left (ih (polled + 1)) _) (polls_le listed polled)
      | decision => exact ih polled
      | conflict => exact ih polled
      | solution => exact ih polled
  exact fun signals => Nat.le_trans (hcoming signals polled) (List.length_filter_le _ _)

/-- Without a limit there are no stops. -/
theorem Limit.stopsAtMost_indefinite : Termination.StopsAtMost Limit.indefinite 0 := by
  intro signals
  induction signals with
  | nil => exact Nat.le_refl 0
  | cons signal rest ih =>
    cases signal with
    | poll => exact Nat.le_trans (Nat.le_of_eq (Nat.zero_add _)) ih
    | decision => exact ih
    | conflict => exact ih
    | solution => exact ih

namespace Search

variable {P B T : Type} [Propagator P] [Brancher B] [Termination T]

/-! ### Calls and their outcome -/

/-- A call of the search that may make the given number of transitions. -/
def call (fuel : Nat) (sr : Search P B T) : Except Fault (Verdict × Search P B T) :=
  if sr.solver.infeasible then return (.exhausted, sr) else (sr.update Solver.enter).run fuel

theorem solve_eq_call (sr : Search P B T) : sr.solve = sr.call sr.stepBound := rfl

/-- Makes transitions without a limit until the search answers. -/
def proceed : (fuel : Nat) → Search P B Unit → Except Fault (Verdict × Search P B Unit)
  | 0, _ => throw .outOfFuel
  | fuel + 1, sr => do
    let (verdict?, sr) ← sr.move
    match verdict? with
    | some verdict => return (verdict, sr)
    | none => proceed fuel sr

/-- A call without a limit. -/
def unlimited (fuel : Nat) (sr : Search P B Unit) : Except Fault (Verdict × Search P B Unit) :=
  if sr.solver.infeasible then return (.exhausted, sr) else (sr.update Solver.enter).proceed fuel

/-- More transitions change nothing once they suffice. -/
theorem proceed_of_le {fuel fuel' : Nat} {sr : Search P B Unit}
    (h : sr.proceed fuel ≠ .error .outOfFuel) (hle : fuel ≤ fuel') :
    sr.proceed fuel' = sr.proceed fuel := by
  induction fuel generalizing sr fuel' with
  | zero => exact absurd rfl h
  | succ fuel ih =>
    obtain ⟨more, rfl⟩ := Nat.exists_eq_add_of_le hle
    rw [Nat.add_right_comm]
    simp only [proceed, bind, Except.bind] at h ⊢
    cases hmove : sr.move with
    | error f => rfl
    | ok answer =>
      obtain ⟨verdict?, next⟩ := answer
      rw [hmove] at h
      cases verdict? with
      | some verdict => rfl
      | none => exact ih h (Nat.le_add_right fuel more)

theorem unlimited_of_le {fuel fuel' : Nat} {sr : Search P B Unit}
    (h : sr.unlimited fuel ≠ .error .outOfFuel) (hle : fuel ≤ fuel') :
    sr.unlimited fuel' = sr.unlimited fuel := by
  unfold unlimited at h ⊢
  split
  · rfl
  next hfeasible =>
    rw [if_neg hfeasible] at h
    exact proceed_of_le h hle

open Classical in
/-- What a call without a limit comes to, however many transitions that takes. -/
noncomputable def outcome (sr : Search P B Unit) : Except Fault (Verdict × Search P B Unit) :=
  if h : ∃ fuel, sr.unlimited fuel ≠ .error .outOfFuel then sr.unlimited h.choose
  else .error .outOfFuel

/-- A number of transitions that suffices comes to the outcome. -/
theorem unlimited_eq_outcome {fuel : Nat} {sr : Search P B Unit}
    (h : sr.unlimited fuel ≠ .error .outOfFuel) : sr.unlimited fuel = sr.outcome := by
  have hsome : ∃ fuel, sr.unlimited fuel ≠ .error .outOfFuel := ⟨fuel, h⟩
  rw [outcome, dif_pos hsome]
  rcases Nat.le_total fuel hsome.choose with hle | hle
  · exact (unlimited_of_le h hle).symm
  · exact unlimited_of_le hsome.choose_spec hle

/-- Enough transitions come to the outcome. -/
theorem exists_enough (sr : Search P B Unit) :
    ∃ enough, ∀ fuel, enough ≤ fuel → sr.unlimited fuel = sr.outcome := by
  by_cases h : ∃ fuel, sr.unlimited fuel ≠ .error .outOfFuel
  · obtain ⟨enough, henough⟩ := h
    exact ⟨enough, fun fuel hle => (unlimited_of_le henough hle).trans (unlimited_eq_outcome henough)⟩
  · refine ⟨0, fun fuel _ => ?_⟩
    rw [outcome, dif_neg h]
    exact Classical.not_not.mp fun hne => h ⟨fuel, hne⟩

/-! ### One call -/

variable {sr sr' : Search P B T} {fuel : Nat}

theorem move_ne_stopped : sr.move ≠ .ok (some .stopped, sr') := by
  unfold move
  intro h
  split at h
  · cases hselect : sr.select <;> rw [hselect] at h <;> cases h
  · cases h
  · cases hpropagate : sr.propagate <;> rw [hpropagate] at h <;> cases h
  · cases hbacktrack : sr.backtrack <;> rw [hbacktrack] at h <;> cases h
  · cases h
  · cases h

/-- A run that is not stopped is the run of its course. -/
theorem run_course (sr : Search P B T) (h : ∀ sr', sr.run fuel ≠ .ok (.stopped, sr')) :
    (sr.run fuel).map (seen course) = sr.course.proceed fuel := by
  induction fuel generalizing sr with
  | zero => rfl
  | succ fuel ih =>
    simp only [run, proceed, bind, Except.bind] at h ⊢
    rcases sr.step_cases with ⟨-, hstop⟩ | hmove
    · rw [hstop] at h
      exact absurd rfl (h _)
    · rw [← hmove]
      cases hstep : sr.step with
      | error f => rfl
      | ok answer =>
        obtain ⟨verdict?, next⟩ := answer
        rw [hstep] at h
        cases verdict? with
        | some verdict => rfl
        | none => exact ih next h

/-- A run that is stopped is the beginning of the run of its course, which goes on where the
    search has stopped. -/
theorem run_stopped (h : sr.run fuel = .ok (.stopped, sr')) :
    (∃ made, ∀ k, sr.course.proceed (k + made) = sr'.course.proceed k)
      ∧ SameTask sr.solver sr'.solver
      ∧ ∀ count, Termination.StopsAtMost sr.limit count →
        ∃ m, m < count ∧ Termination.StopsAtMost sr'.limit m := by
  induction fuel generalizing sr with
  | zero => cases h
  | succ fuel ih =>
    simp only [run, bind, Except.bind] at h
    -- on the transitions: a stop is none, and every other one is a move of the course
    rcases sr.step_cases with ⟨hstop, hstopped⟩ | hmove
    · rw [hstopped] at h
      cases h
      refine ⟨⟨0, fun k => ?_⟩, ⟨rfl, rfl, rfl⟩, fun count hcount => hcount.stopped hstop⟩
      rw [course_poll]
      rfl
    · cases hstep : sr.step with
      | error f => rw [hstep] at h; cases h
      | ok answer =>
        obtain ⟨verdict?, next⟩ := answer
        rw [hstep] at h hmove
        have htransition := transition_of_step hstep
        cases verdict? with
        | some verdict =>
          cases h
          exact absurd hmove.symm move_ne_stopped
        | none =>
          obtain ⟨⟨made, hmade⟩, hsame, hlimit⟩ := ih h
          refine ⟨⟨made + 1, fun k => ?_⟩, htransition.sameTask.trans hsame, fun count hcount =>
            hlimit count ((Termination.steady_stopsAtMost count).transition htransition hcount)⟩
          rw [← hmade k]
          show (sr.course.move >>= _) = _
          rw [← hmove]
          rfl

theorem Steady.run {keep : T → Prop} {verdict : Verdict} (hkeep : Steady keep)
    (h : sr.run fuel = .ok (verdict, sr')) (hlimit : keep sr.limit) : keep sr'.limit := by
  induction fuel generalizing sr with
  | zero => cases h
  | succ fuel ih =>
    simp only [Search.run, bind, Except.bind] at h
    split at h
    · cases h
    next r hstep =>
      obtain ⟨verdict?, next⟩ := r
      have hnext := hkeep.transition (transition_of_step hstep) hlimit
      cases verdict? with
      | some v =>
        cases h
        exact hnext
      | none => exact ih h hnext

/-- A call that is not stopped is the call of its course. -/
theorem call_course (sr : Search P B T) (h : ∀ sr', sr.call fuel ≠ .ok (.stopped, sr')) :
    (sr.call fuel).map (seen course) = sr.course.unlimited fuel := by
  have hsame : sr.course.solver.infeasible = sr.solver.infeasible := rfl
  unfold call at h ⊢
  simp only [unlimited, hsame]
  by_cases hinfeasible : sr.solver.infeasible = true
  · simp only [hinfeasible, if_true]
    rfl
  · rw [if_neg hinfeasible] at h ⊢
    rw [if_neg hinfeasible, ← course_enter]
    exact run_course _ h

/-- A call that is stopped is the beginning of the call of its course; the next call goes on. -/
theorem call_stopped (h : sr.call fuel = .ok (.stopped, sr')) :
    (∃ made, ∀ k, sr.course.unlimited (k + made) = sr'.course.unlimited k)
      ∧ ∀ count, Termination.StopsAtMost sr.limit count →
        ∃ m, m < count ∧ Termination.StopsAtMost sr'.limit m := by
  unfold call at h
  by_cases hinfeasible : sr.solver.infeasible = true
  · rw [if_pos hinfeasible] at h
    cases h
  · rw [if_neg hinfeasible] at h
    obtain ⟨⟨made, hmade⟩, hsame, hlimit⟩ := run_stopped h
    refine ⟨⟨made, fun k => ?_⟩, hlimit⟩
    -- the search is in progress, so that entering it changes nothing
    obtain ⟨root, hroot⟩ := exists_root_enter sr.solver
    have henter : sr'.solver.enter = sr'.solver := enter_eq_self (hsame.root.trans hroot)
    have hfeasible : sr'.course.solver.infeasible = sr.solver.infeasible :=
      hsame.infeasible.trans (infeasible_enter sr.solver)
    have hcourse : sr'.course.update Solver.enter = sr'.course := by
      rw [← course_enter, update, henter]
    have hstart : sr.course.solver.infeasible = sr.solver.infeasible := rfl
    unfold unlimited
    rw [hfeasible, hstart, if_neg hinfeasible, if_neg hinfeasible, ← course_enter, hcourse]
    exact hmade k

/-- A call that the limit cannot stop is the call of its course. -/
theorem call_never (h : Termination.StopsAtMost sr.limit 0) (fuel : Nat) :
    (sr.call fuel).map (seen course) = sr.course.unlimited fuel := by
  refine call_course sr fun sr' hstop => ?_
  obtain ⟨m, hm, -⟩ := (call_stopped hstop).2 0 h
  exact Nat.not_lt_zero m hm

theorem Steady.call {keep : T → Prop} {verdict : Verdict} (hkeep : Steady keep)
    (h : sr.call fuel = .ok (verdict, sr')) (hlimit : keep sr.limit) : keep sr'.limit := by
  unfold Search.call at h
  split at h
  · cases h
    exact hlimit
  · exact hkeep.run h hlimit

/-! ### Calls until there is an answer -/

/-- The verdict of a search that its limit has stopped. -/
def isStop : Verdict → Bool
  | .stopped => true
  | _ => false

end Search

/-- Asks again as long as the answer is only that something was stopped, at most a number of
    times. -/
def persist {S A : Type} (ask : S → Except Fault (A × S)) (isStop : A → Bool) :
    (calls : Nat) → S → Except Fault (A × S)
  | 0, _ => throw .outOfFuel
  | calls + 1, s => do
    let (answer, s) ← ask s
    if isStop answer then persist ask isStop calls s else return (answer, s)

/-- Asks a number of times. -/
def answers {S A : Type} (ask : S → Except Fault (A × S)) :
    (count : Nat) → S → Except Fault (List A × S)
  | 0, s => return ([], s)
  | count + 1, s => do
    let (answer, s) ← ask s
    let (rest, s) ← answers ask count s
    return (answer :: rest, s)

namespace Search

variable {P B T : Type} [Propagator P] [Brancher B] [Termination T] {sr sr' : Search P B T}
  {time : Search P B T → Nat} {calls count : Nat}

/-- Calls the search, and again after every stop; the transitions of each call are limited. -/
def pursue (time : Search P B T → Nat) (calls : Nat) (sr : Search P B T) :
    Except Fault (Verdict × Search P B T) :=
  persist (fun sr => sr.call (time sr)) isStop calls sr

/-- Whatever stops the search, calling it again comes to the outcome of its course. -/
theorem pursue_eq {enough : Nat} {result : Except Fault (Verdict × Search P B Unit)}
    (hresult : ∀ fuel, enough ≤ fuel → sr.course.unlimited fuel = result)
    (htime : ∀ sr, enough ≤ time sr) (hlimit : Termination.StopsAtMost sr.limit count)
    (hcalls : count < calls) : (sr.pursue time calls).map (seen course) = result := by
  -- on the calls: a stop uses up one of those that the limit has left
  induction calls generalizing sr count with
  | zero => exact absurd hcalls (Nat.not_lt_zero count)
  | succ calls ih =>
    have hfirst : sr.course.unlimited (time sr) = result := hresult _ (htime sr)
    simp only [pursue, persist, bind, Except.bind]
    cases hcall : sr.call (time sr) with
    | error f =>
      have hunstopped : ∀ sr', sr.call (time sr) ≠ .ok (.stopped, sr') := fun sr' h => by
        rw [hcall] at h
        cases h
      rw [← hfirst, ← call_course sr hunstopped, hcall]
    | ok answer =>
      obtain ⟨verdict, sr'⟩ := answer
      by_cases hstop : verdict = .stopped
      · subst hstop
        obtain ⟨⟨made, hmade⟩, hless⟩ := call_stopped hcall
        obtain ⟨m, hm, hlimit'⟩ := hless count hlimit
        have hresult' : ∀ fuel, enough ≤ fuel → sr'.course.unlimited fuel = result := by
          intro fuel hle
          rw [← hmade fuel]
          exact hresult _ (Nat.le_trans hle (Nat.le_add_right fuel made))
        exact ih hresult' hlimit' (by omega)
      · have hunstopped : ∀ sr', sr.call (time sr) ≠ .ok (.stopped, sr') := fun sr' h => by
          rw [hcall] at h
          cases h
          exact hstop rfl
        have hanswer : isStop verdict = false := by
          cases verdict with
          | stopped => exact absurd rfl hstop
          | found => rfl
          | exhausted => rfl
        simp only [hanswer, Bool.false_eq_true, if_false]
        rw [← hfirst, ← call_course sr hunstopped, hcall]
        rfl

theorem Steady.pursue {keep : T → Prop} {verdict : Verdict} (hkeep : Steady keep)
    (h : sr.pursue time calls = .ok (verdict, sr')) (hlimit : keep sr.limit) : keep sr'.limit := by
  induction calls generalizing sr with
  | zero => cases h
  | succ calls ih =>
    simp only [Search.pursue, persist, bind, Except.bind] at h
    split at h
    · cases h
    next answer hcall =>
      have hnext := hkeep.call hcall hlimit
      split at h
      · exact ih h hnext
      · cases h
        exact hnext

/-- A number of answers, each with the store in which the search has stopped; every answer is
    waited for. -/
def pursueAll (time : Search P B T → Nat) (calls : Nat) :
    (count : Nat) → Search P B T → Except Fault (List (Verdict × Solution) × Search P B T) :=
  answers fun sr => do
    let (verdict, sr) ← sr.pursue time calls
    return ((verdict, sr.solver.solution), sr)

end Search

/-! ### Sequences of answers -/

/-- If what is asked comes to the same in every sufficient time, so do sequences of it. -/
theorem answers_eq {S V A R : Type} {view : S → V} {keep : S → Prop}
    {ask : (R → Nat) → S → Except Fault (A × S)} {outcome : V → Except Fault (A × V)}
    (hask : ∀ v, ∃ enough, ∀ time, (∀ r, enough ≤ time r) → ∀ s, view s = v → keep s →
      (ask time s).map (seen view) = outcome v ∧ ∀ answer, ask time s = .ok answer → keep answer.2)
    (count : Nat) (v : V) :
    ∃ enough, ∀ time, (∀ r, enough ≤ time r) → ∀ s, view s = v → keep s →
      (answers (ask time) count s).map (seen view) = answers outcome count v := by
  induction count generalizing v with
  | zero =>
    refine ⟨0, fun time _ s hs _ => ?_⟩
    rw [← hs]
    rfl
  | succ count ih =>
    obtain ⟨enough, henough⟩ := hask v
    cases houtcome : outcome v with
    | error f =>
      refine ⟨enough, fun time htime s hs hkeep => ?_⟩
      obtain ⟨hfirst, -⟩ := henough time htime s hs hkeep
      rw [houtcome] at hfirst
      simp only [answers, houtcome, bind, Except.bind]
      cases hanswer : ask time s with
      | error f' =>
        rw [hanswer] at hfirst
        cases hfirst
        rfl
      | ok answer =>
        rw [hanswer] at hfirst
        cases hfirst
    | ok first =>
      -- the rest depends on how the first answer is seen only, not on the time it took
      obtain ⟨enough', henough'⟩ := ih first.2
      refine ⟨max enough enough', fun time htime s hs hkeep => ?_⟩
      have hmax (r : R) := Nat.max_le.mp (htime r)
      obtain ⟨hfirst, hkept⟩ := henough time (fun r => (hmax r).1) s hs hkeep
      rw [houtcome] at hfirst
      simp only [answers, houtcome, bind, Except.bind]
      cases hanswer : ask time s with
      | error f =>
        rw [hanswer] at hfirst
        cases hfirst
      | ok answer =>
        rw [hanswer] at hfirst
        cases hfirst
        have hrest : (answers (ask time) count answer.2).map (seen view)
            = answers outcome count (view answer.2) :=
          henough' time (fun r => (hmax r).2) answer.2 rfl (hkept answer hanswer)
        simp only [seen, ← hrest]
        cases answers (ask time) count answer.2 <;> rfl

namespace Search

variable {P B T : Type} [Propagator P] [Brancher B] [Termination T]

/-- What the answers of a search come to if nothing stops it. -/
noncomputable def outcomes : (count : Nat) → Search P B Unit →
    Except Fault (List (Verdict × Solution) × Search P B Unit) :=
  answers fun sr => do
    let (verdict, sr) ← sr.outcome
    return ((verdict, sr.solver.solution), sr)

/-- Whatever stops a search, its answers come to what they come to without stops. -/
theorem pursueAll_eq (stops calls : Nat) (hcalls : stops < calls) (count : Nat)
    (course : Search P B Unit) :
    ∃ enough, ∀ time : Search P B T → Nat, (∀ sr, enough ≤ time sr) → ∀ sr : Search P B T,
      sr.course = course → Termination.StopsAtMost sr.limit stops →
      (sr.pursueAll time calls count).map (seen Search.course) = course.outcomes count := by
  refine answers_eq (fun v => ?_) count course
  obtain ⟨enough, henough⟩ := v.exists_enough
  refine ⟨enough, fun time htime sr hv hlimit => ?_⟩
  subst hv
  have hpursue := pursue_eq henough htime hlimit hcalls
  constructor
  · rw [← hpursue]
    cases sr.pursue time calls <;> rfl
  · intro answer hanswer
    cases hfirst : sr.pursue time calls with
    | error f =>
      rw [hfirst] at hanswer
      cases hanswer
    | ok first =>
      rw [hfirst] at hanswer
      cases hanswer
      exact (Termination.steady_stopsAtMost stops).pursue hfirst hlimit

end Search

/-! ### Streams -/

namespace SolutionStream

variable {P B T : Type} [Propagator P] [Brancher B] [Termination T]

/-- The stream without the polls and without a limit. -/
def course (st : SolutionStream P B T) : SolutionStream P B Unit :=
  ⟨st.search.course, st.hasSolution⟩

/-- What a stream that may have handed out a solution answers when its search has stopped. -/
def conclude (hasSolution : Bool) :
    Verdict × Search P B T → Except Fault (StreamAnswer × SolutionStream P B T)
  | (.found, sr) => return (.solution sr.solver.solution, ⟨sr, true⟩)
  | (.exhausted, sr) => do
    return (if hasSolution then .finished else .unsatisfiable, ⟨← sr.restore, hasSolution⟩)
  | (.stopped, sr) => return (.unknown, ⟨sr, hasSolution⟩)

/-- The next solution; the transitions of the search are limited. -/
def ask (time : Search P B T → Nat) (st : SolutionStream P B T) :
    Except Fault (StreamAnswer × SolutionStream P B T) := do
  conclude st.hasSolution (← st.search.call (time st.search))

theorem next_eq_ask (st : SolutionStream P B T) : st.next = st.ask Search.stepBound := by
  simp only [next, ask, Search.solve_eq_call, bind, Except.bind]
  cases st.search.call st.search.stepBound with
  | error f => rfl
  | ok answer =>
    obtain ⟨verdict, sr⟩ := answer
    cases verdict <;> rfl

/-- The answer of a stream whose search its limit has stopped. -/
def isUnknown : StreamAnswer → Bool
  | .unknown => true
  | _ => false

/-- Asks the stream, and again after every stop. -/
def pursue (time : Search P B T → Nat) (calls : Nat) (st : SolutionStream P B T) :
    Except Fault (StreamAnswer × SolutionStream P B T) :=
  persist (ask time) isUnknown calls st

/-- A number of answers of the stream; every one is waited for. -/
def pursueAll (time : Search P B T → Nat) (calls : Nat) :
    (count : Nat) → SolutionStream P B T →
      Except Fault (List StreamAnswer × SolutionStream P B T) :=
  answers (pursue time calls)

/-- Asking a stream again after every stop is calling its search again after every stop. -/
theorem pursue_eq (time : Search P B T → Nat) (calls : Nat) (st : SolutionStream P B T) :
    st.pursue time calls = (st.search.pursue time calls).bind (conclude st.hasSolution) := by
  induction calls generalizing st with
  | zero => rfl
  | succ calls ih =>
    simp only [pursue, Search.pursue, persist, ask, bind, Except.bind]
    cases st.search.call (time st.search) with
    | error f => rfl
    | ok answer =>
      obtain ⟨verdict, sr⟩ := answer
      cases verdict with
      | found => rfl
      | exhausted =>
        show _ = conclude st.hasSolution (.exhausted, sr)
        simp only [conclude, bind, Except.bind]
        cases sr.restore with
        | error f => rfl
        | ok sr' => cases st.hasSolution <;> rfl
      | stopped => exact ih ⟨sr, st.hasSolution⟩

omit [Propagator P] [Termination T] in
/-- The conclusion can be drawn on the course. -/
theorem conclude_course (hasSolution : Bool) (answer : Verdict × Search P B T) :
    (conclude hasSolution answer).map (seen course)
      = conclude hasSolution (seen Search.course answer) := by
  obtain ⟨verdict, sr⟩ := answer
  cases verdict with
  | found => rfl
  | exhausted =>
    simp only [seen, conclude, ← Search.course_restore]
    cases sr.restore <;> rfl
  | stopped => rfl

omit [Propagator P] [Termination T] in
theorem bind_conclude (hasSolution : Bool) (first : Except Fault (Verdict × Search P B T)) :
    (first.bind (conclude hasSolution)).map (seen course)
      = (first.map (seen Search.course)).bind (conclude hasSolution) := by
  cases first with
  | error f => rfl
  | ok answer => exact conclude_course hasSolution answer

omit [Propagator P] [Termination T] in
theorem limit_conclude {hasSolution : Bool} {first : Verdict × Search P B T}
    {answer : StreamAnswer × SolutionStream P B T}
    (h : conclude hasSolution first = .ok answer) : answer.2.search.limit = first.2.limit := by
  obtain ⟨verdict, sr⟩ := first
  cases verdict with
  | found =>
    cases h
    rfl
  | stopped =>
    cases h
    rfl
  | exhausted =>
    simp only [conclude, bind, Except.bind] at h
    cases hrestore : sr.restore with
    | error f =>
      rw [hrestore] at h
      cases h
    | ok sr' =>
      rw [hrestore] at h
      cases h
      exact Search.limit_restore hrestore

/-- What the answers of a stream come to if nothing stops its search. -/
noncomputable def outcomes : (count : Nat) → SolutionStream P B Unit →
    Except Fault (List StreamAnswer × SolutionStream P B Unit) :=
  answers fun st => do conclude st.hasSolution (← st.search.outcome)

/-- Whatever stops the search of a stream, its answers come to what they come to without stops. -/
theorem pursueAll_eq (stops calls : Nat) (hcalls : stops < calls) (count : Nat)
    (origin : SolutionStream P B Unit) :
    ∃ enough, ∀ time : Search P B T → Nat, (∀ sr, enough ≤ time sr) →
      ∀ st : SolutionStream P B T, st.course = origin →
        Termination.StopsAtMost st.search.limit stops →
        (st.pursueAll time calls count).map (seen course) = origin.outcomes count := by
  refine answers_eq (fun v => ?_) count origin
  obtain ⟨enough, henough⟩ := v.search.exists_enough
  refine ⟨enough, fun time htime st hv hlimit => ?_⟩
  subst hv
  have hpursue := Search.pursue_eq henough htime hlimit hcalls
  rw [pursue_eq]
  constructor
  · rw [bind_conclude, hpursue]
    rfl
  · intro answer hanswer
    cases hfirst : st.search.pursue time calls with
    | error f =>
      rw [hfirst] at hanswer
      cases hanswer
    | ok first =>
      rw [hfirst] at hanswer
      rw [limit_conclude hanswer]
      exact (Termination.steady_stopsAtMost stops).pursue hfirst hlimit

end SolutionStream

namespace Search

variable {P B T T' : Type} [Propagator P] [Brancher B] [Termination T] [Termination T']

omit [Propagator P] [Termination T] in
theorem patience_le_stepBound (sr : Search P B T) : patience ≤ sr.stepBound :=
  Nat.le_add_left ..

/-- The calls of `solve` are given enough transitions for every answer that takes no more than
    `patience` of them. -/
theorem pursue_solve {sr : Search P B T} {sr' : Search P B T'} {stops calls : Nat}
    (hcourse : sr.course = sr'.course) (hstops : Termination.StopsAtMost sr.limit stops)
    (hnever : Termination.StopsAtMost sr'.limit 0) (hcalls : stops < calls)
    (hends : sr'.call patience ≠ .error .outOfFuel) :
    (sr.pursue stepBound calls).map (seen course) = sr'.solve.map (seen course) := by
  have hunlimited : ∀ fuel, (sr'.call fuel).map (seen course) = sr.course.unlimited fuel := by
    rw [hcourse]
    exact call_never hnever
  have hsuffices : sr.course.unlimited patience ≠ .error .outOfFuel := by
    rw [← hunlimited]
    cases hcall : sr'.call patience with
    | error f =>
      rw [hcall] at hends
      exact fun heq => hends (congrArg Except.error (Except.error.inj heq))
    | ok answer => exact nofun
  have hsame : ∀ fuel, patience ≤ fuel → sr.course.unlimited fuel = sr.course.unlimited patience :=
    fun fuel hle => unlimited_of_le hsuffices hle
  rw [pursue_eq hsame patience_le_stepBound hstops hcalls, solve_eq_call, hunlimited]
  exact (hsame _ (patience_le_stepBound sr')).symm

/-- Stopping and resuming is transparent: a search that is called again after every stop gives the
    same answers, with the same stores, as one that is never stopped and gives each answer in one
    call, and takes the same course; so does a stream of its solutions.  This is so for sequences
    of answers if the calls are given enough transitions, and for `solve` and `next` as they are
    if `patience` is enough. -/
theorem resume_transparent {sr : Search P B T} {sr' : Search P B T'} {stops calls : Nat}
    (hcourse : sr.course = sr'.course) (hstops : Termination.StopsAtMost sr.limit stops)
    (hnever : Termination.StopsAtMost sr'.limit 0) (hcalls : stops < calls) (count : Nat)
    (hasSolution : Bool) :
    (∃ enough, ∀ (time : Search P B T → Nat) (time' : Search P B T' → Nat),
      (∀ sr, enough ≤ time sr) → (∀ sr, enough ≤ time' sr) →
        (sr.pursueAll time calls count).map (seen course)
            = (sr'.pursueAll time' 1 count).map (seen course)
          ∧ ((SolutionStream.mk sr hasSolution).pursueAll time calls count).map
                (seen SolutionStream.course)
            = ((SolutionStream.mk sr' hasSolution).pursueAll time' 1 count).map
                (seen SolutionStream.course))
      ∧ (sr'.call patience ≠ .error .outOfFuel →
        (sr.pursue stepBound calls).map (seen course) = sr'.solve.map (seen course)
          ∧ ((SolutionStream.mk sr hasSolution).pursue stepBound calls).map
                (seen SolutionStream.course)
            = (SolutionStream.mk sr' hasSolution).next.map (seen SolutionStream.course)) := by
  refine ⟨?_, fun hends => ?_⟩
  · -- both searches are compared with the course without stops
    obtain ⟨first, hfirst⟩ := pursueAll_eq (T := T) stops calls hcalls count sr.course
    obtain ⟨second, hsecond⟩ := pursueAll_eq (T := T') 0 1 Nat.one_pos count sr.course
    obtain ⟨third, hthird⟩ := SolutionStream.pursueAll_eq (T := T) stops calls hcalls count
      (SolutionStream.mk sr hasSolution).course
    obtain ⟨fourth, hfourth⟩ := SolutionStream.pursueAll_eq (T := T') 0 1 Nat.one_pos count
      (SolutionStream.mk sr hasSolution).course
    refine ⟨first + second + third + fourth, fun time time' htime htime' => ⟨?_, ?_⟩⟩
    · rw [hfirst time (fun s => ?_) sr rfl hstops,
        hsecond time' (fun s => ?_) sr' hcourse.symm hnever]
      · have := htime' s
        omega
      · have := htime s
        omega
    · have hsame : (SolutionStream.mk sr' hasSolution).course
          = (SolutionStream.mk sr hasSolution).course :=
        congrArg (SolutionStream.mk · hasSolution) hcourse.symm
      rw [hthird time (fun s => ?_) _ rfl hstops, hfourth time' (fun s => ?_) _ hsame hnever]
      · have := htime' s
        omega
      · have := htime s
        omega
  · have hsolve := pursue_solve hcourse hstops hnever hcalls hends
    refine ⟨hsolve, ?_⟩
    rw [SolutionStream.pursue_eq, SolutionStream.bind_conclude, hsolve,
      ← SolutionStream.bind_conclude, SolutionStream.next_eq_ask]
    rfl

/-- The search of a solver for all variables in order that is stopped at its first two polls and at
    the fourth. -/
def interrupted (sv : Solver Filter) : Search Filter Strategy Limit :=
  { inOrder sv with limit := .polls [1, 2, 4] 0 }

/-- Three solutions for three variables that differ pairwise and a graph are found in spite of three
    stops. -/
theorem resume_transparent_trio :
    ∃ (sv : Solver Filter) (enough : Nat), (Solver.empty (.ofSeed 0)).state trio = .ok sv
      ∧ ((interrupted sv).call 40).toOption.map Prod.fst = some .stopped
      ∧ ((interrupted sv).pursueAll (fun _ => 40) 4 3).toOption.map (fun r => r.1.map Prod.fst)
        = some [.found, .found, .found]
      ∧ ∀ time time' : Search Filter Strategy Limit → Nat,
        (∀ sr, enough ≤ time sr) → (∀ sr, enough ≤ time' sr) →
          ((interrupted sv).pursueAll time 4 3).map (seen course)
            = ((inOrder sv).pursueAll time' 1 3).map (seen course) := by
  have hrun : (((Solver.empty (.ofSeed 0)).state trio).map fun sv =>
      (((interrupted sv).call 40).toOption.map Prod.fst,
        ((interrupted sv).pursueAll (fun _ => 40) 4 3).toOption.map fun r =>
          r.1.map Prod.fst)).toOption
      = some (some .stopped, some [.found, .found, .found]) := by
    decide +kernel
  cases hstate : (Solver.empty (.ofSeed 0)).state trio with
  | error f => rw [hstate] at hrun; cases hrun
  | ok sv =>
    rw [hstate] at hrun
    obtain ⟨hstopped, hanswers⟩ := Prod.mk.inj (Option.some.inj hrun)
    have hcourse : (interrupted sv).course = (inOrder sv).course := rfl
    obtain ⟨⟨enough, henough⟩, -⟩ := resume_transparent hcourse
      (Limit.stopsAtMost_polls [1, 2, 4] 0) Limit.stopsAtMost_indefinite
      (show 3 < 4 by decide) 3 false
    exact ⟨sv, enough, rfl, hstopped, hanswers, fun time time' htime htime' =>
      (henough time time' htime htime').1⟩

end Search

end FiniteDomain
