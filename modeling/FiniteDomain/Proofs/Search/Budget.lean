import Mathlib.Algebra.Notation.Pi.Defs
import FiniteDomain.Proofs.Search.Traversal
import FiniteDomain.Proofs.Search.Untouched

/-! # Budgets

    A limit that is made of budgets counts along with the search: it is told of
    every decision, contradiction and solution, and its counters are those of the
    solver since the limit came into use, over all calls that share it
    (`Limit.after`).

    The limit is polled in two stages only, while the counting happens in others.
    But a poll that does not stop the search leaves room in every budget, and no two
    counted steps follow each other without a poll in between: a decision is
    selected or taken up after a poll, the contradiction it may lead to is counted in
    another budget, and a solution is found after a poll as well
    (`Search.WithinBudgets`).  At the root, where propagation comes without a poll,
    nothing is counted, since it does not fail there. -/

namespace FiniteDomain

/-! ### Resources and budgets -/

/-- What a budget can be for. -/
inductive Resource where
  /-- Decisions that are applied. -/
  | decisions
  /-- Contradictions that are met. -/
  | conflicts
  /-- Solutions that are reported. -/
  | solutions
deriving DecidableEq, Repr

namespace Resource

/-- One use of the resource. -/
def once (r : Resource) : Resource → Nat := fun r' => if r' = r then 1 else 0

end Resource

namespace Measures

/-- How often each resource has been used. -/
def count (m : Measures) : Resource → Nat
  | .decisions => m.nodes
  | .conflicts => m.fails
  | .solutions => m.solutions

/-- How often each resource has been used since an earlier moment. -/
def since (m start : Measures) : Resource → Nat := fun r => m.count r - start.count r

end Measures

namespace Limit

/-- The limits that are made of fresh budgets. -/
inductive OfBudgets : Limit → Prop where
  /-- There is no budget. -/
  | indefinite : OfBudgets .indefinite
  /-- A budget for decisions. -/
  | nodes (budget : Nat) : OfBudgets (.ofNodes budget)
  /-- A budget for contradictions. -/
  | fails (budget : Nat) : OfBudgets (.ofFails budget)
  /-- A budget for solutions. -/
  | solutions (budget : Nat) : OfBudgets (.ofSolutions budget)
  /-- The budgets of two limits. -/
  | either {first second : Limit} (hfirst : OfBudgets first) (hsecond : OfBudgets second) :
      OfBudgets (.either first second)
  /-- No limit. -/
  | absent : OfBudgets (.optional none)
  /-- The budgets of a limit. -/
  | present {limit : Limit} (hlimit : OfBudgets limit) : OfBudgets (.optional (some limit))

/-- The budgets of a limit, each with its size. -/
def budgets : Limit → List (Resource × Nat)
  | .nodes budget _ => [(.decisions, budget)]
  | .fails budget _ => [(.conflicts, budget)]
  | .solutions budget _ => [(.solutions, budget)]
  | .either first second => first.budgets ++ second.budgets
  | .optional (some limit) => limit.budgets
  | _ => []

/-- The limit after more uses of the resources. -/
def after (used : Resource → Nat) : Limit → Limit
  | .nodes budget u => .nodes budget (u + used .decisions)
  | .fails budget u => .fails budget (u + used .conflicts)
  | .solutions budget u => .solutions budget (u + used .solutions)
  | .either first second => .either (first.after used) (second.after used)
  | .optional (some limit) => .optional (some (limit.after used))
  | limit => limit

/-- No budget is exceeded. -/
def Allows (limit : Limit) (used : Resource → Nat) : Prop := ∀ b ∈ limit.budgets, used b.1 ≤ b.2

/-- Every budget has something left. -/
def HasRoom (limit : Limit) (used : Resource → Nat) : Prop := ∀ b ∈ limit.budgets, used b.1 < b.2

/-- Some budget is used up exactly. -/
def UsedUp (limit : Limit) (used : Resource → Nat) : Prop := ∃ b ∈ limit.budgets, used b.1 = b.2

variable {limit : Limit} {used : Resource → Nat}

theorem after_zero (h : limit.OfBudgets) : limit.after (fun _ => 0) = limit := by
  induction h with
  | either hfirst hsecond ihfirst ihsecond => simp only [after, ihfirst, ihsecond]
  | present hlimit ih => simp only [after, ih]
  | _ => rfl

theorem after_onDecision (h : limit.OfBudgets) :
    (limit.after used).onDecision = limit.after (used + Resource.decisions.once) := by
  induction h with
  | either hfirst hsecond ihfirst ihsecond => simp only [after, onDecision, ihfirst, ihsecond]
  | present hlimit ih => simp only [after, onDecision, ih]
  | _ => rfl

theorem after_onConflict (h : limit.OfBudgets) :
    (limit.after used).onConflict = limit.after (used + Resource.conflicts.once) := by
  induction h with
  | either hfirst hsecond ihfirst ihsecond => simp only [after, onConflict, ihfirst, ihsecond]
  | present hlimit ih => simp only [after, onConflict, ih]
  | _ => rfl

theorem after_onSolution (h : limit.OfBudgets) :
    (limit.after used).onSolution = limit.after (used + Resource.solutions.once) := by
  induction h with
  | either hfirst hsecond ihfirst ihsecond => simp only [after, onSolution, ihfirst, ihsecond]
  | present hlimit ih => simp only [after, onSolution, ih]
  | _ => rfl

/-- A poll leaves the limit as it is, and stops the search where a budget has nothing left. -/
theorem shouldStop_after (h : limit.OfBudgets) :
    (limit.after used).shouldStop.2 = limit.after used
      ∧ ((limit.after used).shouldStop.1 = false ↔ limit.HasRoom used) := by
  induction h with
  | indefinite => exact ⟨rfl, by simp [after, shouldStop, HasRoom, budgets]⟩
  | absent => exact ⟨rfl, by simp [after, shouldStop, HasRoom, budgets]⟩
  | nodes budget => exact ⟨rfl, by simp [ofNodes, after, shouldStop, HasRoom, budgets]⟩
  | fails budget => exact ⟨rfl, by simp [ofFails, after, shouldStop, HasRoom, budgets]⟩
  | solutions budget => exact ⟨rfl, by simp [ofSolutions, after, shouldStop, HasRoom, budgets]⟩
  | @either first second hfirst hsecond ihfirst ihsecond =>
    obtain ⟨hsame, hroom⟩ := ihfirst
    obtain ⟨hsame', hroom'⟩ := ihsecond
    have hboth : (first.either second).HasRoom used ↔ first.HasRoom used ∧ second.HasRoom used := by
      simp only [HasRoom, budgets, List.forall_mem_append]
    rw [hboth, ← hroom, ← hroom']
    cases hstop : (first.after used).shouldStop.1 <;>
      simp [after, shouldStop, hstop, hsame, hsame']
  | @present limit hlimit ih =>
    obtain ⟨hsame, hroom⟩ := ih
    exact ⟨congrArg (fun l => Limit.optional (some l)) hsame, hroom⟩

theorem HasRoom.allows (h : limit.HasRoom used) : limit.Allows used := by
  intro b hb
  exact Nat.le_of_lt (h b hb)

/-- Where there is room, each resource can be used once. -/
theorem HasRoom.allows_once {more : Resource → Nat} (h : limit.HasRoom used)
    (hmore : ∀ r, more r ≤ 1) : limit.Allows (used + more) := by
  intro b hb
  have hlt := h b hb
  have hone := hmore b.1
  show used b.1 + more b.1 ≤ b.2
  omega

/-- Where there is no room although nothing is exceeded, some budget is used up. -/
theorem Allows.usedUp (h : limit.Allows used) (hfull : ¬limit.HasRoom used) :
    limit.UsedUp used := by
  simp only [HasRoom, not_forall, not_lt] at hfull
  obtain ⟨b, hb, hle⟩ := hfull
  exact ⟨b, hb, Nat.le_antisymm (h b hb) hle⟩

end Limit

/-! ### Transitions -/

/-- Something is counted before the limit is polled again. -/
def Solver.Counting {P : Type} (sv : Solver P) : Prop :=
  sv.stage = .decide ∨ sv.stage = .solution ∨ sv.stage = .propagate ∧ sv.decision? ≠ none

namespace Search

/-- A search that returns has nothing to count before the next poll. -/
theorem quiet_of_verdict {P B T : Type} [Propagator P] [Brancher B] [Termination T]
    {sr sr' : Search P B T} {verdict : Verdict} (h : Transition sr (some verdict) sr') :
    ¬sr'.solver.Counting := by
  cases h with
  | stopped hstop hstage =>
    show ¬sr.solver.Counting
    rcases hstage with hstage | hstage <;> simp [Solver.Counting, hstage]
  | found hstage => rintro (hnext | hnext | ⟨hnext, -⟩) <;> contradiction
  | exhausted hstage => simp [Solver.Counting, hstage]

theorem midway_run {B T : Type} [Brancher B] [Termination T] {start : Solver Filter}
    {sr sr' : Search Filter B T} {fuel : Nat} {verdict : Verdict} (h : start.Midway sr.solver)
    (hrun : sr.run fuel = .ok (verdict, sr')) : start.Midway sr'.solver ∧ ¬sr'.solver.Counting := by
  induction fuel generalizing sr with
  | zero => cases hrun
  | succ fuel ih =>
    simp only [Search.run, bind, Except.bind] at hrun
    split at hrun
    · cases hrun
    next answer hstep =>
      obtain ⟨verdict?, next⟩ := answer
      have hnext := h.step hstep
      cases verdict? with
      | some v =>
        cases hrun
        exact ⟨hnext, quiet_of_verdict (transition_of_step hstep)⟩
      | none => exact ih hnext hrun

variable {B : Type} {fresh : Limit} {used : Resource → Nat} {start : Solver Filter}
  {sr sr' : Search Filter B Limit}

/-- The limit has been told of all uses, none of its budgets is exceeded, and what is counted before
    the next poll is provided for. -/
structure WithinBudgets (fresh : Limit) (used : Resource → Nat) (sr : Search Filter B Limit) :
    Prop where
  limit : sr.limit = fresh.after used
  allows : fresh.Allows used
  room : sr.solver.Counting → fresh.HasRoom used

theorem WithinBudgets.poll (h : WithinBudgets fresh used sr) (hfresh : fresh.OfBudgets) :
    sr.poll.2.limit = fresh.after used ∧ (sr.poll.1 = false ↔ fresh.HasRoom used) := by
  have hpoll : (fresh.after used).shouldStop.2 = fresh.after used
      ∧ ((fresh.after used).shouldStop.1 = false ↔ fresh.HasRoom used) :=
    fresh.shouldStop_after hfresh
  rw [← h.limit] at hpoll
  rw [← h.limit]
  exact hpoll

/-- At the root propagation does not fail, so that nothing is counted. -/
theorem WithinBudgets.propagate_root [Brancher B] (h : WithinBudgets fresh used sr)
    (hmidway : start.Midway sr.solver) (hstage : sr.solver.stage = .propagate)
    (hdecision : sr.solver.decision? = none) (hpropagate : sr.propagate = .ok sr') :
    sr'.solver.measures = sr.solver.measures ∧ WithinBudgets fresh used sr' := by
  have htracks := hmidway.tracks
  simp only [Tracks, hstage] at htracks
  rcases htracks with ⟨-, -, hnocut, halike⟩ | ⟨level, outer, base, d, -, -, -, -, hpending, -⟩
  swap
  · rw [hpending] at hdecision
    cases hdecision
  have hannounce : sr.announce = sr := by simp only [announce, hdecision]
  simp only [Search.propagate, hannounce, bind, Except.bind] at hpropagate
  split at hpropagate
  · cases hpropagate
  next answer hsettle =>
    obtain ⟨contradiction?, space⟩ := answer
    rw [Solver.requests, hdecision, hnocut] at hsettle
    obtain ⟨rfl, -⟩ := settle_root hmidway.settled halike hsettle
    cases hpropagate
    refine ⟨rfl, h.limit, h.allows, ?_⟩
    rintro (hnext | hnext | ⟨hnext, -⟩) <;> contradiction

/-- A decision is counted before it is carried out, both in the measures and by the limit. -/
theorem WithinBudgets.announce (h : WithinBudgets fresh used sr) (hfresh : fresh.OfBudgets)
    {d : Decision} (hdecision : sr.solver.decision? = some d) :
    sr.announce.solver.measures.count = sr.solver.measures.count + Resource.decisions.once
      ∧ sr.announce.limit = fresh.after (used + Resource.decisions.once) := by
  constructor
  · simp only [Search.announce, hdecision]
    funext r
    cases r <;> rfl
  · rw [← Limit.after_onDecision hfresh, ← h.limit]
    simp only [Search.announce, hdecision]
    rfl

/-- A decision may be followed by a contradiction, which is counted in another budget. -/
theorem WithinBudgets.propagate [Brancher B] (h : WithinBudgets fresh used sr)
    (hfresh : fresh.OfBudgets) (hmidway : start.Midway sr.solver)
    (hstage : sr.solver.stage = .propagate) (hpropagate : sr.propagate = .ok sr') :
    ∃ more, sr'.solver.measures.count = sr.solver.measures.count + more
      ∧ WithinBudgets fresh (used + more) sr' := by
  cases hdecision : sr.solver.decision? with
  | none =>
    obtain ⟨hmeasures, hwithin⟩ := h.propagate_root hmidway hstage hdecision hpropagate
    exact ⟨fun _ => 0, congrArg Measures.count hmeasures, hwithin⟩
  | some d =>
    -- there is room for the one or the two things that are counted, each in its own budget
    have hroom : fresh.HasRoom used := by
      refine h.room (Or.inr (Or.inr ⟨hstage, ?_⟩))
      rw [hdecision]
      exact Option.some_ne_none d
    obtain ⟨hcount, hlimit⟩ := h.announce hfresh hdecision
    simp only [Search.propagate, bind, Except.bind] at hpropagate
    split at hpropagate
    · cases hpropagate
    · split at hpropagate
      · cases hpropagate
        refine ⟨_, hcount, hlimit, hroom.allows_once ?_, ?_⟩
        · intro r
          cases r <;> decide
        · rintro (hnext | hnext | ⟨hnext, -⟩) <;> contradiction
      · cases hpropagate
        refine ⟨Resource.decisions.once + Resource.conflicts.once, ?_, ?_, hroom.allows_once ?_, ?_⟩
        · rw [← add_assoc, ← hcount]
          funext r
          cases r <;> rfl
        · rw [← add_assoc, ← Limit.after_onConflict hfresh, ← hlimit]
          rfl
        · intro r
          cases r <;> decide
        · rintro (hnext | hnext | ⟨hnext, -⟩) <;> contradiction

/-- One transition keeps within the budgets; if the limit stops the search, some budget is used up. -/
theorem WithinBudgets.step [Brancher B] {verdict? : Option Verdict} (h : WithinBudgets fresh used sr)
    (hfresh : fresh.OfBudgets) (hmidway : start.Midway sr.solver)
    (hstep : sr.step = .ok (verdict?, sr')) :
    ∃ more, sr'.solver.measures.count = sr.solver.measures.count + more
      ∧ WithinBudgets fresh (used + more) sr'
      ∧ (verdict? = some .stopped → fresh.UsedUp (used + more)) := by
  cases transition_of_step hstep with
  | stopped hstop hstage =>
    obtain ⟨hlimit, hroom⟩ := h.poll hfresh
    have hquiet := quiet_of_verdict (.stopped hstop hstage)
    -- the poll stops only if some budget has no room left
    have hfull : ¬fresh.HasRoom used := by
      rw [← hroom, hstop]
      exact Bool.noConfusion
    exact ⟨fun _ => 0, rfl, ⟨hlimit, h.allows, fun hcounting => absurd hcounting hquiet⟩,
      fun _ => h.allows.usedUp hfull⟩
  | selected hstage hselect =>
    obtain ⟨hlimit, hroom⟩ := h.poll hfresh
    have hpoll := poll_of_step hstep (Or.inl hstage)
    refine ⟨fun _ => 0, congrArg Measures.count (counters_select hselect).1, ⟨?_, h.allows, ?_⟩,
      nofun⟩
    · rw [limit_select hselect]
      exact hlimit
    · exact fun _ => hroom.mp hpoll
  | decided hstage =>
    have hroom := h.room (Or.inl hstage)
    refine ⟨fun _ => 0, ?_, ⟨h.limit, h.allows, fun _ => hroom⟩, nofun⟩
    rw [(counters_decide sr).1]
    funext r
    cases r <;> rfl
  | propagated hstage hpropagate =>
    obtain ⟨more, hcount, hwithin⟩ := h.propagate hfresh hmidway hstage hpropagate
    exact ⟨more, hcount, hwithin, nofun⟩
  | wentBack hstage hbacktrack =>
    obtain ⟨hlimit, hroom⟩ := h.poll hfresh
    have hpoll := poll_of_step hstep (Or.inr hstage)
    unfold backtrack at hbacktrack
    have hmeasures := congrArg Measures.count (counters_retreat hbacktrack).1
    refine ⟨fun _ => 0, hmeasures, ⟨?_, h.allows, ?_⟩, nofun⟩
    · rw [limit_retreat hbacktrack]
      exact hlimit
    · exact fun _ => hroom.mp hpoll
  | found hstage =>
    have hroom := h.room (Or.inr (Or.inl hstage))
    refine ⟨Resource.solutions.once, ?_, ⟨?_, hroom.allows_once ?_, ?_⟩, nofun⟩
    · funext r
      cases r <;> rfl
    · -- the solution is counted in the budget in which the last poll has found room
      rw [← Limit.after_onSolution hfresh, ← h.limit]
      rfl
    · intro r
      cases r <;> decide
    · intro hcounting
      exact absurd hcounting (quiet_of_verdict (.found hstage))
  | exhausted hstage => exact ⟨fun _ => 0, rfl, h, nofun⟩

/-! ### Runs -/

theorem WithinBudgets.steps [Brancher B] {count : Nat} (h : WithinBudgets fresh used sr)
    (hfresh : fresh.OfBudgets) (hmidway : start.Midway sr.solver)
    (hsteps : sr.steps count = .ok sr') :
    ∃ more, sr'.solver.measures.count = sr.solver.measures.count + more
      ∧ fresh.Allows (used + more) := by
  induction count generalizing sr used with
  | zero =>
    cases hsteps
    exact ⟨fun _ => 0, rfl, h.allows⟩
  | succ count ih =>
    simp only [Search.steps, bind, Except.bind] at hsteps
    split at hsteps
    · cases hsteps
    next answer hstep =>
      obtain ⟨more, hcount, hnext, -⟩ := h.step hfresh hmidway hstep
      obtain ⟨rest, hcount', hallows⟩ := ih hnext (hmidway.step hstep) hsteps
      rw [hcount, add_assoc] at hcount'
      rw [add_assoc] at hallows
      exact ⟨more + rest, hcount', hallows⟩

theorem WithinBudgets.run [Brancher B] {fuel : Nat} {verdict : Verdict}
    (h : WithinBudgets fresh used sr) (hfresh : fresh.OfBudgets) (hmidway : start.Midway sr.solver)
    (hrun : sr.run fuel = .ok (verdict, sr')) :
    ∃ more, sr'.solver.measures.count = sr.solver.measures.count + more
      ∧ WithinBudgets fresh (used + more) sr'
      ∧ (verdict = .stopped → fresh.UsedUp (used + more)) := by
  induction fuel generalizing sr used with
  | zero => cases hrun
  | succ fuel ih =>
    simp only [Search.run, bind, Except.bind] at hrun
    split at hrun
    · cases hrun
    next answer hstep =>
      obtain ⟨verdict?, next⟩ := answer
      obtain ⟨more, hcount, hwithin, hstopped⟩ := h.step hfresh hmidway hstep
      cases verdict? with
      | some v =>
        cases hrun
        exact ⟨more, hcount, hwithin, fun hv => hstopped (congrArg some hv)⟩
      | none =>
        obtain ⟨rest, hcount', hwithin', hstopped'⟩ := ih hwithin (hmidway.step hstep) hrun
        rw [hcount, add_assoc] at hcount'
        rw [add_assoc] at hwithin' hstopped'
        exact ⟨more + rest, hcount', hwithin', hstopped'⟩

end Search

/-! ### Calls -/

/-- The solvers between two calls: what statements, searches with any brancher and limit, cuts and
    giving up lead to.  Statements are made when no search is in progress. -/
inductive Solver.Called : Solver Filter → Prop where
  /-- Nothing has been stated. -/
  | empty (random : Random) : Called (.empty random)
  /-- A statement was made. -/
  | stated {sv sv' : Solver Filter} {result : Except ModelError Unit} (before : Called sv)
      (idle : sv.root? = none) (st : Statement)
      (run : Modelling.runOn st.program sv = .ok (result, sv')) : Called sv'
  /-- The solver was called. -/
  | solved {B T : Type} [Brancher B] [Termination T] {sv : Solver Filter} {verdict : Verdict}
      {sr : Search Filter B T} (before : Called sv) (brancher : B) (limit : T)
      (called : (Search.mk sv brancher limit).solve = .ok (verdict, sr)) : Called sr.solver
  /-- A cut was set where the search goes back next. -/
  | cut {sv : Solver Filter} (before : Called sv) (searching : sv.isSearching = true)
      (stage : sv.stage = .backtrack) (p : Predicate) : Called (sv.setCut p)
  /-- The search was given up. -/
  | restored {B T : Type} [Brancher B] [Termination T] {sv : Solver Filter} {sr : Search Filter B T}
      (before : Called sv) (brancher : B) (limit : T)
      (given : (Search.mk sv brancher limit).restore = .ok sr) : Called sr.solver

namespace Solver.Called

variable {sv : Solver Filter}

theorem state {statements : List Statement} {sv' : Solver Filter} (h : sv.Called)
    (hresting : sv.Resting) (hrun : sv.state statements = .ok sv') : sv'.Called := by
  induction statements generalizing sv with
  | nil =>
    cases hrun
    exact h
  | cons st rest ih =>
    simp only [Solver.state, bind, Except.bind] at hrun
    split at hrun
    · cases hrun
    next r hr =>
      exact ih (h.stated hresting.root st hr) (st.upholds_program.keeps _ _ _ hresting hr) hrun

theorem enter_quiet (h : sv.Resting) : ¬sv.enter.Counting := by
  have henter : sv.enter.stage = .propagate ∧ sv.enter.decision? = none := by
    simp only [enter, h.root, h.decision, and_self]
  simp [Counting, henter]

/-- Between two calls no search is in progress, or it is at a stage where nothing is counted before
    the next poll. -/
theorem cases_midway (h : sv.Called) :
    sv.Resting ∨ ∃ start : Solver Filter, start.Midway sv ∧ ¬sv.Counting := by
  induction h with
  | empty random => exact Or.inl (resting_empty random)
  | stated before idle st run ih =>
    rcases ih with h | ⟨start, h, -⟩
    · exact Or.inl (st.upholds_program.keeps _ _ _ h run)
    · -- statements are made outside of searches only
      obtain ⟨root, hroot, -⟩ := h.root
      rw [idle] at hroot
      cases hroot
  | @solved B T _ _ sv verdict sr before brancher limit called ih =>
    simp only [Search.solve] at called
    split at called
    · cases called
      exact ih
    next hfeasible =>
      have hfeasible := Bool.eq_false_iff.mpr hfeasible
      rcases ih with h | ⟨start, h, -⟩
      · exact Or.inr ⟨sv, Search.midway_run (.enter h hfeasible) called⟩
      · have hentered : start.Midway sv.enter := by
          rw [h.enter_eq]
          exact h
        exact Or.inr ⟨start, Search.midway_run hentered called⟩
  | cut before searching stage p ih =>
    rcases ih with h | ⟨start, h, hquiet⟩
    · rw [isSearching, h.root] at searching
      cases searching
    · exact Or.inr ⟨start, h.cut stage p, hquiet⟩
  | @restored B T _ _ sv sr before brancher limit given ih =>
    rcases ih with h | ⟨start, h, -⟩
    · exact Or.inl ((Search.Visits.start brancher limit).resting_restore h given)
    · have hmidway : start.Midway (Search.mk sv brancher limit).solver := h
      obtain ⟨sr', hrestore, hrestored⟩ := hmidway.restored
      obtain rfl := Except.ok.inj (hrestore.symm.trans given)
      exact Or.inl (hrestored.resting h.resting)

/-- A call enters the search, or goes on with it, where nothing is counted before the next poll. -/
theorem enters (h : sv.Called) (hfeasible : sv.infeasible = false) :
    ∃ start : Solver Filter, start.Midway sv.enter ∧ ¬sv.enter.Counting := by
  rcases h.cases_midway with h | ⟨start, h, hquiet⟩
  · exact ⟨sv, .enter h hfeasible, enter_quiet h⟩
  · rw [h.enter_eq]
    exact ⟨start, h, hquiet⟩

/-- Where a solution was found a cut can be set. -/
theorem cut_found {B T : Type} [Brancher B] [Termination T] {sr sr' : Search Filter B T}
    (h : sr.solver.Called) (hsolve : sr.solve = .ok (.found, sr')) (p : Predicate) :
    (sr'.update (·.setCut p)).solver.Called := by
  have hcalled : sr'.solver.Called := h.solved sr.brancher sr.limit hsolve
  unfold Search.solve at hsolve
  split at hsolve
  · cases hsolve
  next hfeasible =>
    obtain ⟨start, hmidway, -⟩ := h.enters (Bool.eq_false_iff.mpr hfeasible)
    exact hcalled.cut (Search.midway_run hmidway hsolve).1.searching (Search.stage_of_found hsolve) p

end Solver.Called

namespace Search

variable {B : Type} {fresh : Limit} {used : Resource → Nat} {sr sr' : Search Filter B Limit}

/-- The limit has been told of all uses, and none of its budgets is exceeded. -/
structure Charged (fresh : Limit) (used : Resource → Nat) (sr : Search Filter B Limit) : Prop where
  limit : sr.limit = fresh.after used
  allows : fresh.Allows used

theorem Charged.enter (h : Charged fresh used sr) (hquiet : ¬sr.solver.enter.Counting) :
    WithinBudgets fresh used (sr.update Solver.enter) :=
  ⟨h.limit, h.allows, fun hcounting => absurd hcounting hquiet⟩

/-- Giving up costs nothing. -/
theorem Charged.restore [Brancher B] (h : Charged fresh used sr) (hrestore : sr.restore = .ok sr') :
    Charged fresh used sr' ∧ sr'.solver.measures = sr.solver.measures := by
  refine ⟨⟨(limit_restore hrestore).trans h.limit, h.allows⟩, ?_⟩
  simp only [Search.restore, bind, Except.bind] at hrestore
  split at hrestore
  · cases hrestore
    rfl
  · split at hrestore
    · cases hrestore
    · cases hrestore
      rfl

theorem Charged.solve [Brancher B] {verdict : Verdict} (h : Charged fresh used sr)
    (hfresh : fresh.OfBudgets) (hcalled : sr.solver.Called)
    (hsolve : sr.solve = .ok (verdict, sr')) :
    ∃ more, sr'.solver.measures.count = sr.solver.measures.count + more
      ∧ Charged fresh (used + more) sr' ∧ (verdict = .stopped → fresh.UsedUp (used + more)) := by
  unfold Search.solve at hsolve
  split at hsolve
  · cases hsolve
    exact ⟨fun _ => 0, rfl, h, nofun⟩
  next hfeasible =>
    obtain ⟨start, hmidway, hquiet⟩ := hcalled.enters (Bool.eq_false_iff.mpr hfeasible)
    obtain ⟨more, hcount, hwithin, hstopped⟩ := (h.enter hquiet).run hfresh hmidway hsolve
    have hsame : (sr.update Solver.enter).solver.measures = sr.solver.measures :=
      measures_enter sr.solver
    rw [hsame] at hcount
    exact ⟨more, hcount, ⟨hwithin.limit, hwithin.allows⟩, hstopped⟩

/-- The searches for better and better solutions share the budgets. -/
theorem Charged.improve [Brancher B] {α : Type} {objective : IntVar}
    {account : Solver Filter → Solution → Except Fault α} {fuel : Nat} {best? : Option Solution}
    {accounts accounts' : List α} {result : Optimisation} (h : Charged fresh used sr)
    (hfresh : fresh.OfBudgets) (hcalled : sr.solver.Called)
    (hrun : sr.improve objective account fuel best? accounts = .ok (result, accounts', sr')) :
    ∃ more, sr'.solver.measures.count = sr.solver.measures.count + more
      ∧ Charged fresh (used + more) sr'
      ∧ (result = .unknown ∨ (∃ sol, result = .satisfiable sol) → fresh.UsedUp (used + more)) := by
  induction fuel generalizing sr used best? accounts with
  | zero => cases hrun
  | succ fuel ih =>
    simp only [Search.improve, bind, Except.bind] at hrun
    split at hrun
    · cases hrun
    next answer hsolve =>
      obtain ⟨verdict, found⟩ := answer
      obtain ⟨more, hcount, hcharged, hstopped⟩ := h.solve hfresh hcalled hsolve
      cases verdict with
      | stopped =>
        cases hrun
        exact ⟨more, hcount, hcharged, fun _ => hstopped rfl⟩
      | exhausted =>
        cases hrun
        refine ⟨more, hcount, hcharged, ?_⟩
        cases best? <;> rintro (hother | ⟨sol, hother⟩) <;> cases hother
      | found =>
        simp only at hrun
        split at hrun
        · cases hrun
        split at hrun
        · cases hrun
        split at hrun
        · -- a new demand changes neither what was counted nor the limit
          have hcut : ∀ p, Charged fresh (used + more) (found.update (·.setCut p)) :=
            fun p => ⟨hcharged.limit, hcharged.allows⟩
          obtain ⟨rest, hcount', hcharged', hstopped'⟩ :=
            ih (hcut _) (hcalled.cut_found hsolve _) hrun
          rw [add_assoc] at hcharged' hstopped'
          refine ⟨more + rest, ?_, hcharged', hstopped'⟩
          rw [hcount', ← add_assoc, ← hcount]
          rfl
        · cases hrun
          exact ⟨more, hcount, hcharged, by rintro (hother | ⟨sol, hother⟩) <;> cases hother⟩

theorem Charged.satisfy [Brancher B] {result : Satisfaction} (h : Charged fresh used sr)
    (hfresh : fresh.OfBudgets) (hcalled : sr.solver.Called)
    (hrun : sr.satisfy = .ok (result, sr')) :
    ∃ more, sr'.solver.measures.count = sr.solver.measures.count + more
      ∧ Charged fresh (used + more) sr' ∧ (result = .unknown → fresh.UsedUp (used + more)) := by
  simp only [Search.satisfy, bind, Except.bind] at hrun
  split at hrun
  · cases hrun
  next answer hsolve =>
    obtain ⟨verdict, found⟩ := answer
    obtain ⟨more, hcount, hcharged, hstopped⟩ := h.solve hfresh hcalled hsolve
    split at hrun
    · cases hrun
    next last hrestore =>
      cases hrun
      obtain ⟨hlast, hsame⟩ := hcharged.restore hrestore
      refine ⟨more, by rw [hsame, hcount], hlast, ?_⟩
      cases verdict with
      | stopped => exact fun _ => hstopped rfl
      | found => nofun
      | exhausted => nofun

theorem Charged.optimise [Brancher B] {α : Type} {goal : Goal} {objective : IntVar}
    {account : Solver Filter → Solution → Except Fault α} {accounts : List α}
    {result : Optimisation} (h : Charged fresh used sr) (hfresh : fresh.OfBudgets)
    (hcalled : sr.solver.Called)
    (hrun : sr.optimise goal objective account = .ok (result, accounts, sr')) :
    ∃ more, sr'.solver.measures.count = sr.solver.measures.count + more
      ∧ Charged fresh (used + more) sr'
      ∧ (result = .unknown ∨ (∃ sol, result = .satisfiable sol) → fresh.UsedUp (used + more)) := by
  obtain ⟨cost, accounts', last, himprove, hrestore, -⟩ := optimise_cases hrun
  obtain ⟨more, hcount, hcharged, hstopped⟩ := h.improve hfresh hcalled himprove
  obtain ⟨hlast, hsame⟩ := hcharged.restore hrestore
  exact ⟨more, by rw [hsame, hcount], hlast, hstopped⟩

theorem Charged.next [Brancher B] {st' : SolutionStream Filter B Limit} {hasSolution : Bool}
    {answer : StreamAnswer} (h : Charged fresh used sr) (hfresh : fresh.OfBudgets)
    (hcalled : sr.solver.Called)
    (hnext : (SolutionStream.mk sr hasSolution).next = .ok (answer, st')) :
    ∃ more, st'.search.solver.measures.count = sr.solver.measures.count + more
      ∧ Charged fresh (used + more) st'.search
      ∧ (answer = .unknown → fresh.UsedUp (used + more)) := by
  simp only [SolutionStream.next, bind, Except.bind] at hnext
  split at hnext
  · cases hnext
  next r hsolve =>
    obtain ⟨verdict, found⟩ := r
    obtain ⟨more, hcount, hcharged, hstopped⟩ := h.solve hfresh hcalled hsolve
    cases verdict with
    | found =>
      cases hnext
      exact ⟨more, hcount, hcharged, nofun⟩
    | stopped =>
      cases hnext
      exact ⟨more, hcount, hcharged, fun _ => hstopped rfl⟩
    | exhausted =>
      simp only at hnext
      split at hnext
      · cases hnext
      next last hrestore =>
        cases hnext
        obtain ⟨hlast, hsame⟩ := hcharged.restore hrestore
        refine ⟨more, by rw [hsame, hcount], hlast, ?_⟩
        cases hasSolution <;> nofun

end Search

/-- What has been used since an earlier moment is what was added to the counters. -/
theorem Measures.of_more {m start : Measures} {holds : (Resource → Nat) → Prop}
    (h : ∃ more, m.count = start.count + more ∧ holds more) : holds (m.since start) := by
  obtain ⟨more, hcount, hmore⟩ := h
  have hsince : m.since start = more := by
    funext r
    have hr := congrFun hcount r
    show m.count r - start.count r = more r
    rw [hr]
    exact Nat.add_sub_cancel_left _ _
  rwa [hsince]

namespace Limit

/-- What a fresh limit has become when calls share it, and how often each resource was used in them.
    Each call is of any solver between two calls, with any brancher. -/
inductive Shared (fresh : Limit) : Limit → (Resource → Nat) → Prop where
  /-- There was no call. -/
  | fresh : Shared fresh fresh (fun _ => 0)
  /-- A search for the next solution. -/
  | solve {B : Type} [Brancher B] {limit : Limit} {used : Resource → Nat} {sv : Solver Filter}
      {verdict : Verdict} {sr : Search Filter B Limit} (before : Shared fresh limit used)
      (called : sv.Called) (brancher : B)
      (call : (Search.mk sv brancher limit).solve = .ok (verdict, sr)) :
      Shared fresh sr.limit (used + sr.solver.measures.since sv.measures)
  /-- A search for one solution that is given up then. -/
  | satisfy {B : Type} [Brancher B] {limit : Limit} {used : Resource → Nat} {sv : Solver Filter}
      {result : Satisfaction} {sr : Search Filter B Limit} (before : Shared fresh limit used)
      (called : sv.Called) (brancher : B)
      (call : (Search.mk sv brancher limit).satisfy = .ok (result, sr)) :
      Shared fresh sr.limit (used + sr.solver.measures.since sv.measures)
  /-- A search for a best solution. -/
  | optimise {B α : Type} [Brancher B] {limit : Limit} {used : Resource → Nat} {sv : Solver Filter}
      {goal : Goal} {objective : IntVar} {account : Solver Filter → Solution → Except Fault α}
      {accounts : List α} {result : Optimisation} {sr : Search Filter B Limit}
      (before : Shared fresh limit used) (called : sv.Called) (brancher : B)
      (call : (Search.mk sv brancher limit).optimise goal objective account
        = .ok (result, accounts, sr)) :
      Shared fresh sr.limit (used + sr.solver.measures.since sv.measures)
  /-- A question to a stream. -/
  | next {B : Type} [Brancher B] {limit : Limit} {used : Resource → Nat} {sv : Solver Filter}
      {hasSolution : Bool} {answer : StreamAnswer} {st : SolutionStream Filter B Limit}
      (before : Shared fresh limit used) (called : sv.Called) (brancher : B)
      (call : (SolutionStream.mk ⟨sv, brancher, limit⟩ hasSolution).next = .ok (answer, st)) :
      Shared fresh st.search.limit (used + st.search.solver.measures.since sv.measures)

variable {fresh limit : Limit} {used : Resource → Nat}

/-- Whatever solver the limit is used for next, it has been told of all uses. -/
theorem Shared.charged (h : fresh.Shared limit used) (hfresh : fresh.OfBudgets) :
    limit = fresh.after used ∧ fresh.Allows used := by
  -- on the calls that share the limit
  induction h with
  | fresh =>
    refine ⟨(after_zero hfresh).symm, ?_⟩
    intro b hb
    exact Nat.zero_le b.2
  | @solve B _ limit used sv verdict sr before called brancher call ih =>
    have hcall : Search.Charged fresh used (Search.mk sv brancher limit) := ⟨ih.1, ih.2⟩
    have hcharged := (Measures.of_more (hcall.solve hfresh called call)).1
    exact ⟨hcharged.limit, hcharged.allows⟩
  | @satisfy B _ limit used sv result sr before called brancher call ih =>
    have hcall : Search.Charged fresh used (Search.mk sv brancher limit) := ⟨ih.1, ih.2⟩
    have hcharged := (Measures.of_more (hcall.satisfy hfresh called call)).1
    exact ⟨hcharged.limit, hcharged.allows⟩
  | @optimise B α _ limit used sv goal objective account accounts result sr before called brancher
      call ih =>
    have hcall : Search.Charged fresh used (Search.mk sv brancher limit) := ⟨ih.1, ih.2⟩
    have hcharged := (Measures.of_more (hcall.optimise hfresh called call)).1
    exact ⟨hcharged.limit, hcharged.allows⟩
  | @next B _ limit used sv hasSolution answer st before called brancher call ih =>
    have hcall : Search.Charged fresh used (Search.mk sv brancher limit) := ⟨ih.1, ih.2⟩
    have hcharged := (Measures.of_more (hcall.next hfresh called call)).1
    exact ⟨hcharged.limit, hcharged.allows⟩

/-- Budgets are never overshot and never misreported.  Let a limit be made of budgets and be shared by
    any calls.  Then no more decisions were applied, contradictions met and solutions reported while
    it was in use than each of its budgets allows, and this stays so at every moment of a further
    call.  If a call is stopped, some budget is used up exactly. -/
theorem budgets_hold (hfresh : fresh.OfBudgets) (hshared : fresh.Shared limit used) :
    (∀ b ∈ fresh.budgets, used b.1 ≤ b.2)
    ∧ ∀ {B : Type} [Brancher B] {sv : Solver Filter} (brancher : B), sv.Called →
      (∀ count sr, sv.infeasible = false →
        ((Search.mk sv brancher limit).update Solver.enter).steps count = .ok sr →
          ∀ b ∈ fresh.budgets, (used + sr.solver.measures.since sv.measures) b.1 ≤ b.2)
      ∧ (∀ sr, (Search.mk sv brancher limit).solve = .ok (.stopped, sr) →
          ∃ b ∈ fresh.budgets, (used + sr.solver.measures.since sv.measures) b.1 = b.2)
      ∧ (∀ sr, (Search.mk sv brancher limit).satisfy = .ok (.unknown, sr) →
          ∃ b ∈ fresh.budgets, (used + sr.solver.measures.since sv.measures) b.1 = b.2)
      ∧ (∀ (α : Type) goal objective (account : Solver Filter → Solution → Except Fault α) accounts
          result sr,
        (Search.mk sv brancher limit).optimise goal objective account = .ok (result, accounts, sr) →
          result = .unknown ∨ (∃ sol, result = .satisfiable sol) →
            ∃ b ∈ fresh.budgets, (used + sr.solver.measures.since sv.measures) b.1 = b.2)
      ∧ ∀ hasSolution st,
        (SolutionStream.mk ⟨sv, brancher, limit⟩ hasSolution).next = .ok (.unknown, st) →
          ∃ b ∈ fresh.budgets, (used + st.search.solver.measures.since sv.measures) b.1 = b.2 := by
  obtain ⟨hlimit, hallows⟩ := hshared.charged hfresh
  refine ⟨hallows, ?_⟩
  intro B _ sv brancher hcalled
  have hcharged : Search.Charged fresh used (Search.mk sv brancher limit) := ⟨hlimit, hallows⟩
  refine ⟨?_, ?_, ?_, ?_, ?_⟩
  · intro count sr hfeasible hsteps
    obtain ⟨start, hmidway, hquiet⟩ := hcalled.enters hfeasible
    have hmoment := Measures.of_more ((hcharged.enter hquiet).steps hfresh hmidway hsteps)
    rwa [show ((Search.mk sv brancher limit).update Solver.enter).solver.measures = sv.measures from
      Search.measures_enter sv] at hmoment
  · intro sr hsolve
    exact (Measures.of_more (hcharged.solve hfresh hcalled hsolve)).2 rfl
  · intro sr hsatisfy
    exact (Measures.of_more (hcharged.satisfy hfresh hcalled hsatisfy)).2 rfl
  · intro α goal objective account accounts result sr hoptimise hresult
    exact (Measures.of_more (hcharged.optimise hfresh hcalled hoptimise)).2 hresult
  · intro hasSolution st hnext
    exact (Measures.of_more (hcharged.next hfresh hcalled hnext)).2 rfl

/-- Seven decisions and, if that is demanded, two solutions. -/
def sevenDecisions : Limit := .either (.ofNodes 7) (.optional (some (.ofSolutions 2)))

/-- Three variables that differ pairwise and a graph: a first call finds a solution after six decisions,
    a second one is stopped after the seventh. -/
theorem budgets_hold_trio :
    ∃ (sv : Solver Filter) (limit : Limit) (used : Resource → Nat)
      (sr : Search Filter Strategy Limit),
      sv.Called ∧ sevenDecisions.Shared limit used ∧ used .decisions = 6 ∧ used .solutions = 1
      ∧ (Search.mk sv (.covering sv.store .inputOrder .min .minimum .lexicographic) limit).solve
        = .ok (.stopped, sr)
      ∧ ∃ b ∈ sevenDecisions.budgets, (used + sr.solver.measures.since sv.measures) b.1 = b.2 := by
  have hrun : (((Solver.empty (.ofSeed 0)).state Search.trio).bind fun sv =>
      (Solver.inOrderWithin sv sevenDecisions).solve.bind fun found =>
      (Solver.inOrderWithin found.2.solver found.2.limit).solve.map fun stopped =>
        ((sv.measures, found.2.solver.measures), found.1, stopped.1)).toOption
      = some ((.zero, ⟨6, 2, 2, 1, 4, 0⟩), .found, .stopped) := by
    decide +kernel
  obtain ⟨sv, hstate, hrun⟩ := exists_of_toOption_bind hrun
  obtain ⟨⟨v, sr⟩, hfound, hrun⟩ := exists_of_toOption_bind hrun
  obtain ⟨⟨v', last⟩, hstopped, hrun⟩ := exists_of_toOption_map hrun
  simp only [Prod.mk.injEq] at hrun
  obtain ⟨⟨hzero, hmeasures⟩, rfl, rfl⟩ := hrun
  have hbuilt : sv.Called := (Solver.Called.empty (.ofSeed 0)).state (Solver.resting_empty _) hstate
  have hcalled : sr.solver.Called := hbuilt.solved _ _ hfound
  have hbudgets : sevenDecisions.OfBudgets := (OfBudgets.nodes 7).either (.present (.solutions 2))
  have hfresh : sevenDecisions.Shared sevenDecisions fun _ => 0 := .fresh
  have hshared := hfresh.solve hbuilt _ hfound
  obtain ⟨-, hfurther⟩ := budgets_hold hbudgets hshared
  obtain ⟨-, hsolve, -⟩ := hfurther
    (Strategy.covering sr.solver.store .inputOrder .min .minimum .lexicographic) hcalled
  refine ⟨sr.solver, sr.limit, _, last, hcalled, hshared, ?_, ?_, hstopped, hsolve last hstopped⟩
  · simp only [hzero, hmeasures]
    rfl
  · simp only [hzero, hmeasures]
    rfl

end Limit

end FiniteDomain
