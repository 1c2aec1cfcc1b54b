import FiniteDomain.Proofs.Search.Alike
import FiniteDomain.Proofs.Search.Deals
import FiniteDomain.Proofs.Search.Optimum
import FiniteDomain.Proofs.Search.Visits

/-! # Searching leaves the model as it was

    A search narrows the domains of the model, lets propagators become passive and
    wakes them.  All of it is taken back when the search is given up, whether it
    has stopped at a solution, at a contradiction, half-way down or at its end:
    the store is the one from before with its trail, nothing waits in queue or
    lists, no level, decision or demand is left, and statements are accepted
    again (`Solver.Untouched`).

    There are three ways to search a model, and each gives its search up in its own
    place: looking for one solution, optimising, and asking a stream, which may be
    closed at any time and goes back by itself when it has come to its end
    (`SolutionStream.Over`).

    So a model can be searched again, and that comes to the same: the same brancher
    gives the same answers, and any two branchers that decide everything hand out
    the same solutions. -/

namespace FiniteDomain

/-! ### Solvers that are as before -/

/-- The second solver is the first one after a search: domains, passive propagators, trail,
    propagators and subscriptions are the same, nothing is pending, and nothing is left of the
    search. -/
structure Solver.Untouched (sv sv' : Solver Filter) : Prop extends sv.Restored sv' where
  /-- No event waits in the store, and queue and lists of pending events are empty. -/
  settled : sv'.space.Settled
  /-- No statement is refused for a search in progress. -/
  editable : ∀ st : Statement, Modelling.runOn st.program sv' ≠ .error .searchInProgress

namespace Solver

variable {sv sv' : Solver Filter}

theorem Restored.untouched (h : sv.Restored sv') (hresting : sv.Resting)
    (hfeasible : sv.infeasible = false) : sv.Untouched sv' where
  toRestored := h
  settled := (hresting.settled hfeasible).alike h.space
  editable := fun st hrun => st.upholds_program.raises sv' (h.resting hresting) _ hrun rfl

/-- With the same draws to come, the next search finds what the last one found. -/
theorem Restored.alike (h : sv.Restored sv') (hresting : sv.Resting) :
    sv.Alike { sv' with random := sv.random } where
  space := h.space
  random := rfl
  infeasible := h.infeasible
  root := h.root.trans hresting.root.symm
  levels := h.levels.trans hresting.levels.symm
  decision := h.decision.trans hresting.decision.symm
  cut := h.cut.trans hresting.cut.symm
  stage := fun hsearching => by
    rw [isSearching, hresting.root] at hsearching
    cases hsearching

end Solver

/-! ### Looking for one solution, and for a best one -/

namespace Search

variable {B T α : Type} [Brancher B] [Termination T] {sv : Solver Filter}
  {sr sr' last : Search Filter B T}

theorem Visits.satisfy {result : Satisfaction} (h : sr.Visits sv) (hresting : sv.Resting)
    (hrun : sr.satisfy = .ok (result, last)) : sv.Restored last.solver := by
  simp only [Search.satisfy, bind, Except.bind] at hrun
  split at hrun
  · cases hrun
  next r hsolve =>
    obtain ⟨verdict, found⟩ := r
    obtain ⟨restored, hrestore, hrestored⟩ := (h.solve hsolve).restored hresting
    simp only [hrestore] at hrun
    cases hrun
    exact hrestored

/-- A search that has found a solution goes back next. -/
theorem stage_of_found {fuel : Nat} (hrun : sr.run fuel = .ok (.found, sr')) :
    sr'.solver.stage = .backtrack := by
  induction fuel generalizing sr with
  | zero => cases hrun
  | succ fuel ih =>
    simp only [Search.run, bind, Except.bind] at hrun
    split at hrun
    · cases hrun
    next r hstep =>
      obtain ⟨verdict?, next⟩ := r
      cases verdict? with
      | none => exact ih hrun
      | some verdict =>
        cases hrun
        cases transition_of_step hstep with
        | found hstage => rfl

/-- Where a solution was found a demand can be set. -/
theorem Visits.solve_found (h : sr.Visits sv) (hsolve : sr.solve = .ok (.found, sr'))
    (p : Predicate) : (sr'.update (·.setCut p)).Visits sv := by
  unfold Search.solve at hsolve
  split at hsolve
  · cases hsolve
  next hfeasible =>
    obtain ⟨hvisits, hsearching⟩ :=
      (h.enter (Bool.eq_false_iff.mpr hfeasible)).run (isSearching_enter _) hsolve
    exact hvisits.cut hsearching (stage_of_found hsolve) p

/-- The searches for better and better solutions are parts of one search. -/
theorem Visits.improve {objective : IntVar} {account : Solver Filter → Solution → Except Fault α}
    {fuel : Nat} {best? : Option Solution} {accounts accounts' : List α} {result : Optimisation}
    (h : sr.Visits sv)
    (hrun : sr.improve objective account fuel best? accounts = .ok (result, accounts', last)) :
    last.Visits sv := by
  induction fuel generalizing sr best? accounts with
  | zero => cases hrun
  | succ fuel ih =>
    simp only [Search.improve, bind, Except.bind] at hrun
    split at hrun
    · cases hrun
    next r hsolve =>
      obtain ⟨verdict, sr'⟩ := r
      have hvisits := h.solve hsolve
      cases verdict with
      | stopped =>
        cases hrun
        exact hvisits
      | exhausted =>
        cases hrun
        exact hvisits
      | found =>
        simp only at hrun
        split at hrun
        · cases hrun
        split at hrun
        · cases hrun
        split at hrun
        · exact ih (h.solve_found hsolve _) hrun
        · cases hrun
          exact hvisits

theorem Visits.optimise {goal : Goal} {objective : IntVar}
    {account : Solver Filter → Solution → Except Fault α} {accounts : List α}
    {result : Optimisation} (h : sr.Visits sv) (hresting : sv.Resting)
    (hrun : sr.optimise goal objective account = .ok (result, accounts, last)) :
    sv.Restored last.solver := by
  obtain ⟨cost, accounts', found, himprove, hrestore, -⟩ := optimise_cases hrun
  obtain ⟨restored, hrestore', hrestored⟩ := (h.improve himprove).restored hresting
  obtain rfl := Except.ok.inj (hrestore'.symm.trans hrestore)
  exact hrestored

end Search

/-! ### Streams -/

namespace SolutionStream

open Search

variable {B T : Type} [Brancher B] [Termination T] {sv : Solver Filter}
  {st last : SolutionStream Filter B T} {answer : StreamAnswer} {answers : List StreamAnswer}

/-- The search of the stream started from the solver as it was.  A stream that has come to its end
    and is asked again begins anew. -/
def Over (sv : Solver Filter) (st : SolutionStream Filter B T) : Prop :=
  ∃ base, sv.Restored base ∧ st.search.Visits base

/-- The answer ends the stream. -/
def Ends (answer : StreamAnswer) : Prop := answer = .finished ∨ answer = .unsatisfiable

theorem Over.close (h : st.Over sv) (hresting : sv.Resting) :
    ∃ sr, st.close = .ok sr ∧ sv.Restored sr.solver := by
  obtain ⟨base, hbase, hvisits⟩ := h
  obtain ⟨sr, hrestore, hrestored⟩ := hvisits.restored (hbase.resting hresting)
  exact ⟨sr, hrestore, hbase.trans hrestored⟩

/-- A question leaves the stream over the solver, and an answer that ends it leaves the solver as it
    was. -/
theorem Over.next (h : st.Over sv) (hresting : sv.Resting)
    (hnext : st.next = .ok (answer, last)) :
    last.Over sv ∧ (Ends answer → sv.Restored last.search.solver) := by
  obtain ⟨base, hbase, hvisits⟩ := h
  simp only [SolutionStream.next, bind, Except.bind] at hnext
  split at hnext
  · cases hnext
  next r hsolve =>
    obtain ⟨verdict, sr⟩ := r
    have hsr := hvisits.solve hsolve
    cases verdict with
    | found =>
      cases hnext
      exact ⟨⟨base, hbase, hsr⟩, by rintro (h | h) <;> cases h⟩
    | stopped =>
      cases hnext
      exact ⟨⟨base, hbase, hsr⟩, by rintro (h | h) <;> cases h⟩
    | exhausted =>
      obtain ⟨restored, hrestore, hrestored⟩ := hsr.restored (hbase.resting hresting)
      simp only [hrestore] at hnext
      cases hnext
      exact ⟨⟨_, hbase.trans hrestored, .start restored.brancher restored.limit⟩,
        fun _ => hbase.trans hrestored⟩

/-- However often it is asked, a stream stays over the solver. -/
theorem Over.take {count : Nat} (h : st.Over sv) (hresting : sv.Resting)
    (htake : st.take count = .ok (answers, last)) : last.Over sv := by
  induction count generalizing st answers with
  | zero =>
    cases htake
    exact h
  | succ count ih =>
    simp only [SolutionStream.take, bind, Except.bind] at htake
    split at htake
    · cases htake
    next r hnext =>
      obtain ⟨first, mid⟩ := r
      simp only at htake
      split at htake
      · cases htake
      next hrest =>
        cases htake
        exact ih (h.next hresting hnext).1 hrest

/-! ### Searching again -/

/-- A complete enumeration from a solver at rest lists the solutions of its space. -/
theorem Completes.lists {b : B} {limit : T} {sols : List Solution}
    (h : (ofSearch ⟨sv, b, limit⟩).Completes sols) (hresting : sv.Resting)
    (hfeasible : sv.infeasible = false) (hcalm : sv.space.Calm) (hb : Decides sv.store b) :
    Lists sols sv.space.Solves := by
  obtain ⟨count, answers, last, htake, hcomplete⟩ := h
  obtain ⟨fits, cov, hfits⟩ := hb
  have hunderway := @underway_of_root .clashes _ _ fits Store.Fixed ⟨sv, b, limit⟩ hresting.root
    hresting.levels hresting.decision hresting.cut hfeasible hfits
  exact (take_spec cov.serving hcalm.atRest (Space.conclusive_clashes _) hunderway hresting.cut
    htake hcomplete).congr due_root

end SolutionStream

/-! ### What is left of a search -/

namespace Solver

variable {B T : Type} [Brancher B] [Termination T] {sv : Solver Filter}

/-- The stream of ascending pairs that is stopped three times. -/
def hesitant (sv : Solver Filter) : SolutionStream Filter Strategy Limit :=
  .ofSearch ⟨sv, .standard sv.store, .polls [1, 2, 5] 0⟩

end Solver

end FiniteDomain
