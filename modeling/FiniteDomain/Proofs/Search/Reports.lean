import FiniteDomain.Proofs.Search.Untouched

/-! # Solutions that are reported afterwards

    A solver may be given further statements and be searched, again and again
    (`Solver.Later`).  `Solver.Reports` is about the solutions that come out of
    this: those that a call of the solver finds, be it made to look for one
    solution, by an optimisation or by a stream (`reports_satisfy`,
    `reports_optimise`, `reports_take`).

    What is reported is within the domains of the solver (`Reports.evolves`). -/

namespace FiniteDomain

namespace Solver

/-- The second solver comes from the first by statements and by searches that were given up. -/
inductive Later (origin : Solver Filter) : Solver Filter → Prop where
  /-- Nothing has happened. -/
  | refl : Later origin origin
  /-- A statement was made. -/
  | stated {sv sv' : Solver Filter} {result : Except ModelError Unit} (before : Later origin sv)
      (st : Statement) (run : Modelling.runOn st.program sv = .ok (result, sv')) : Later origin sv'
  /-- A search was made and given up, at its end or earlier. -/
  | searched {B T : Type} [Brancher B] [Termination T] {sv : Solver Filter}
      {sr sr' : Search Filter B T} (before : Later origin sv) (visits : sr.Visits sv)
      (restored : sr.restore = .ok sr') : Later origin sr'.solver

/-- At some later time a call of the solver finds the solution. -/
def Reports (sv : Solver Filter) (sol : Solution) : Prop :=
  ∃ (later : Solver Filter) (B T : Type) (_ : Brancher B) (_ : Termination T)
    (sr sr' : Search Filter B T), sv.Later later ∧ sr.Visits later
      ∧ sr.solve = .ok (.found, sr') ∧ sr'.solver.solution = sol

variable {origin sv sv' : Solver Filter}

/-- A search that is given up changes neither domains nor filters. -/
theorem Onward.restored (h : origin.Onward sv) (hrestored : sv.Restored sv') :
    origin.Onward sv' := by
  have hstore : sv'.store = sv.store := hrestored.space.store
  refine h.then (hrestored.resting h.resting) ?_ (fun i f hf => ?_) hrestored.infeasible.trans
  · rw [hstore]
    exact .refl _
  · rw [Space.filterAt?, hrestored.space.posted]
    exact hf

/-- Whatever is stated and searched, what was there before stays. -/
theorem Later.onward (h : origin.Later sv) (hresting : origin.Resting) : origin.Onward sv := by
  induction h with
  | refl => exact hresting.onward
  | stated before st run ih => exact (st.upholds_onward origin).keeps _ _ _ ih run
  | searched before visits restored ih =>
    obtain ⟨last, hlast, hrestored⟩ := visits.restored ih.resting
    obtain rfl := Except.ok.inj (hlast.symm.trans restored)
    exact ih.restored hrestored

theorem Later.trans {later : Solver Filter} (h : origin.Later sv) (h' : sv.Later later) :
    origin.Later later := by
  induction h' with
  | refl => exact h
  | stated before st run ih => exact ih.stated st run
  | searched before visits restored ih => exact ih.searched visits restored

/-- What is reported from later on is reported. -/
theorem Reports.of_later {sol : Solution} (h : sv.Reports sol) (hlater : origin.Later sv) :
    origin.Reports sol := by
  obtain ⟨later, B, T, _, _, sr, last, hlater', hsearch⟩ := h
  exact ⟨later, B, T, _, _, sr, last, hlater.trans hlater', hsearch⟩

/-- Models are built from nothing. -/
theorem Prepared.later (h : sv.Prepared) : ∃ random, (Solver.empty random).Later sv := by
  induction h with
  | empty random => exact ⟨random, .refl⟩
  | stated before st run ih =>
    obtain ⟨random, hlater⟩ := ih
    exact ⟨random, hlater.stated st run⟩
  | searched before visits restored ih =>
    obtain ⟨random, hlater⟩ := ih
    exact ⟨random, hlater.searched visits restored⟩

/-- A list of statements. -/
theorem Later.state {statements : List Statement} (h : origin.Later sv)
    (hrun : sv.state statements = .ok sv') : origin.Later sv' := by
  induction statements generalizing sv with
  | nil =>
    cases hrun
    exact h
  | cons st rest ih =>
    simp only [Solver.state, bind, Except.bind] at hrun
    split at hrun
    · cases hrun
    next r hr => exact ih (h.stated st hr) hrun

/-! ### Who reports -/

section

open Search SolutionStream

variable {B T α : Type} [Brancher B] [Termination T] {b : B} {limit : T} {sol : Solution}
  {sr last : Search Filter B T}

theorem reports_of_found (h : sv.Later sv') (hvisits : sr.Visits sv')
    (hsolve : sr.solve = .ok (.found, last)) : sv.Reports last.solver.solution :=
  ⟨sv', B, T, _, _, sr, last, h, hvisits, hsolve, rfl⟩

/-- The solution that was looked for. -/
theorem reports_satisfy (h : sv.Later sv')
    (hrun : (Search.mk sv' b limit).satisfy = .ok (.satisfiable sol, last)) : sv.Reports sol := by
  simp only [Search.satisfy, bind, Except.bind] at hrun
  split at hrun
  · cases hrun
  next r hsolve =>
    obtain ⟨verdict, found⟩ := r
    split at hrun
    · cases hrun
    cases verdict with
    | found =>
      cases hrun
      exact reports_of_found h (.start b limit) hsolve
    | exhausted => cases hrun
    | stopped => cases hrun

/-- The solution that an optimisation has ended with. -/
def best? : Optimisation → Option Solution
  | .optimal sol | .satisfiable sol => some sol
  | .unsatisfiable | .unknown => none

/-- An account is given of a reported solution. -/
def Accounted (sv : Solver Filter) (account : Solver Filter → Solution → Except Fault α) (x : α) :
    Prop :=
  ∃ found sol, account found sol = .ok x ∧ sv.Reports sol

/-- The solutions of an optimisation are found one after the other. -/
theorem reports_improve {objective : IntVar}
    {account : Solver Filter → Solution → Except Fault α} {fuel : Nat}
    {previous? : Option Solution} {accounts accounts' : List α} {result : Optimisation}
    (h : sv.Later sv') (hvisits : sr.Visits sv') (hprevious : ∀ sol ∈ previous?, sv.Reports sol)
    (haccounts : ∀ x ∈ accounts, sv.Accounted account x)
    (hrun : sr.improve objective account fuel previous? accounts = .ok (result, accounts', last)) :
    (∀ sol ∈ best? result, sv.Reports sol) ∧ ∀ x ∈ accounts', sv.Accounted account x := by
  -- on the rounds: the incumbent is a report, and accounts are given of reports only
  induction fuel generalizing sr previous? accounts with
  | zero => cases hrun
  | succ fuel ih =>
    simp only [Search.improve, bind, Except.bind] at hrun
    split at hrun
    · cases hrun
    next r hsolve =>
      obtain ⟨verdict, mid⟩ := r
      cases verdict with
      | stopped =>
        cases hrun
        refine ⟨fun sol hsol => hprevious sol ?_, haccounts⟩
        cases previous? <;> exact hsol
      | exhausted =>
        cases hrun
        refine ⟨fun sol hsol => hprevious sol ?_, haccounts⟩
        cases previous? <;> exact hsol
      | found =>
        have hreported : sv.Reports mid.solver.solution := reports_of_found h hvisits hsolve
        have hsol : ∀ sol ∈ some mid.solver.solution, sv.Reports sol := by
          intro sol hmem
          rwa [← Option.some.inj hmem]
        simp only at hrun
        split at hrun
        · cases hrun
        next x hx =>
          have hall : ∀ y ∈ x :: accounts, sv.Accounted account y := by
            intro y hy
            rcases List.mem_cons.mp hy with rfl | hy
            · exact ⟨_, _, hx, hreported⟩
            · exact haccounts y hy
          split at hrun
          · cases hrun
          split at hrun
          · exact ih (hvisits.solve_found hsolve _) hsol hall hrun
          · cases hrun
            exact ⟨hsol, hall⟩

/-- The solution that an optimisation ends with, and those of which it gave an account. -/
theorem reports_optimise {goal : Goal} {objective : IntVar}
    {account : Solver Filter → Solution → Except Fault α} {accounts : List α}
    {result : Optimisation} (h : sv.Later sv')
    (hrun : (Search.mk sv' b limit).optimise goal objective account = .ok (result, accounts, last)) :
    (∀ sol ∈ best? result, sv.Reports sol) ∧ ∀ x ∈ accounts, sv.Accounted account x := by
  obtain ⟨cost, accounts', found, himprove, -, rfl⟩ := optimise_cases hrun
  obtain ⟨hbest, hall⟩ := reports_improve h (.start b limit) (fun _ hsol => by cases hsol)
    (fun _ hx => absurd hx List.not_mem_nil) himprove
  exact ⟨hbest, fun x hx => hall x (List.mem_reverse.mp hx)⟩

/-- A stream that is asked hands out a reported solution, if any, and goes on with a solver that has
    come from the same one. -/
theorem reports_next {st st' : SolutionStream Filter B T} {answer : StreamAnswer}
    (h : sv.Later sv') (hvisits : st.search.Visits sv') (hnext : st.next = .ok (answer, st')) :
    (∀ sol, answer = .solution sol → sv.Reports sol)
      ∧ ∃ next, sv.Later next ∧ st'.search.Visits next := by
  simp only [next, bind, Except.bind] at hnext
  split at hnext
  · cases hnext
  next found hsolve =>
    obtain ⟨verdict, sr⟩ := found
    have hsr := hvisits.solve hsolve
    cases verdict with
    | found =>
      cases hnext
      refine ⟨fun sol heq => ?_, sv', h, hsr⟩
      cases heq
      exact reports_of_found h hvisits hsolve
    | stopped =>
      cases hnext
      exact ⟨nofun, sv', h, hsr⟩
    | exhausted =>
      -- a stream that is asked again begins anew
      simp only at hnext
      split at hnext
      · cases hnext
      next restored hrestore =>
        cases hnext
        refine ⟨fun sol heq => ?_, restored.solver, h.searched hsr hrestore,
          .start restored.brancher restored.limit⟩
        split at heq <;> cases heq

/-- The solutions that a stream hands out, however often it is asked. -/
theorem reports_take {st st' : SolutionStream Filter B T} {count : Nat}
    {answers : List StreamAnswer} (h : sv.Later sv') (hvisits : st.search.Visits sv')
    (htake : st.take count = .ok (answers, st')) (hsol : .solution sol ∈ answers) :
    sv.Reports sol := by
  induction count generalizing st sv' answers with
  | zero =>
    cases htake
    exact absurd hsol List.not_mem_nil
  | succ count ih =>
    simp only [take, bind, Except.bind] at htake
    split at htake
    · cases htake
    next r hnext =>
      obtain ⟨answer, mid⟩ := r
      obtain ⟨hreports, later, hlater, hvisits'⟩ := reports_next h hvisits hnext
      simp only at htake
      split at htake
      · cases htake
      next rest hrest =>
        cases htake
        rcases List.mem_cons.mp hsol with heq | hrest'
        · exact hreports sol heq.symm
        · exact ih hlater hvisits' hrest hrest'

/-- The solutions that a stream has handed out when there is no further one. -/
theorem reports_drain {st st' : SolutionStream Filter B T} {fuel : Nat}
    {latestFirst sols : List Solution} {answer : StreamAnswer} (h : sv.Later sv')
    (hvisits : st.search.Visits sv') (hlatest : ∀ sol ∈ latestFirst, sv.Reports sol)
    (hdrain : st.drain fuel latestFirst = .ok (sols, answer, st')) (hsol : sol ∈ sols) :
    sv.Reports sol := by
  induction fuel generalizing st sv' latestFirst with
  | zero => cases hdrain
  | succ fuel ih =>
    simp only [drain, bind, Except.bind] at hdrain
    split at hdrain
    · cases hdrain
    next r hnext =>
      obtain ⟨first, mid⟩ := r
      obtain ⟨hreports, later, hlater, hvisits'⟩ := reports_next h hvisits hnext
      cases first with
      | solution found =>
        refine ih hlater hvisits' (fun other hother => ?_) hdrain
        rcases List.mem_cons.mp hother with rfl | hother
        · exact hreports _ rfl
        · exact hlatest other hother
      | _ =>
        cases hdrain
        exact hlatest sol (List.mem_reverse.mp hsol)

/-- All solutions of a stream. -/
theorem reports_toList {st' : SolutionStream Filter B T} {sols : List Solution}
    {answer : StreamAnswer} (h : sv.Later sv')
    (hlist : (ofSearch ⟨sv', b, limit⟩).toList = .ok (sols, answer, st')) (hsol : sol ∈ sols) :
    sv.Reports sol :=
  reports_drain h (.start b limit) (fun _ hnone => absurd hnone List.not_mem_nil) hlist hsol

end

/-! ### What is reported -/

open Search

section

variable {B T : Type} [Brancher B] [Termination T] {sr last : Search Filter B T}

/-- Before a run stops for a solution it has come to the stage where solutions are reported. -/
theorem exists_report {fuel : Nat} (hvisits : sr.Visits sv)
    (hsearching : sr.solver.isSearching = true) (hrun : sr.run fuel = .ok (.found, last)) :
    ∃ mid : Search Filter B T, mid.Visits sv ∧ mid.solver.isSearching = true
      ∧ mid.solver.stage = .solution ∧ last = mid.report := by
  induction fuel generalizing sr with
  | zero => cases hrun
  | succ fuel ih =>
    simp only [Search.run, bind, Except.bind] at hrun
    split at hrun
    · cases hrun
    next r hstep =>
      obtain ⟨verdict?, next⟩ := r
      cases verdict? with
      | some verdict =>
        cases hrun
        cases transition_of_step hstep with
        | found hstage => exact ⟨sr, hvisits, hsearching, hstage, rfl⟩
      | none =>
        have hnext : next.solver.isSearching = true := by
          rwa [Solver.isSearching, (transition_of_step hstep).sameTask.root]
        exact ih (hvisits.step hsearching hstep) hnext hrun

/-- A solution is reported where the current alternatives have been carried out and propagated. -/
theorem exists_opened (hvisits : sr.Visits sv) (hresting : sv.Resting)
    (hsolve : sr.solve = .ok (.found, last)) :
    sv.infeasible = false
      ∧ ∃ levels sp, Opened (fun _ => True) sv.space levels sp ∧ sp.Alike last.solver.space := by
  unfold Search.solve at hsolve
  split at hsolve
  · cases hsolve
  next hfeasible =>
    obtain ⟨mid, hmid, hsearching, hstage, rfl⟩ := exists_report
      (hvisits.enter (Bool.eq_false_iff.mpr hfeasible)) (isSearching_enter _) hsolve
    rcases hmid.anchored (fun _ => True) hresting trivial (Or.inr fun _ => trivial) with
      hstart | ⟨-, -, hsource, htracks⟩
    · rw [hstart, Solver.isSearching, hresting.root] at hsearching
      cases hsearching
    · simp only [Tracks, hstage] at htracks
      obtain ⟨sp, hopened, halike⟩ := htracks
      exact ⟨hsource, _, sp, hopened, halike⟩

end

/-- A reported solution is within the domains that the solver had. -/
theorem Reports.evolves {sol : Solution} (h : sv.Reports sol) (hresting : sv.Resting) :
    sv.store.Evolves sol.store ∧ sol.store.Wf := by
  obtain ⟨later, B, T, _, _, sr, last, hlater, hvisits, hsolve, rfl⟩ := h
  have honward := hlater.onward hresting
  obtain ⟨hfeasible, levels, sp, hopened, halike⟩ := exists_opened hvisits honward.resting hsolve
  have hwf := honward.resting.wf
  have hleads : later.space.Leads last.solver.space :=
    (hopened.leads (honward.resting.settled hfeasible) hwf).trans halike.leads
  exact ⟨honward.store.trans (hleads.narrower hwf).evolves, hleads.wf hwf⟩

end Solver

end FiniteDomain
