import FiniteDomain.Proofs.Search.Reports

/-! # Values that are taken away

    That a variable differs from a number is no filter: the value is taken out of
    the domain when the constraint is posted, and nothing is left to do afterwards.
    Where a domain can do without the value (`IntVar.Removable`), no solution has it
    from then on.  A value in the middle of a bounded domain stays, and since
    nothing was posted, it is not taken away later either (`differs_excludes`). -/

namespace FiniteDomain

/-- The value of a variable in the solution that is handed out. -/
def StreamAnswer.value? (x : IntVar) : StreamAnswer → Option Int
  | .solution sol => (sol.value x).toOption
  | .finished | .unknown | .unsatisfiable => none

namespace Solver

open Modelling Search

variable {sv sv' : Solver Filter} {x : IntVar} {k : Int} {sol : Solution}

/-- A narrowing that was successful: it was carried out, and propagation came to rest. -/
theorem settle_of_narrow {request : Narrowing} (hresting : sv.Resting)
    (hrun : (narrow request : Modelling Filter Unit).run.run sv = .ok (.ok (), sv')) :
    sv.infeasible = false
      ∧ ∃ space, sv.space.settle [request] = .ok (none, space) ∧ sv' = { sv with space } := by
  rcases narrow_cases hresting.root hrun with ⟨-, hrefused, -⟩ | ⟨hfeasible, c?, space, hsettle, hend⟩
  · cases hrefused
  rcases hend with ⟨rfl, -, rfl⟩ | ⟨c, -, hrefused, -⟩
  · exact ⟨hfeasible, space, hsettle, rfl⟩
  · cases hrefused

/-- What is left after a value was taken away does without it. -/
theorem ne_of_settle (hwf : sv.store.Wf) (hknown : sv.store.knows (.int x.base) = true)
    (hranges : x.Ranges Width.value sv.store) (hremovable : x.Removable sv.store k)
    {space : Space Filter} (hsettle : sv.space.settle [.impose (x.differs k)] = .ok (none, space))
    {v : Int} (hv : x.Takes space.store v) : v ≠ k := by
  have htests := tests_differs hwf hranges.source hremovable
  have hleft := (Space.holds_of_settle hwf (htests.known hknown) htests.keeps hsettle).1
  have hleads := Space.leads_settle hwf hsettle
  obtain ⟨a, ha, rfl⟩ := exists_exactValue (hleads.wf hwf) hv
  exact (htests.holds a (hleads.store.admits hwf ha)).mp (hleft a ha)

/-- Where a value cannot be taken away, nothing happens. -/
theorem alike_of_settle (hsettled : sv.space.Settled)
    (hknown : sv.store.knows (.int x.base) = true) (hremovable : ¬ x.Removable sv.store k)
    {space : Space Filter} (hsettle : sv.space.settle [.impose (x.differs k)] = .ok (none, space)) :
    sv.space.Alike space := by
  have hrequest : (Decision.impose (x.differs k)).Known sv.store :=
    known_impose fun y hy => (x.subject?_values k).2 y hy ▸ hknown
  have hidle : (Decision.impose (x.differs k)).apply sv.space.store
      = ⟨some false, sv.space.store⟩ := by
    show sv.store.impose (x.differs k) = ⟨some false, sv.store⟩
    rw [Store.impose_differs, IntVar.removeValue_of_not_removable hremovable]
  obtain ⟨-, hpropagate⟩ := Space.settle_of_cons hrequest hsettle
  rw [hidle] at hpropagate
  have hsame : sv.space.propagate = .ok (none, space) := hpropagate
  rw [Space.propagate_settled hsettled] at hsame
  cases hsame
  exact ⟨rfl, rfl, rfl, rfl⟩

/-- The value of a variable in a reported solution is one that the variable could take. -/
theorem Reports.takes (h : sv.Reports sol) (hresting : sv.Resting)
    (hknown : sv.store.knows (.int x.base) = true) (hranges : x.Ranges Width.value sv.store) {v : Int}
    (hvalue : sol.value x = .ok v) : x.Takes sv.store v := by
  obtain ⟨hevolves, hwf⟩ := h.evolves hresting
  have hcontains : ∀ w, (sol.store.int x.base).contains w = true →
      (sv.store.int x.base).contains w = true := fun w hw => hevolves.contains hwf hknown hw
  have hlower : x.Takes sol.store (x.lowerBound sol.store) :=
    IntVar.takes_lowerBound hwf fun w hw => hranges w (hcontains w hw)
  simp only [Solution.value, bind, Except.bind] at hvalue
  split at hvalue
  · cases hvalue
  split at hvalue
  · cases hvalue
    obtain ⟨w, hw, heq⟩ := hlower
    exact ⟨w, hcontains w hw, heq⟩
  · cases hvalue

/-- Posting that a variable differs from a number has answered that it succeeded.  If the domain can
    do without the value, no solution that is reported afterwards assigns it to the variable,
    whatever is stated and searched in between.  Otherwise the posting has changed nothing, and
    the variable can still take the value. -/
theorem differs_excludes (hprepared : sv.Prepared)
    (hknown : sv.store.knows (.int x.base) = true) (hranges : x.Ranges Width.value sv.store)
    (hpost : runOn (Statement.post (.differs x k)).program sv = .ok (.ok (), sv')) :
    (x.Removable sv.store k → ∀ sol, sv'.Reports sol → ∀ v, sol.value x = .ok v → v ≠ k)
      ∧ (¬ x.Removable sv.store k → sv.space.Alike sv'.space ∧ x.Takes sv'.store k) := by
  have hresting := hprepared.resting
  obtain ⟨hfeasible, space, hsettle, rfl⟩ := settle_of_narrow hresting hpost
  constructor
  · intro hremovable sol hsol v hvalue
    have honward := onward_narrow hresting.onward hpost
    have hknown' : space.store.knows (.int x.base) = true := honward.store.knows _ hknown
    have hranges' : x.Ranges Width.value space.store :=
      hranges.narrower ((Space.leads_settle hresting.wf hsettle).narrower hresting.wf)
    exact ne_of_settle hresting.wf hknown hranges hremovable hsettle
      (hsol.takes honward.resting hknown' hranges' hvalue)
  · intro hremovable
    have halike := alike_of_settle (hresting.settled hfeasible) hknown hremovable hsettle
    refine ⟨halike, ?_⟩
    obtain ⟨-, hmiddle⟩ := not_or.mp hremovable
    push Not at hmiddle
    obtain ⟨v, hv, heq, -, -⟩ := hmiddle
    have hstore : space.store = sv.store := halike.store
    refine ⟨v, ?_, heq⟩
    show (space.store.int x.base).contains v = true
    rw [hstore]
    exact hv

/-! ### Trials -/

/-- Posts a constraint on the variables that are stated, and asks for solutions: tells whether it was
    posted, and the values of the first variable that were handed out. -/
def postThenTake (statements : List Statement) (c : Constraint) (count : Nat) :
    Except Fault (Option Unit × List (Option Int)) := do
  let sv ← (Solver.empty (.ofSeed 0)).state statements
  let (result, sv') ← runOn (Statement.post c).program sv
  let (answers, _) ←
    (SolutionStream.ofSearch ⟨sv', Strategy.standard sv'.store, Limit.indefinite⟩).take count
  return (result.toOption, answers.map (StreamAnswer.value? (.plain ⟨0⟩)))

/-- The values are those of reported solutions. -/
theorem reports_of_postThenTake {statements : List Statement} {c : Constraint} {count : Nat}
    {values : List (Option Int)}
    (h : (postThenTake statements c count).toOption = some (some (), values)) :
    ∃ sv sv', (Solver.empty (.ofSeed 0)).state statements = .ok sv
      ∧ runOn (Statement.post c).program sv = .ok (.ok (), sv')
      ∧ ∀ v, some v ∈ values → ∃ sol, sv'.Reports sol ∧ sol.value (.plain ⟨0⟩) = .ok v := by
  unfold postThenTake at h
  obtain ⟨sv, hstate, h⟩ := exists_of_toOption_bind h
  obtain ⟨⟨result, sv'⟩, hpost, h⟩ := exists_of_toOption_bind h
  simp only at h
  obtain ⟨⟨answers, last⟩, htake, h⟩ := exists_of_toOption_bind h
  simp only [pure, Except.pure, Except.toOption, Option.some.injEq, Prod.mk.injEq] at h
  obtain ⟨hresult, rfl⟩ := h
  cases result with
  | error e => cases hresult
  | ok u =>
    refine ⟨sv, sv', hstate, hpost, fun v hv => ?_⟩
    obtain ⟨answer, hanswer, hvalue⟩ := List.mem_map.mp hv
    cases answer with
    | solution sol =>
      refine ⟨sol, reports_take .refl (.start _ _) htake hanswer, ?_⟩
      cases hsol : sol.value (.plain ⟨0⟩) with
      | error e =>
        simp only [StreamAnswer.value?, hsol] at hvalue
        cases hvalue
      | ok w =>
        simp only [StreamAnswer.value?, hsol] at hvalue
        cases hvalue
        rfl
    | finished => cases hvalue
    | unknown => cases hvalue
    | unsatisfiable => cases hvalue

/-! ### Three values -/

/-- A variable with the values 0, 1 and 2. -/
def ofThree : List Statement := [.bounded 0 2 Width.fits_zero_two none]

/-- Posts that the variable is not `k`, and asks for solutions. -/
def trial (k : Int) (count : Nat) : Except Fault (Option Unit × List (Option Int)) :=
  postThenTake ofThree (.differs (.plain ⟨0⟩) k) count

/-- The values of a trial are those of reported solutions. -/
theorem reports_of_trial {count : Nat} {values : List (Option Int)}
    (h : (trial k count).toOption = some (some (), values)) :
    ∃ sv sv', (Solver.empty (.ofSeed 0)).state ofThree = .ok sv
      ∧ runOn (Statement.post (.differs (.plain ⟨0⟩) k)).program sv = .ok (.ok (), sv')
      ∧ ∀ v, some v ∈ values → ∃ sol, sv'.Reports sol ∧ sol.value (.plain ⟨0⟩) = .ok v :=
  reports_of_postThenTake h

/-- The least value is taken away. -/
theorem differs_excludes_least :
    ∃ sv sv' sol, (Solver.empty (.ofSeed 0)).state ofThree = .ok sv
      ∧ runOn (Statement.post (.differs (.plain ⟨0⟩) 0)).program sv = .ok (.ok (), sv')
      ∧ sv'.Reports sol ∧ sol.value (.plain ⟨0⟩) = .ok 1
      ∧ ∀ sol, sv'.Reports sol → ∀ v, sol.value (.plain ⟨0⟩) = .ok v → v ≠ 0 := by
  have hrun : (trial 0 2).toOption = some (some (), [some 1, some 2]) := by decide +kernel
  obtain ⟨sv, sv', hstate, hpost, hreports⟩ := reports_of_trial hrun
  obtain ⟨sol, hsol, hvalue⟩ := hreports 1 (List.mem_cons_self ..)
  have hprepared := (Prepared.empty (.ofSeed 0)).state hstate
  have hdomain : sv.store.knows (.int ⟨0⟩) = true ∧ sv.store.int ⟨0⟩ = .bounded 0 2 := by
    cases hstate
    exact ⟨rfl, rfl⟩
  obtain ⟨hknown, hdomain⟩ := hdomain
  have hranges : (IntVar.plain ⟨0⟩).Ranges Width.value sv.store := by
    intro v hv
    rw [IntVar.base, hdomain] at hv
    obtain ⟨hlow, hhigh, -⟩ := IntegerDomain.contains_iff.mp hv
    exact ⟨(Width.fits_zero_two.1).1.trans hlow, hhigh.trans (Width.fits_zero_two.2).2⟩
  have hlower : (IntVar.plain ⟨0⟩).lowerBound sv.store = 0 := congrArg IntegerDomain.lower hdomain
  have hremovable := IntVar.removable_lowerBound hprepared.resting.wf hranges
  rw [hlower] at hremovable
  exact ⟨sv, sv', sol, hstate, hpost, hsol, hvalue,
    (@differs_excludes _ _ (.plain ⟨0⟩) _ hprepared hknown hranges hpost).1 hremovable⟩

/-- The value in the middle is not, although the posting succeeds: a solution has it. -/
theorem differs_keeps_middle :
    ∃ sv sv' sol, (Solver.empty (.ofSeed 0)).state ofThree = .ok sv
      ∧ runOn (Statement.post (.differs (.plain ⟨0⟩) 1)).program sv = .ok (.ok (), sv')
      ∧ sv'.Reports sol ∧ sol.value (.plain ⟨0⟩) = .ok 1 := by
  have hrun : (trial 1 2).toOption = some (some (), [some 0, some 1]) := by decide +kernel
  obtain ⟨sv, sv', hstate, hpost, hreports⟩ := reports_of_trial hrun
  obtain ⟨sol, hsol, hvalue⟩ := hreports 1 (List.mem_cons_of_mem _ (List.mem_cons_self ..))
  exact ⟨sv, sv', sol, hstate, hpost, hsol, hvalue⟩

end Solver

end FiniteDomain
