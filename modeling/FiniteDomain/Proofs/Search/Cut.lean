import FiniteDomain.Proofs.Contract.View
import FiniteDomain.Proofs.Search.Branches
import FiniteDomain.Proofs.Search.Exclusion
import FiniteDomain.Proofs.Variable.Saturation

/-! # The cut asks for a strict improvement

    When branch and bound has found a solution, it demands that the cost be less
    by one at least, or stops if no cost is less.  To maximise is to minimise the
    view with the sign changed, which is saturated, while the demand is pulled
    back to the variable below through the exact map.  Both agree as long as the
    cost of the solution found lies in the range: then the demand holds for
    exactly the better values, and the search stops at once only if there is none
    (`improve_cut`).

    The least value has no negative in the range.  A solution that maximises with
    this value is taken for one that is better by one than it is, and the value
    next to it is cut off (`optimise_misses_better`). -/

namespace FiniteDomain

/-- The image of a multiplied variable. -/
theorem IntVar.image_scaled {x y : IntVar} {k : Int} (h : x.scaled k = .ok y) (v : Int) :
    y.image v = k * x.image v := by
  have hvalue := exactValue_scaled h fun _ => v
  rwa [exactValue_eq, exactValue_eq] at hvalue

/-- A multiple of a variable is an image of what can be read where the variable can. -/
theorem IntVar.source_scaled {x y : IntVar} {k : Int} {s : Store} (h : x.scaled k = .ok y)
    (hx : x.Ranges Width.value s) : y.source.Ranges Width.value s := by
  cases x with
  | plain z =>
    simp only [scaled, bind, Except.bind] at h
    split at h <;> cases h
    exact hx
  | view inner map =>
    simp only [scaled, bind, Except.bind] at h
    split at h <;> cases h
    exact hx.inner

namespace Search

variable {B T α : Type} [Brancher B] [Termination T] {sv : Solver Filter}
  {sr sr' : Search Filter B T} {goal : Goal} {objective cost : IntVar} {v : Int}
  {account : Solver Filter → Solution → Except Fault α} {told : α} {accounts : List α}
  {best? : Option Solution}

/-- The value of a variable below which a single value is left. -/
theorem value_of_single {x : IntVar} {s : Store} (hs : s.Wf) (hknown : s.knows (.int x.base) = true)
    (hsingle : ∀ w, (s.int x.base).contains w = true → w = v) :
    Solution.value ⟨s⟩ x = .ok (x.shown v) := by
  obtain ⟨hlower, hupper⟩ := x.bounds_of_single hs hsingle
  have hfixed : x.isFixed s = true := by
    rw [IntVar.isFixed, hlower, hupper, beq_self_eq_true]
  have hrequire : s.require (.int x.base) = .ok () := if_pos hknown
  simp only [Solution.value, hrequire, hfixed, if_true, hlower, bind, Except.bind]
  rfl

/-- What becomes of a solution that is found: the search goes on with the next lower cost as the
    bound, or ends if there is none. -/
theorem improve_found {fuel : Nat} {c : Int} (hsolve : sr.solve = .ok (.found, sr'))
    (haccount : account sr'.solver sr'.solver.solution = .ok told)
    (hvalue : sr'.solver.solution.value cost = .ok c) :
    sr.improve cost account (fuel + 1) best? accounts
      = if Width.value.Fits (c - 1) then
          improve cost account fuel (some sr'.solver.solution) (told :: accounts)
            (sr'.update (·.setCut (cost.atMost (c - 1))))
        else .ok (.optimal sr'.solver.solution, told :: accounts, sr') := by
  simp only [improve, hsolve, haccount, hvalue, bind, Except.bind]
  rfl

/-- What branch and bound does with a solution that it finds.  Either it goes on with a demand that
    holds for exactly the values below for which the objective is strictly better, or it is done,
    and no value in the domain of the objective is better. -/
theorem improve_cut (hprepared : sv.Prepared) (hvisits : sr.Visits sv)
    (hknown : sv.store.knows (.int objective.base) = true)
    (hranges : objective.Ranges Width.value sv.store)
    (hscaled : objective.scaled goal.factor = .ok cost) (hsolve : sr.solve = .ok (.found, sr'))
    (haccount : account sr'.solver sr'.solver.solution = .ok told)
    (hsingle : ∀ w, (sr'.solver.store.int objective.base).contains w = true ↔ w = v)
    (hnegative : goal = .maximise → objective.image v ≠ minValue) (fuel : Nat) :
    (∃ k, (cost.atMost k).About objective.base
        ∧ sr.improve cost account (fuel + 1) best? accounts
          = improve cost account fuel (some sr'.solver.solution) (told :: accounts)
            (sr'.update (·.setCut (cost.atMost k)))
        ∧ ∀ w, (sv.store.int objective.base).contains w = true →
          ((cost.atMost k).HoldsAt w ↔ goal.Better (objective.image w) (objective.image v)))
      ∨ sr.improve cost account (fuel + 1) best? accounts
          = .ok (.optimal sr'.solver.solution, told :: accounts, sr')
        ∧ ∀ w, (sv.store.int objective.base).contains w = true →
          ¬ goal.Better (objective.image w) (objective.image v) := by
  have hnarrower := (hvisits.solve hsolve).narrower hprepared
  have hbase : cost.base = objective.base := IntVar.base_scaled hscaled
  have himage : ∀ w, cost.image w = goal.factor * objective.image w := IntVar.image_scaled hscaled
  have hfits : ∀ w, (sv.store.int objective.base).contains w = true →
      minValue ≤ objective.image w ∧ objective.image w ≤ maxValue := fun w hw => (hranges w hw).fits
  have hv : (sv.store.int objective.base).contains v = true :=
    hnarrower.contains ((hsingle v).mpr rfl)
  have hv' : (sv.store.int cost.base).contains v = true := hbase ▸ hv
  -- no cost falls below the range, for that a value had to lie above it
  have hleast : ∀ w, (sv.store.int objective.base).contains w = true → minValue ≤ cost.image w := by
    intro w hw
    obtain ⟨hlow, hhigh⟩ := hfits w hw
    rw [himage]
    simp only [minValue, maxValue, Width.value] at hlow hhigh ⊢
    cases goal <;> simp only [Goal.factor] <;> omega
  -- and the cost of the solution does not exceed the range either, so it is read as it is
  have hgreatest : cost.image v ≤ maxValue := by
    obtain ⟨hlow, hhigh⟩ := hfits v hv
    rw [himage]
    simp only [minValue, maxValue, Width.value] at hlow hhigh hnegative ⊢
    cases goal with
    | minimise =>
      simp only [Goal.factor]
      omega
    | maximise =>
      have hne := hnegative rfl
      simp only [Goal.factor]
      omega
  have hvalue : sr'.solver.solution.value cost = .ok (cost.image v) := by
    have hshown : cost.shown v = cost.image v := by
      rw [IntVar.shown_eq_clamp (IntVar.source_scaled hscaled hranges) hv',
        Width.clamp_of_fits ⟨hleast v hv, hgreatest⟩]
    rw [← hshown]
    refine value_of_single hnarrower.wf ?_ fun w hw => (hsingle w).mp (hbase ▸ hw)
    rw [hbase, hnarrower.knows]
    exact hknown
  have hbetter : ∀ w, cost.image w ≤ cost.image v - 1
      ↔ goal.Better (objective.image w) (objective.image v) := by
    intro w
    rw [himage, himage]
    exact Int.le_sub_one_iff
  rw [improve_found hsolve haccount hvalue]
  by_cases hfit : Width.value.Fits (cost.image v - 1)
  · left
    refine ⟨cost.image v - 1, ?_, if_pos hfit, fun w hw => ?_⟩
    · intro y hy
      exact ((cost.subject?_bounds _).2 y hy).trans hbase
    · have hholds := Comparator.atMost.holdsAt_predicate hprepared.resting.wf
        (IntVar.source_scaled hscaled hranges) (cost.image v - 1) (hbase ▸ hw)
      exact hholds.trans (hbetter w)
  · right
    refine ⟨if_neg hfit, fun w hw => ?_⟩
    -- no value at all is below the least one
    rw [← hbetter]
    intro hlt
    exact hfit ⟨(hleast w hw).trans hlt, (Int.sub_le_self _ (by decide)).trans hgreatest⟩

/-! ### Two values -/

/-- A variable with two neighbouring values. -/
def twoFrom (least : Int) (fits : Width.value.Fits least ∧ Width.value.Fits (least + 1)) :
    List Statement :=
  [.bounded least (least + 1) fits none]

/-- The search of a solver for all variables in order, without a limit. -/
def throughout (sv : Solver Filter) : Search Filter Strategy Limit :=
  ⟨sv, Strategy.standard sv.store, .indefinite⟩

/-- The variable that is minimised in order to maximise the first one. -/
def mirror : IntVar := .view (.plain ⟨0⟩) ⟨-1, 0, AffineMap.neg_one_ne_zero⟩

/-- Looks for a solution: the verdict, what is left of the variable, and its mirrored value. -/
def firstOf (statements : List Statement) : Except Fault (Verdict × IntegerDomain × Int) := do
  let sv ← (Solver.empty (.ofSeed 0)).state statements
  let (verdict, sr) ← (throughout sv).solve
  return (verdict, sr.solver.store.int ⟨0⟩, ← sr.solver.solution.value mirror)

theorem found_of_firstOf {statements : List Statement} {d : IntegerDomain} {c : Int}
    (h : (firstOf statements).toOption = some (.found, d, c)) :
    ∃ sv sr', (Solver.empty (.ofSeed 0)).state statements = .ok sv
      ∧ (throughout sv).solve = .ok (.found, sr') ∧ sr'.solver.store.int ⟨0⟩ = d
      ∧ sr'.solver.solution.value mirror = .ok c := by
  unfold firstOf at h
  obtain ⟨sv, hstate, h⟩ := exists_of_toOption_bind h
  obtain ⟨⟨verdict, sr'⟩, hsolve, h⟩ := exists_of_toOption_bind h
  obtain ⟨c', hvalue, h⟩ := exists_of_toOption_bind h
  simp only [pure, Except.pure, Except.toOption, Option.some.injEq, Prod.mk.injEq] at h
  obtain ⟨rfl, rfl, rfl⟩ := h
  exact ⟨sv, sr', hstate, hsolve, rfl, hvalue⟩

/-- The greater of 0 and 1 is wanted, and 0 is found first: the demand holds for 1 alone. -/
theorem improve_cut_zero_one :
    ∃ sv sr' k, (Solver.empty (.ofSeed 0)).state (twoFrom 0 (by decide)) = .ok sv
      ∧ (throughout sv).solve = .ok (.found, sr')
      ∧ (throughout sv).improve mirror (fun _ sol => .ok sol) 1 none []
        = improve mirror (fun _ sol => .ok sol) 0 (some sr'.solver.solution) [sr'.solver.solution]
          (sr'.update (·.setCut (mirror.atMost k)))
      ∧ ∀ w, (sv.store.int ⟨0⟩).contains w = true → ((mirror.atMost k).HoldsAt w ↔ 0 < w) := by
  have hrun : (firstOf (twoFrom 0 (by decide))).toOption
      = some (.found, .bounded 0 0, 0) := by
    decide +kernel
  obtain ⟨sv, sr', hstate, hsolve, hfound, -⟩ := found_of_firstOf hrun
  have hprepared := (Solver.Prepared.empty (.ofSeed 0)).state hstate
  obtain ⟨hknown, hdomain⟩ : sv.store.knows (.int ⟨0⟩) = true ∧ sv.store.int ⟨0⟩ = .bounded 0 1 := by
    cases hstate
    exact ⟨rfl, rfl⟩
  have hranges : (IntVar.plain ⟨0⟩).Ranges Width.value sv.store := by
    intro w hw
    rw [IntVar.base, hdomain] at hw
    obtain ⟨hlow, hhigh, -⟩ := IntegerDomain.contains_iff.mp hw
    exact ⟨Int.le_trans (by decide) hlow, Int.le_trans hhigh (by decide)⟩
  have hsingle : ∀ w, (sr'.solver.store.int ⟨0⟩).contains w = true ↔ w = 0 := by
    intro w
    rw [hfound]
    constructor
    · intro hw
      obtain ⟨hlow, hhigh, -⟩ := IntegerDomain.contains_iff.mp hw
      exact Int.le_antisymm hhigh hlow
    · rintro rfl
      decide
  have hone : (sv.store.int ⟨0⟩).contains 1 = true := by
    rw [hdomain]
    decide
  -- the value 1 is better, so the search is not done
  have hbetter : ∀ w : Int, Goal.maximise.Better w 0 ↔ 0 < w := by
    intro w
    show -1 * w < -1 * 0 ↔ 0 < w
    omega
  rcases @improve_cut _ _ _ _ _ sv (throughout sv) sr' .maximise (.plain ⟨0⟩) mirror 0
      (fun _ sol => .ok sol) _ [] none hprepared (.start _ _) hknown hranges rfl hsolve rfl hsingle
      (fun _ => by decide) 0 with
    ⟨k, -, himprove, hholds⟩ | ⟨-, hnone⟩
  · exact ⟨sv, sr', k, hstate, hsolve, himprove, fun w hw => (hholds w hw).trans (hbetter w)⟩
  · exact absurd ((hbetter 1).mpr (by decide)) (hnone 1 hone)

/-- The greatest of two values is wanted, the first solution is the least value of all, and the
    demand after it does not hold for the value that is better.  So the optimisation ends with the
    least value for the best one. -/
theorem optimise_misses_better :
    ∃ sv sr' best accounts last,
      (Solver.empty (.ofSeed 0)).state (twoFrom minValue (by decide)) = .ok sv
      ∧ (IntVar.plain ⟨0⟩).scaled Goal.maximise.factor = .ok mirror
      ∧ (throughout sv).solve = .ok (.found, sr')
      ∧ sr'.solver.store.int ⟨0⟩ = .bounded minValue minValue
      ∧ (∀ fuel, (throughout sv).improve mirror (fun _ sol => .ok sol) (fuel + 1) none []
        = improve mirror (fun _ sol => .ok sol) fuel (some sr'.solver.solution)
          [sr'.solver.solution] (sr'.update (·.setCut (mirror.atMost (maxValue - 1)))))
      ∧ (sv.store.int ⟨0⟩).contains (minValue + 1) = true
      ∧ Goal.maximise.Better (minValue + 1) minValue
      ∧ ¬ (mirror.atMost (maxValue - 1)).HoldsAt (minValue + 1)
      ∧ (throughout sv).optimise .maximise (.plain ⟨0⟩) (fun _ _ => .ok ())
        = .ok (.optimal best, accounts, last)
      ∧ best.value (.plain ⟨0⟩) = .ok minValue := by
  have hrun : (firstOf (twoFrom minValue (by decide))).toOption
      = some (.found, .bounded minValue minValue, maxValue) := by
    decide +kernel
  obtain ⟨sv, sr', hstate, hsolve, hfound, hvalue⟩ := found_of_firstOf hrun
  -- that the optimisation ends with the least value is computed
  have hbest : (((Solver.empty (.ofSeed 0)).state (twoFrom minValue (by decide))).bind fun sv =>
      ((throughout sv).optimise .maximise (.plain ⟨0⟩) fun _ _ => .ok ()).bind fun out =>
        match out.1 with
        | .optimal sol => sol.value (.plain ⟨0⟩)
        | _ => .error .assertionFailed).toOption = some minValue := by
    decide +kernel
  obtain ⟨sv', hstate', hbest⟩ := exists_of_toOption_bind hbest
  obtain rfl := Except.ok.inj (hstate.symm.trans hstate')
  obtain ⟨⟨result, accounts, last⟩, hoptimise, hbest⟩ := exists_of_toOption_bind hbest
  have hdomain : sv.store.int ⟨0⟩ = .bounded minValue (minValue + 1) := by
    cases hstate
    rfl
  cases result with
  | optimal best =>
    have hvalue' : best.value (.plain ⟨0⟩) = .ok minValue := by
      cases hv : best.value (.plain ⟨0⟩) with
      | error f =>
        simp only [hv] at hbest
        cases hbest
      | ok v =>
        simp only [hv] at hbest
        rw [Option.some.inj hbest]
    refine ⟨sv, sr', best, accounts, last, hstate, rfl, hsolve, hfound, fun fuel => ?_, ?_, ?_, ?_,
      hoptimise, hvalue'⟩
    · rw [improve_found hsolve rfl hvalue]
      exact if_pos (by decide)
    · rw [hdomain]
      decide
    · show -1 * (minValue + 1) < -1 * minValue
      decide
    · show ¬ (minValue + 2 ≤ minValue + 1)
      decide
  | satisfiable best => cases hbest
  | unsatisfiable => cases hbest
  | unknown => cases hbest

end Search

end FiniteDomain
