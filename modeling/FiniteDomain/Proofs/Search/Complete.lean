import FiniteDomain.Proofs.Model.Meaning
import FiniteDomain.Proofs.Search.Enumeration

/-! # Exact enumeration

    Whatever is stated, the solutions that a search without a limit hands out are
    the assignments within the initial domains that satisfy the constraints, each
    of them once.  The search may use the branchers made for all variables, with
    whatever is drawn, or any strategies of the library that decide all variables
    together (`Strategy.Suits`). -/

namespace FiniteDomain

/-! ### Branchers -/

/-- The strategy is one of those made for all variables of the store, or its parts are about
    variables of the store and decide all of them. -/
def Strategy.Suits (s : Store) (b : Strategy) : Prop :=
  b = .standard s ∨ b = .randomised s
    ∨ (Strategy.Fits s s b ∧ ∀ v, s.knows v = true → v ∈ Strategy.targets b)

/-- All values of the integer variables lie inside the range. -/
def Store.Interior (s : Store) : Prop :=
  ∀ x, s.knows (.int x) = true → (IntVar.plain x).Ranges Width.interior s

theorem Store.Interior.narrower {s t : Store} (h : s.Interior) (hst : s.Narrower t) :
    t.Interior := fun x hx v hv => h x ((hst.knows _).symm.trans hx) v (hst.contains hv)

theorem Strategy.fits_of_suits {s : Store} {b : Strategy} (hs : s.Interior) (h : b.Suits s) :
    Strategy.Fits s s b ∧ ∀ v, s.knows v = true → v ∈ Strategy.targets b := by
  rcases h with rfl | rfl | h
  · exact fits_covering _ _ _ hs fun _ _ _ h => by cases h
  · exact fits_covering _ _ _ hs fun _ _ _ h => by cases h
  · exact h

theorem Strategy.decides_of_suits {s : Store} {b : Strategy} (hs : s.Interior) (h : b.Suits s) :
    Decides s b := ⟨_, covering_of_fits s, fits_of_suits hs h⟩

/-! ### Searches that do not begin -/

namespace Search

variable {B T : Type} [Brancher B] {sr : Search Filter B T}

theorem exists_stepBound (sr : Search Filter B T) : ∃ fuel, sr.stepBound = fuel + 1 := by
  unfold stepBound
  generalize patience = slack
  exact ⟨8 * (sr.solver.rootContents + 1) * Brancher.excess sr.brancher + 7 + slack, by omega⟩

/-- A search that was not entered is given up without going back. -/
theorem restore_of_root (hroot : sr.solver.root? = none) : ∃ sr', sr.restore = .ok sr' := by
  simp only [restore, hroot, pure, Except.pure, bind, Except.bind]
  exact ⟨_, rfl⟩

end Search

/-! ### Streams of a solver -/

namespace Solver

variable {sv : Solver Filter} {m : Model}

/-- A solver that is known to have no solution is not searched. -/
theorem solve_infeasible {B T : Type} [Brancher B] [Termination T]
    (hinfeasible : sv.infeasible = true) (b : B) (limit : T) :
    Search.solve ⟨sv, b, limit⟩ = .ok (.exhausted, ⟨sv, b, limit⟩) := if_pos hinfeasible

/-- A solver that is known to have no solution hands out none. -/
theorem toList_infeasible {B T : Type} [Brancher B] [Termination T] (hinfeasible : sv.infeasible = true)
    (hroot : sv.root? = none) (b : B) (limit : T) :
    ∃ st', (SolutionStream.ofSearch ⟨sv, b, limit⟩).toList = .ok ([], .unsatisfiable, st') := by
  obtain ⟨last, hrestore⟩ := @Search.restore_of_root _ _ _ ⟨sv, b, limit⟩ hroot
  have hnext : (SolutionStream.ofSearch ⟨sv, b, limit⟩).next = .ok (.unsatisfiable, ⟨last, false⟩) := by
    simp only [SolutionStream.next, SolutionStream.ofSearch, solve_infeasible hinfeasible, hrestore,
      bind, Except.bind]
    rfl
  have hdrain (fuel : Nat) : (SolutionStream.ofSearch ⟨sv, b, limit⟩).drain (fuel + 1) []
      = .ok ([], .unsatisfiable, ⟨last, false⟩) := by
    simp only [SolutionStream.drain, hnext, bind, Except.bind]
    rfl
  obtain ⟨fuel, hfuel⟩ := (Search.mk sv b limit).exists_stepBound
  refine ⟨⟨last, false⟩, ?_⟩
  unfold SolutionStream.toList
  exact (congrArg (fun n => SolutionStream.drain n [] _) hfuel).trans (hdrain fuel)

/-- A solver hands out the valuations that it stands for, if what is left in the end satisfies the
    constraints. -/
theorem Represents.toList_spec {k : Concern} {domains : Store} {sat : Valuation → Prop}
    (h : sv.Represents k domains sat)
    (hconclusive : sv.infeasible = false → sv.space.Conclusive k) (hinterior : domains.Interior)
    {b : Strategy} (hb : b.Suits sv.store) :
    ∃ sols st', (SolutionStream.ofSearch ⟨sv, b, Limit.indefinite⟩).toList
        = .ok (sols, SolutionStream.lastAnswer (!sols.isEmpty), st')
      ∧ SolutionStream.Lists sols fun a => domains.Admits a ∧ sat a := by
  have hresting := h.resting
  cases hinfeasible : sv.infeasible with
  | true =>
    obtain ⟨st', hrun⟩ := toList_infeasible hinfeasible hresting.root b Limit.indefinite
    exact ⟨[], st', hrun, .nil fun a ha => h.refuted hinfeasible a ha.1 ha.2⟩
  | false =>
    have hfits := Strategy.fits_of_suits (hinterior.narrower h.narrower) hb
    obtain ⟨sols, st', hrun, hlists⟩ := @SolutionStream.toList_of_conclusive _ _ _ _
      ⟨sv, b, Limit.indefinite⟩ (Strategy.covering_of_fits sv.store) (h.rest hinfeasible)
      (hconclusive hinfeasible) hresting.root hresting.levels hresting.decision hresting.cut
      hinfeasible hfits rfl
    exact ⟨sols, st', hrun, hlists.congr (h.solves hinfeasible)⟩

/-- What is left in the end satisfies the constraints, if what passes all filters is what is looked
    for. -/
theorem Represents.conclusive {domains : Store} {sat : Valuation → Prop}
    (h : sv.Represents .lapses domains sat) (hfeasible : sv.infeasible = false)
    (hleft : ∀ a, sv.space.Passes a → sat a) : sv.space.Conclusive .lapses := by
  refine Space.conclusive_lapses (h.rest hfeasible).wf fun a ha => ?_
  exact ((h.solves hfeasible a).mpr ⟨h.narrower.admits a ha.1, hleft a ha⟩).2

/-- A solver that represents a model hands out its solutions. -/
theorem Models.toList_spec (h : sv.Models m) (hinterior : m.domains.Interior) {b : Strategy}
    (hb : b.Suits sv.store) :
    ∃ sols st', (SolutionStream.ofSearch ⟨sv, b, Limit.indefinite⟩).toList
        = .ok (sols, SolutionStream.lastAnswer (!sols.isEmpty), st')
      ∧ SolutionStream.Lists sols m.Solves :=
  h.represents.toList_spec (fun _ => Space.conclusive_clashes _) hinterior hb

/-- Exact enumeration: for every list of statements that fit, asking for solutions until there is
    no further one answers the assignments within the initial domains that satisfy the
    constraints, each once. -/
theorem enumerates {random : Random} {statements : List Statement}
    (hfits : Model.empty.Fits statements)
    (hinterior : (Model.empty.state statements).domains.Interior) :
    ∃ sv, (Solver.empty random).state statements = .ok sv ∧ ∀ b : Strategy, b.Suits sv.store →
      ∃ sols st', (SolutionStream.ofSearch ⟨sv, b, Limit.indefinite⟩).toList
          = .ok (sols, SolutionStream.lastAnswer (!sols.isEmpty), st')
        ∧ SolutionStream.Lists sols (Model.empty.state statements).Solves := by
  obtain ⟨sv, hstate, hmodels⟩ := (models_empty random).state hfits
  exact ⟨sv, hstate, fun b hb => hmodels.toList_spec hinterior hb⟩

/-- Two variables from 0 to 2, the first below the second. -/
def ascending : List Statement :=
  [.bounded 0 2 Width.fits_zero_two none, .bounded 0 2 Width.fits_zero_two none,
    .post (.less (.plain ⟨0⟩) (.plain ⟨1⟩))]

/-- The values of both variables are from 0 to 2. -/
theorem ascending_bounds {x : IntId} {v : Int}
    (hx : (Model.empty.state ascending).domains.knows (.int x) = true)
    (hv : ((Model.empty.state ascending).domains.int x).contains v = true) : 0 ≤ v ∧ v ≤ 2 := by
  have hcases : x = ⟨0⟩ ∨ x = ⟨1⟩ := by
    have hlt : x.index < 2 := of_decide_eq_true hx
    obtain ⟨i⟩ := x
    simp only [IntId.mk.injEq]
    change i < 2 at hlt
    omega
  rcases hcases with rfl | rfl <;>
    exact ⟨(IntegerDomain.contains_iff.mp hv).1, (IntegerDomain.contains_iff.mp hv).2.1⟩

theorem ascending_fits : Model.empty.Fits ascending := by
  refine ⟨trivial, trivial, ⟨trivial, nofun, _, rfl, fun _ f hf => ?_⟩, trivial⟩
  obtain rfl : f = .atMost (.plain ⟨0⟩) (.view (.plain ⟨1⟩) ⟨1, -1, by decide⟩) :=
    List.mem_singleton.mp hf
  refine ⟨by decide, fun y hy v hv => ?_, nofun, nofun⟩
  have hcases : y = .plain ⟨0⟩ ∨ y = .view (.plain ⟨1⟩) ⟨1, -1, by decide⟩ := by
    simpa [Filter.views] using hy
  rcases hcases with rfl | rfl
  · have h := @ascending_bounds ⟨0⟩ v (by decide) hv
    simp only [IntVar.Within, Width.Fits, Width.interior, Width.value, minValue, maxValue]
    omega
  · have h := @ascending_bounds ⟨1⟩ v (by decide) hv
    simp only [IntVar.Within, IntVar.image, AffineMap.image, Width.Fits, Width.interior,
      Width.value, minValue, maxValue]
    omega

theorem ascending_interior : (Model.empty.state ascending).domains.Interior := by
  intro x hx v hv
  have h := ascending_bounds hx hv
  simp only [IntVar.Within, Width.Fits, Width.interior, Width.value, minValue, maxValue]
  omega

/-- The branchers that the library proposes list all ascending pairs. -/
theorem enumerates_ascending :
    ∃ sv, (Solver.empty (Random.ofSeed 7)).state ascending = .ok sv
      ∧ ∃ sols st', (SolutionStream.ofSearch
            ⟨sv, Strategy.standard sv.store, Limit.indefinite⟩).toList
          = .ok (sols, SolutionStream.lastAnswer (!sols.isEmpty), st')
        ∧ SolutionStream.Lists sols (Model.empty.state ascending).Solves := by
  obtain ⟨sv, hstate, hall⟩ := @enumerates (Random.ofSeed 7) _ ascending_fits ascending_interior
  exact ⟨sv, hstate, hall _ (Or.inl rfl)⟩

end Solver

end FiniteDomain
