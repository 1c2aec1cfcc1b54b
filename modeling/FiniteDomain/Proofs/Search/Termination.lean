import FiniteDomain.Proofs.Model.Postable
import FiniteDomain.Proofs.Search.Complete

/-! # Searches come to an end

    A search that is called again after each solution (`Search.calls`) hands out
    finitely many and then says that there is no further one, whatever is demanded
    of the solutions in between (`Solver.search_terminates`).

    What carries this is the cost of an account: it orders the branches that are
    still to be tried, on all open levels, by the contents of the domains in which
    these were opened.  A call lowers the cost with each solution, and a new demand
    leaves it alone (`Search.Underway.calls`). -/

namespace FiniteDomain

namespace Search

variable {P B T : Type} [Propagator P] [Brancher B] [Termination T]

/-- Demands something of the solutions that follow, or leaves the demand as it is. -/
def demand (sr : Search P B T) : Option Predicate → Search P B T
  | none => sr
  | some p => sr.update (·.setCut p)

/-- Calls a search a number of times and tells the verdicts; after each solution the next of the
    demands is made. -/
def calls (demands : Nat → Option Predicate) : (count : Nat) → Search P B T →
    Except Fault (List Verdict × Search P B T)
  | 0, sr => return ([], sr)
  | count + 1, sr => do
    let (verdict, sr) ← sr.solve
    match verdict with
    | .found =>
      let (verdicts, sr) ← calls (fun i => demands (i + 1)) count (sr.demand (demands 0))
      return (.found :: verdicts, sr)
    | verdict =>
      let (verdicts, sr) ← calls demands count sr
      return (verdict :: verdicts, sr)

section

variable {k : Concern} {B : Type} [Brancher B] {root : Space Filter} {fits : Store → B → Prop}
  {final : Store → Prop} {sr : Search Filter B Limit} {acc : Account}

omit [Brancher B] in
/-- After a solution a demand can be made. -/
theorem Underway.demand (h : Underway k root fits final sr acc) {cut? : Option Predicate}
    (hreported : Reported k root final cut? sr)
    (hstart : sr.solver.root? = some ⟨root.store.checkpoint, root.store.contents⟩)
    {demand? : Option Predicate} (hdemand : CutKnown root.store demand?) :
    Underway k root fits final (sr.demand demand?) acc := by
  cases demand? with
  | none => exact h
  | some p => exact h.setCut hreported.stage hstart hdemand

omit [Brancher B] in
theorem limit_demand (sr : Search Filter B Limit) (demand? : Option Predicate) :
    (sr.demand demand?).limit = sr.limit := by
  cases demand? <;> rfl

/-- A search without a limit that is called again after each solution comes to its end. -/
theorem Underway.calls (cov : Serving root.store fits final) (hrest : root.AtRest k)
    (h : Underway k root fits final sr acc) (hlimit : sr.limit = .indefinite)
    {demands : Nat → Option Predicate} (hdemands : ∀ i, CutKnown root.store (demands i)) :
    ∃ count last, sr.calls demands (count + 1)
      = .ok (List.replicate count .found ++ [.exhausted], last) := by
  -- on the cost of the account, which each solution lowers
  induction hcost : acc.cost using Nat.strong_induction_on generalizing sr acc demands with
  | _ cost ih =>
    obtain ⟨verdict, mid, hsolve, hstops, hsame⟩ := h.solve cov hrest
    obtain ⟨hgoeson, hlimit'⟩ := solve_indefinite hlimit hsolve
    cases hstops with
    | stopped => exact absurd rfl hgoeson
    | exhausted nothing leads =>
      refine ⟨0, mid, ?_⟩
      simp only [Search.calls, hsolve, bind, Except.bind]
      rfl
    | @found _ acc' pursues reported shorter owed kept added struck =>
      have hnext : Underway k root fits final (mid.demand (demands 0)) acc' :=
        (h.next hsame pursues shorter.le).demand reported (hsame.root.trans h.start) (hdemands 0)
      obtain ⟨count, last, hcalls⟩ := ih acc'.cost (hcost ▸ shorter) hnext
        ((limit_demand mid _).trans hlimit') (fun i => hdemands (i + 1)) rfl
      refine ⟨count + 1, last, ?_⟩
      rw [Search.calls, hsolve]
      simp only [bind, Except.bind, hcalls]
      rfl

end

end Search

/-! ### Searches of a solver -/

/-- The strategy is one of those made for all variables of the store, or its parts are about
    variables of the store. -/
def Strategy.Applies (s : Store) (b : Strategy) : Prop :=
  b = .standard s ∨ b = .randomised s ∨ Strategy.Fits s s b

theorem Strategy.fits_of_applies {s : Store} {b : Strategy} (hs : s.Interior) (h : b.Applies s) :
    Strategy.Fits s s b := by
  rcases h with rfl | rfl | h
  · exact (fits_covering _ _ _ hs fun _ _ _ h => by cases h).1
  · exact (fits_covering _ _ _ hs fun _ _ _ h => by cases h).1
  · exact h

namespace Solver

variable {sv : Solver Filter} {domains : Store}

/-- A solver that is known to have no solution says so at once. -/
theorem calls_infeasible {B T : Type} [Brancher B] [Termination T]
    (hinfeasible : sv.infeasible = true) (b : B) (limit : T) (demands : Nat → Option Predicate) :
    (Search.mk sv b limit).calls demands 1 = .ok ([.exhausted], ⟨sv, b, limit⟩) := by
  simp only [Search.calls, solve_infeasible hinfeasible, bind, Except.bind]
  rfl

/-- The searches of a solver that is ready come to an end. -/
theorem Poised.calls (h : sv.Poised .lapses domains) (hinterior : domains.Interior) {b : Strategy}
    (hb : b.Applies sv.store) {demands : Nat → Option Predicate}
    (hdemands : ∀ i, CutKnown sv.store (demands i)) :
    ∃ count last, (Search.mk sv b Limit.indefinite).calls demands (count + 1)
      = .ok (List.replicate count .found ++ [.exhausted], last) := by
  cases hfeasible : sv.infeasible with
  | true => exact ⟨0, _, calls_infeasible hfeasible b Limit.indefinite demands⟩
  | false =>
    have hfits := Strategy.fits_of_applies (hinterior.narrower h.narrower) hb
    have hserving := Strategy.serving_of_fits sv.store fun _ => False
    have hrest : sv.space.AtRest .lapses := h.rest hfeasible
    have hunderway := @Search.underway_of_root .lapses _ _
      (fun s b => Strategy.Fits sv.store s b ∧ ∀ v, False → v ∈ Strategy.targets b)
      (fun s => ∀ v, False → s.Settles v) ⟨sv, b, Limit.indefinite⟩ h.resting.root h.resting.levels
      h.resting.decision h.resting.cut hfeasible ⟨hfits, nofun⟩
    exact hunderway.calls hserving hrest rfl hdemands

/-- Whatever is stated about variables with values inside the range: the statements are carried
    out, and a search that is called again after each solution, with any strategy of the library
    and any demands in between, answers finitely many times that it has found one and then that
    there is no further one. -/
theorem search_terminates {random : Random} {statements : List Statement}
    (hpermits : Store.empty.Permits statements)
    (hinterior : (Store.empty.declare statements).Interior) :
    ∃ sv, (Solver.empty random).state statements = .ok sv ∧
      ∀ b : Strategy, b.Applies sv.store → ∀ demands : Nat → Option Predicate,
        (∀ i, CutKnown sv.store (demands i)) →
        ∃ count last, (Search.mk sv b Limit.indefinite).calls demands (count + 1)
          = .ok (List.replicate count .found ++ [.exhausted], last) := by
  obtain ⟨sv, hstate, hpoised, -⟩ := (poised_empty random).state hpermits
  exact ⟨sv, hstate, fun b hb demands hdemands => hpoised.calls hinterior hb hdemands⟩

/-- A variable that is not 1, which its domain cannot express, and a graph that is a path as far as
    the filter of paths can tell. -/
def blunt : List Statement :=
  [.bounded 0 2 Width.fits_zero_two none, .graph 4 [(0, 2), (2, 1), (2, 3), (3, 2)] none,
    .post (.all [.differs (.plain ⟨0⟩) 1, .pathNoCycle ⟨0⟩ 0 1])]

theorem blunt_interior : (Store.empty.declare blunt).Interior := by
  intro x hx v hv
  have hlt : x.index < 1 := of_decide_eq_true hx
  obtain ⟨i⟩ := x
  obtain rfl : i = 0 := by
    change i < 1 at hlt
    omega
  obtain ⟨hlow, hhigh, -⟩ := IntegerDomain.contains_iff.mp hv
  change 0 ≤ v at hlow
  change v ≤ 2 at hhigh
  simp only [IntVar.Within, Width.Fits, Width.interior, Width.value, minValue, maxValue]
  omega

theorem blunt_permits : Store.empty.Permits blunt := ⟨trivial, trivial, ⟨rfl, rfl, trivial⟩, trivial⟩

/-- Demands that the variable is at most 1 after the first solution. -/
def atMostOne (i : Nat) : Option Predicate := if i = 0 then some (.atMost ⟨0⟩ 1) else none

theorem search_terminates_blunt :
    ∃ sv count last, (Solver.empty (.ofSeed 3)).state blunt = .ok sv
      ∧ (Search.mk sv (Strategy.randomised sv.store) Limit.indefinite).calls atMostOne (count + 1)
        = .ok (List.replicate count .found ++ [.exhausted], last) := by
  obtain ⟨sv, hstate, hall⟩ := @search_terminates (.ofSeed 3) _ blunt_permits blunt_interior
  obtain ⟨sv', hstate', hpoised, -⟩ := (poised_empty (.ofSeed 3)).state blunt_permits
  obtain rfl := Except.ok.inj (hstate.symm.trans hstate')
  have hdemands : ∀ i, CutKnown sv.store (atMostOne i) := by
    intro i p hp
    unfold atMostOne at hp
    split at hp
    · cases hp
      refine known_impose fun y hy => ?_
      cases hy
      exact (hpoised.narrower.knows _).trans rfl
    · cases hp
  obtain ⟨count, last, hcalls⟩ := hall _ (Or.inr (Or.inl rfl)) atMostOne hdemands
  exact ⟨sv, count, last, hstate, hcalls⟩

end Solver

end FiniteDomain
