import FiniteDomain.Proofs.Search.Complete
import FiniteDomain.Search.Optimisation

/-! # Branch and bound is correct

    While solutions are looked for that are better and better, the demand of the
    search is to be better than all solutions handed out so far, and every
    solution of which that holds is still owed (`Search.Improving`).  So what is
    handed out satisfies the constraints and is better than what came before, and
    when nothing is owed any more the last of them is a best one. -/

namespace FiniteDomain

/-! ### The demand to be better -/

theorem IntVar.bounds_ne_differs (x : IntVar) (k : Int) (y : IntId) (c : Int) :
    x.atLeast k ≠ .differs y c ∧ x.atMost k ≠ .differs y c := by
  induction x generalizing k with
  | plain z => exact ⟨nofun, nofun⟩
  | view inner map ih =>
    have helim : ∀ {o : Option Int} {p : Int → Predicate}, (∀ w, p w ≠ .differs y c) →
        o.elim .never p ≠ .differs y c := by
      intro o p hp
      cases o with
      | none => exact nofun
      | some w => exact hp w
    unfold IntVar.atLeast IntVar.atMost
    cases map.reverses with
    | false => exact ⟨helim fun w => (ih w).1, helim fun w => (ih w).2⟩
    | true => exact ⟨helim fun w => (ih w).2, helim fun w => (ih w).1⟩

section

variable {s : Store} {x : IntVar}

/-- An upper bound can be demanded of every variable. -/
theorem cutKnown_atMost (hs : s.Wf) (hknown : s.knows (.int x.base) = true)
    (hx : x.Ranges Width.value s) (k : Int) : CutKnown s (some (x.atMost k)) := by
  rintro p ⟨⟩
  exact (tests_atMost hs hx.source k).known hknown

/-- An upper bound takes nothing out of the middle of a domain. -/
theorem cutSharp_atMost (x : IntVar) (k : Int) : CutSharp (some (x.atMost k)) := by
  rintro p ⟨⟩ t y c heq
  injection heq with heq
  exact absurd heq (x.bounds_ne_differs k y c).2

/-- The demand says what is meant of every valuation of the domains. -/
theorem meets_atMost (hx : x.Ranges Width.value s) {a : Valuation} (ha : s.Admits a) (k : Int) :
    Meets (some (x.atMost k)) a ↔ x.exactValue a.int ≤ k := by
  rw [← IntVar.holds_atMost hx.source ha k]
  exact ⟨fun h => h _ rfl, fun h p hp => Option.some.inj hp ▸ h⟩

end

/-! ### Better valuations -/

/-- The first valuation is better for the goal. -/
def Goal.Beats (goal : Goal) (objective : IntVar) (a b : Valuation) : Prop :=
  goal.Better (objective.exactValue a.int) (objective.exactValue b.int)

/-! ### Runs of the optimisation -/

namespace Search

variable {k : Concern} {B T α : Type} [Brancher B] [Termination T] {root : Space Filter}
  {fits : Store → B → Prop} {sr sr' : Search Filter B T} {acc : Account} {cost : IntVar}

/-- The first valuation has the smaller value. -/
def Lowers (cost : IntVar) (a b : Valuation) : Prop :=
  cost.exactValue a.int < cost.exactValue b.int

/-- Solutions that are handed out one after the other, as valuations: they satisfy the constraints,
    and each is better than those before. -/
structure Handed (solves : Valuation → Prop) (beats : Valuation → Valuation → Prop)
    (shown : List Solution) (vals : List Valuation) : Prop where
  /-- The solutions read as the valuations. -/
  reads : List.Forall₂ Solution.Reads shown vals
  /-- They satisfy the constraints. -/
  solves : ∀ a ∈ vals, solves a
  /-- Each is better than those before. -/
  better : vals.Pairwise fun a b => beats b a

/-- The result fits the solutions that were handed out and those that there are. -/
inductive Concludes (solves : Valuation → Prop) (beats : Valuation → Valuation → Prop)
    (shown : List Solution) (vals : List Valuation) : Optimisation → Prop where
  /-- The last solution is a best one. -/
  | optimal {sol : Solution} {a : Valuation} (last : shown.getLast? = some sol)
      (reads : vals.getLast? = some a) (best : ∀ b, solves b → ¬ beats b a) :
      Concludes solves beats shown vals (.optimal sol)
  /-- There may be better ones than the last solution. -/
  | satisfiable {sol : Solution} (last : shown.getLast? = some sol) :
      Concludes solves beats shown vals (.satisfiable sol)
  /-- There is no solution. -/
  | unsatisfiable (nothing : ∀ a, ¬ solves a) : Concludes solves beats shown vals .unsatisfiable
  /-- No solution was handed out. -/
  | unknown (nothing : shown = []) : Concludes solves beats shown vals .unknown

/-- The search has handed out solutions and looks for one that is better than all of them. -/
structure Improving (k : Concern) (root : Space Filter) (fits : Store → B → Prop) (cost : IntVar)
    (sr : Search Filter B T) (acc : Account) (shown : List Solution) (vals : List Valuation) :
    Prop where
  /-- The search is in progress. -/
  underway : Underway k root fits Store.Fixed sr acc
  /-- What was handed out. -/
  handed : Handed root.Solves (Lowers cost) shown vals
  /-- The demand is to be better. -/
  cut : ∀ a, root.Solves a → (Meets sr.solver.cut? a ↔ ∀ b ∈ vals, Lowers cost a b)
  /-- The demand can be carried out exactly. -/
  sharp : CutSharp sr.solver.cut?
  /-- Better solutions are owed. -/
  kept : ∀ a, root.Solves a → (∀ b ∈ vals, Lowers cost a b) → acc.Owes a
  /-- Nothing is owed but what the root admits. -/
  added : ∀ a, acc.Owes a → root.store.Admits a

variable {shown : List Solution} {vals : List Valuation}

omit [Brancher B] [Termination T] in
/-- Nothing has been handed out yet. -/
theorem Underway.improving (h : Underway k root fits Store.Fixed sr acc) (cost : IntVar)
    (hcut : sr.solver.cut? = none) (howes : ∀ a, acc.Owes a ↔ root.store.Admits a) :
    Improving k root fits cost sr acc [] [] := by
  refine ⟨h, ⟨.nil, fun a ha => (List.not_mem_nil ha).elim, .nil⟩, fun a _ => ?_,
    hcut ▸ cutSharp_none, fun a ha _ => (howes a).mpr ha.1, fun a ha => (howes a).mp ha⟩
  refine ⟨fun _ b hb => (List.not_mem_nil hb).elim, fun _ => ?_⟩
  rw [hcut]
  exact meets_none a

omit [Brancher B] [Termination T] in
/-- If nothing better is owed the last solution is a best one. -/
theorem Improving.concludes (h : Improving k root fits cost sr acc shown vals)
    (hnothing : ∀ a, root.Satisfies a → acc.Owes a → ¬ Meets sr.solver.cut? a) :
    Concludes root.Solves (Lowers cost) shown vals
      (shown.getLast?.elim .unsatisfiable .optimal) := by
  have hbest : ∀ a, root.Solves a → ¬ ∀ b ∈ vals, Lowers cost a b :=
    fun a ha hbetter => hnothing a ha.2 (h.kept a ha hbetter) ((h.cut a ha).mpr hbetter)
  rcases List.eq_nil_or_concat' vals with rfl | ⟨before, a, rfl⟩
  · cases h.handed.reads
    exact .unsatisfiable fun a ha => hbest a ha fun _ hb => (List.not_mem_nil hb).elim
  · cases hlast : shown.getLast? with
    | none =>
      have hlength := h.handed.reads.length_eq
      rw [List.getLast?_eq_none_iff.mp hlast] at hlength
      simp at hlength
    | some sol =>
      refine .optimal hlast List.getLast?_concat fun b hb hlt => hbest b hb fun c hc => ?_
      rcases List.mem_append.mp hc with hc | hc
      · have hbefore := (List.pairwise_append.mp h.handed.better).2.2 c hc a List.mem_cons_self
        exact Int.lt_trans hlt hbefore
      · rw [List.mem_singleton.mp hc]
        exact hlt

omit [Brancher B] [Termination T] in
/-- After a solution is handed out a better one is looked for. -/
theorem Improving.next (h : Improving k root fits cost sr acc shown vals) (hroot : root.store.Wf)
    (hknown : root.store.knows (.int cost.base) = true)
    (hcost : cost.Ranges Width.value root.store) {acc' : Account} {a : Valuation} {sol : Solution}
    (hsame : SameTask sr.solver.enter sr'.solver)
    (hpursues : Pursues k root fits Store.Fixed sr' acc')
    (hstage : sr'.solver.stage = .backtrack) (hle : acc'.cost ≤ acc.cost)
    (hread : sol.Reads a) (hsolves : root.Solves a) (hmeets : Meets sr.solver.cut? a)
    (hkept : ∀ b, root.Satisfies b → acc.Owes b → Meets sr.solver.cut? b → b = a ∨ acc'.Owes b)
    (hadded : ∀ b, acc'.Owes b → acc.Owes b) :
    Improving k root fits cost
      (sr'.update (·.setCut (cost.atMost (cost.exactValue a.int - 1)))) acc'
      (shown ++ [sol]) (vals ++ [a]) := by
  have hbetter : ∀ b ∈ vals, Lowers cost a b := (h.cut a hsolves).mp hmeets
  -- the last one is the best, so to beat it is to beat all
  have hall : ∀ b, (∀ c ∈ vals ++ [a], Lowers cost b c) ↔ Lowers cost b a := fun b => by
    refine ⟨fun hb => hb a (List.mem_append_right _ List.mem_cons_self), fun hlt c hc => ?_⟩
    rcases List.mem_append.mp hc with hc | hc
    · exact Int.lt_trans hlt (hbetter c hc)
    · rw [List.mem_singleton.mp hc]
      exact hlt
  refine ⟨(h.underway.next hsame hpursues hle).setCut hstage (hsame.root.trans h.underway.start)
    (cutKnown_atMost hroot hknown hcost _), ⟨?_, ?_, ?_⟩, fun b hb => ?_, cutSharp_atMost _ _,
    fun b hb hless => ?_, fun b hb => h.added b (hadded b hb)⟩
  · exact List.rel_append h.handed.reads (.cons hread .nil)
  · intro b hb
    rcases List.mem_append.mp hb with hb | hb
    · exact h.handed.solves b hb
    · rw [List.mem_singleton.mp hb]
      exact hsolves
  · refine List.pairwise_append.mpr ⟨h.handed.better, List.pairwise_singleton _ _, ?_⟩
    intro b hb c hc
    rw [List.mem_singleton.mp hc]
    exact hbetter b hb
  · rw [hall]
    exact (meets_atMost hcost hb.1 _).trans Int.le_sub_one_iff
  · have hlt := (hall b).mp hless
    have hbeats : ∀ c ∈ vals, Lowers cost b c := fun c hc => Int.lt_trans hlt (hbetter c hc)
    rcases hkept b hb.2 (h.kept b hb hbeats) ((h.cut b hb).mpr hbeats) with rfl | howes
    · exact absurd hlt (Int.lt_irrefl _)
    · exact howes

/-- What is told of the solutions that a search stops at. -/
def tellAll (tell : Solver Filter → Solution → α) (told : List (Solver Filter)) : List α :=
  told.map fun sv => tell sv sv.solution

variable (cov : Serving root.store fits Store.Fixed) (hroot : root.AtRest k)
  (hright : root.Conclusive k)

include cov hroot hright in
/-- The optimisation ends, and its result fits the solutions that it has handed out. -/
theorem improve_spec (hknown : root.store.knows (.int cost.base) = true)
    (hcost : cost.Ranges Width.interior root.store) (tell : Solver Filter → Solution → α)
    {fuel : Nat} {told : List (Solver Filter)}
    (h : Improving k root fits cost sr acc (told.map Solver.solution) vals)
    (hfuel : acc.cost < fuel) :
    ∃ (result : Optimisation) (told' : List (Solver Filter)) (vals' : List Valuation)
      (sr' : Search Filter B T),
      sr.improve cost (fun sv sol => .ok (tell sv sol)) fuel (told.map Solver.solution).getLast?
          (tellAll tell told).reverse = .ok (result, (tellAll tell told').reverse, sr')
      ∧ Handed root.Solves (Lowers cost) (told'.map Solver.solution) vals'
      ∧ Concludes root.Solves (Lowers cost) (told'.map Solver.solution) vals' result
      ∧ sr'.solver.root? = some ⟨root.store.checkpoint, root.store.contents⟩
      ∧ root.Leads sr'.solver.space := by
  have hranges : cost.Ranges Width.value root.store := hcost.mono fun _ => Width.fits_of_interior
  -- on the fuel, which exceeds the cost; `Improving` is what each solution keeps
  induction fuel generalizing sr acc told vals with
  | zero => exact absurd hfuel (Nat.not_lt_zero _)
  | succ fuel ih =>
    obtain ⟨verdict, sr', hsolve, hstops, hsame⟩ := h.underway.solve cov hroot
    have hstart := hsame.root.trans h.underway.start
    simp only [improve, hsolve, bind, Except.bind]
    cases hstops with
    | stopped pursues le kept added =>
      refine ⟨_, told, vals, sr', rfl, h.handed, ?_, hstart, pursues.leads⟩
      cases hlast : (told.map Solver.solution).getLast? with
      | none => exact .unknown (List.getLast?_eq_none_iff.mp hlast)
      | some sol => exact .satisfiable hlast
    | exhausted nothing leads =>
      exact ⟨_, told, vals, sr', rfl, h.handed, h.concludes nothing, hstart, leads⟩
    | @found _ acc' pursues reported shorter owed kept added struck =>
      have hnarrower : root.store.Narrower sr'.solver.store := reported.leads.narrower hroot.wf
      obtain ⟨a, hread, honly⟩ := reported.reads
      have ha : sr'.solver.store.Admits a := (honly a).mpr rfl
      have hsolves : root.Solves a := ⟨h.added a (owed a ha),
        hright _ reported.leads reported.rest reported.decided a ha⟩
      have hvalue : sr'.solver.solution.value cost = .ok (cost.exactValue a.int) :=
        hread.value cost ((hnarrower.knows _).trans hknown) (hranges.narrower hnarrower)
      -- the values of the cost leave room for the next bound to be computed
      have hfits : Width.value.Fits (cost.exactValue a.int - 1) := by
        have hinterior := hcost.fits (IntVar.takes_exactValue hsolves.1 cost)
        simp only [Width.Fits, Width.interior, Width.value, minValue, maxValue] at hinterior ⊢
        omega
      have hkept : ∀ b, root.Satisfies b → acc.Owes b → Meets sr.solver.cut? b →
          b = a ∨ acc'.Owes b := fun b hsat hb hmeets =>
        (kept b hsat hb hmeets).imp_left (honly b).mp
      have hnext := h.next hroot.wf hknown hranges hsame pursues reported.stage shorter.le hread
        hsolves (reported.meets h.sharp a ha) hkept added
      have htold : (told ++ [sr'.solver]).map Solver.solution
          = told.map Solver.solution ++ [sr'.solver.solution] := List.map_append
      rw [← htold] at hnext
      obtain ⟨result, told', vals', last, hrun, hrest⟩ := ih hnext (by omega)
      refine ⟨result, told', vals', last, ?_, hrest⟩
      rw [htold, List.getLast?_concat, tellAll, List.map_append, List.reverse_append] at hrun
      simp only [hvalue, if_pos hfits]
      exact hrun

omit cov hroot hright in
theorem lowers_scaled {goal : Goal} {objective cost : IntVar}
    (h : objective.scaled goal.factor = .ok cost) : Lowers cost = goal.Beats objective := by
  funext a b
  unfold Lowers
  rw [IntVar.exactValue_scaled h, IntVar.exactValue_scaled h]
  rfl

omit cov hroot hright in
theorem except_bind_ok {β γ : Type} (x : β) (k : β → Except Fault γ) : (Except.ok x >>= k) = k x :=
  rfl

omit cov hroot hright in
/-- An optimisation is a search for better and better solutions that goes back to the root. -/
theorem optimise_eq {sr last restored : Search Filter B T} {goal : Goal} {objective cost : IntVar}
    {account : Solver Filter → Solution → Except Fault α} {result : Optimisation}
    {accounts : List α} (hscaled : objective.scaled goal.factor = .ok cost)
    (himprove : sr.improve cost account sr.stepBound none [] = .ok (result, accounts, last))
    (hrestore : last.restore = .ok restored) :
    sr.optimise goal objective account = .ok (result, accounts.reverse, restored) := by
  unfold optimise
  -- the number of attempts is never to be evaluated
  generalize sr.stepBound = fuel at himprove ⊢
  rw [hscaled, except_bind_ok, himprove, except_bind_ok]
  dsimp only
  rw [hrestore]
  rfl

omit cov hroot hright in
/-- How an optimisation goes. -/
theorem optimise_cases {sr sr' : Search Filter B T} {goal : Goal} {objective : IntVar}
    {account : Solver Filter → Solution → Except Fault α} {result : Optimisation}
    {accounts : List α} (hrun : sr.optimise goal objective account = .ok (result, accounts, sr')) :
    ∃ cost accounts' last, sr.improve cost account sr.stepBound none [] = .ok (result, accounts', last)
      ∧ last.restore = .ok sr' ∧ accounts = accounts'.reverse := by
  unfold optimise at hrun
  generalize sr.stepBound = fuel at hrun ⊢
  cases hscaled : objective.scaled goal.factor with
  | error e => rw [hscaled] at hrun; cases hrun
  | ok cost =>
    rw [hscaled, except_bind_ok] at hrun
    cases himprove : sr.improve cost account fuel none [] with
    | error e => rw [himprove] at hrun; cases hrun
    | ok r =>
      obtain ⟨result', accounts', last⟩ := r
      rw [himprove, except_bind_ok] at hrun
      dsimp only at hrun
      cases hrestore : last.restore with
      | error e => rw [hrestore] at hrun; cases hrun
      | ok restored =>
        rw [hrestore] at hrun
        cases hrun
        exact ⟨cost, accounts', last, himprove, hrestore, rfl⟩

omit cov hroot hright in
/-- The optimisation of a search that has not been entered. -/
theorem optimise_spec {sr : Search Filter B T} {goal : Goal} {objective cost : IntVar}
    (cov : Covering sr.solver.store fits) (hrest : sr.solver.space.AtRest .clashes)
    (hstart : sr.solver.root? = none) (hlevels : sr.solver.levels = [])
    (hdecision : sr.solver.decision? = none) (hcut : sr.solver.cut? = none)
    (hfeasible : sr.solver.infeasible = false) (hfits : fits sr.solver.store sr.brancher)
    (hknown : sr.solver.store.knows (.int objective.base) = true)
    (hscaled : objective.scaled goal.factor = .ok cost)
    (hcost : cost.Ranges Width.interior sr.solver.store) (tell : Solver Filter → Solution → α) :
    ∃ (result : Optimisation) (told : List (Solver Filter)) (vals : List Valuation)
      (sr' : Search Filter B T),
      sr.optimise goal objective (fun sv sol => .ok (tell sv sol))
        = .ok (result, tellAll tell told, sr')
      ∧ Handed sr.solver.space.Solves (goal.Beats objective) (told.map Solver.solution) vals
      ∧ Concludes sr.solver.space.Solves (goal.Beats objective) (told.map Solver.solution) vals
        result := by
  rw [← lowers_scaled hscaled]
  have hunderway : Underway .clashes sr.solver.space fits Store.Fixed sr _ :=
    underway_of_root hstart hlevels hdecision hcut hfeasible hfits
  have hknown' : sr.solver.store.knows (.int cost.base) = true := by
    rw [IntVar.base_scaled hscaled]
    exact hknown
  have himproving := hunderway.improving cost hcut Account.owes_nil
  obtain ⟨result, told, vals, last, hrun, hhanded, hconcludes, hstart', hleads⟩ :=
    @improve_spec _ _ _ _ _ _ _ _ _ _ _ _ cov.serving hrest (Space.conclusive_clashes _)
      hknown' hcost tell _ [] himproving (hunderway.cost_lt_stepBound cov.serving)
  obtain ⟨restored, hrestore⟩ := restore_spec hrest hstart' hleads
  refine ⟨result, told, vals, restored, ?_, hhanded, hconcludes⟩
  rw [optimise_eq hscaled hrun hrestore, List.reverse_reverse]

/-- A search without a limit does not give up. -/
theorem improve_indefinite {fuel : Nat} {account : Solver Filter → Solution → Except Fault α}
    {best? : Option Solution} {accounts accounts' : List α} {result : Optimisation}
    {sr sr' : Search Filter B Limit} (hlimit : sr.limit = .indefinite)
    (hrun : sr.improve cost account fuel best? accounts = .ok (result, accounts', sr')) :
    result = .unsatisfiable ∨ ∃ sol, result = .optimal sol := by
  induction fuel generalizing sr best? accounts with
  | zero => cases hrun
  | succ fuel ih =>
    simp only [improve, bind, Except.bind] at hrun
    split at hrun
    · cases hrun
    next r hsolve =>
      obtain ⟨verdict, mid⟩ := r
      obtain ⟨hne, hmid⟩ := solve_indefinite hlimit hsolve
      cases verdict with
      | stopped => exact absurd rfl hne
      | exhausted =>
        cases hrun
        cases best? with
        | none => exact Or.inl rfl
        | some sol => exact Or.inr ⟨sol, rfl⟩
      | found =>
        simp only at hrun
        split at hrun
        · cases hrun
        split at hrun
        · cases hrun
        split at hrun
        · refine ih ?_ hrun
          exact hmid
        · cases hrun
          exact Or.inr ⟨_, rfl⟩

theorem optimise_indefinite {goal : Goal} {objective : IntVar}
    {account : Solver Filter → Solution → Except Fault α} {accounts : List α}
    {result : Optimisation} {sr sr' : Search Filter B Limit} (hlimit : sr.limit = .indefinite)
    (hrun : sr.optimise goal objective account = .ok (result, accounts, sr')) :
    result = .unsatisfiable ∨ ∃ sol, result = .optimal sol := by
  obtain ⟨cost, accounts', last, himprove, -⟩ := optimise_cases hrun
  exact improve_indefinite hlimit himprove

end Search

/-! ### Models -/

namespace Solver

open Search

variable {sv : Solver Filter} {m : Model} {T α : Type} [Termination T]

/-- A solver that is known to have no solution improves nothing. -/
theorem improve_infeasible {B : Type} [Brancher B] (hinfeasible : sv.infeasible = true) (b : B)
    (limit : T) (cost : IntVar) (account : Solver Filter → Solution → Except Fault α) :
    (Search.mk sv b limit).improve cost account (Search.mk sv b limit).stepBound none []
      = .ok (.unsatisfiable, [], ⟨sv, b, limit⟩) := by
  obtain ⟨fuel, hfuel⟩ := (Search.mk sv b limit).exists_stepBound
  rw [hfuel, improve, solve_infeasible hinfeasible]
  rfl

/-- The optimisation of a solver that represents a model. -/
theorem Models.optimise_spec (h : sv.Models m) (hinterior : m.domains.Interior) {b : Strategy}
    (hb : b.Suits sv.store) {goal : Goal} {objective cost : IntVar}
    (hscaled : objective.scaled goal.factor = .ok cost)
    (hknown : m.domains.knows (.int objective.base) = true)
    (hcost : cost.Ranges Width.interior m.domains) (limit : T)
    (tell : Solver Filter → Solution → α) :
    ∃ (result : Optimisation) (told : List (Solver Filter)) (vals : List Valuation)
      (sr' : Search Filter Strategy T),
      (Search.mk sv b limit).optimise goal objective (fun sv sol => .ok (tell sv sol))
        = .ok (result, tellAll tell told, sr')
      ∧ Handed m.Solves (goal.Beats objective) (told.map Solver.solution) vals
      ∧ Concludes m.Solves (goal.Beats objective) (told.map Solver.solution) vals result := by
  -- a model known to have no solution is not searched
  have hresting := h.represents.resting
  cases hinfeasible : sv.infeasible with
  | true =>
    obtain ⟨last, hrestore⟩ := @restore_of_root _ _ _ ⟨sv, b, limit⟩ hresting.root
    have himprove := improve_infeasible hinfeasible b limit cost fun sv sol => .ok (tell sv sol)
    refine ⟨.unsatisfiable, [], [], last, ?_, ⟨.nil, fun a ha => (List.not_mem_nil ha).elim, .nil⟩,
      .unsatisfiable fun a ha => h.represents.refuted hinfeasible a ha.1 ha.2⟩
    rw [optimise_eq hscaled himprove hrestore]
    rfl
  | false =>
    have hnarrower := h.represents.narrower
    have hsolves : sv.space.Solves = m.Solves :=
      funext fun a => propext (h.represents.solves hinfeasible a)
    rw [← hsolves]
    exact @Search.optimise_spec _ _ _ _ _ _ (Search.mk sv b limit) _ _ _
      (Strategy.covering_of_fits sv.store)
      (h.represents.rest hinfeasible) hresting.root hresting.levels hresting.decision hresting.cut
      hinfeasible (Strategy.fits_of_suits (hinterior.narrower hnarrower) hb)
      ((hnarrower.knows _).trans hknown) hscaled (hcost.narrower hnarrower) tell

/-- Branch and bound is correct: for every list of statements that fit, and every objective that
    can be turned into a cost to be minimised, the solutions that are handed out satisfy the
    constraints and each is better than those before; the result fits them and the solutions that
    there are, and without a limit it is decided. -/
theorem optimises {random : Random} {statements : List Statement}
    (hfits : Model.empty.Fits statements)
    (hinterior : (Model.empty.state statements).domains.Interior) {goal : Goal}
    {objective cost : IntVar} (hscaled : objective.scaled goal.factor = .ok cost)
    (hknown : (Model.empty.state statements).domains.knows (.int objective.base) = true)
    (hcost : cost.Ranges Width.interior (Model.empty.state statements).domains) :
    ∃ sv, (Solver.empty random).state statements = .ok sv ∧ ∀ b : Strategy, b.Suits sv.store →
      ∀ (α : Type) (tell : Solver Filter → Solution → α),
        (∀ (T : Type) [Termination T] (limit : T),
          ∃ (result : Optimisation) (told : List (Solver Filter)) (vals : List Valuation)
            (sr' : Search Filter Strategy T),
            (Search.mk sv b limit).optimise goal objective (fun sv sol => .ok (tell sv sol))
              = .ok (result, tellAll tell told, sr')
            ∧ Handed (Model.empty.state statements).Solves (goal.Beats objective)
              (told.map Solver.solution) vals
            ∧ Concludes (Model.empty.state statements).Solves (goal.Beats objective)
              (told.map Solver.solution) vals result)
        ∧ ∀ result accounts sr',
          (Search.mk sv b Limit.indefinite).optimise goal objective
            (fun sv sol => .ok (tell sv sol)) = .ok (result, accounts, sr') →
          result = .unsatisfiable ∨ ∃ sol, result = .optimal sol := by
  obtain ⟨sv, hstate, hmodels⟩ := (models_empty random).state hfits
  refine ⟨sv, hstate, fun b hb α tell => ⟨?_, ?_⟩⟩
  · intro T _ limit
    exact hmodels.optimise_spec hinterior hb hscaled hknown hcost limit tell
  · intro result accounts sr' hrun
    exact optimise_indefinite rfl hrun

/-- The greatest first value of two ascending ones; nothing is told of the solutions but their
    stores. -/
theorem optimises_ascending :
    ∃ sv, (Solver.empty (Random.ofSeed 7)).state ascending = .ok sv ∧
      ∃ (result : Optimisation) (told : List (Solver Filter)) (vals : List Valuation)
        (sr' : Search Filter Strategy Limit),
        (Search.mk sv (Strategy.standard sv.store) Limit.indefinite).optimise .maximise (.plain ⟨0⟩)
            (fun _ sol => .ok sol.store)
          = .ok (result, tellAll (fun _ sol => sol.store) told, sr')
        ∧ Handed (Model.empty.state ascending).Solves (Goal.maximise.Beats (.plain ⟨0⟩))
          (told.map Solver.solution) vals
        ∧ Concludes (Model.empty.state ascending).Solves (Goal.maximise.Beats (.plain ⟨0⟩))
          (told.map Solver.solution) vals result
        ∧ (result = .unsatisfiable ∨ ∃ sol, result = .optimal sol) := by
  have hcost : (IntVar.view (.plain ⟨0⟩) ⟨-1, 0, by decide⟩).Ranges Width.interior
      (Model.empty.state ascending).domains := by
    intro v hv
    have h := @ascending_bounds ⟨0⟩ v (by decide) hv
    simp only [IntVar.Within, IntVar.image, AffineMap.image, Width.Fits, Width.interior,
      Width.value, minValue, maxValue]
    omega
  obtain ⟨sv, hstate, hall⟩ :=
    @optimises (Random.ofSeed 7) _ ascending_fits ascending_interior .maximise (.plain ⟨0⟩) _ rfl
      (by decide) hcost
  obtain ⟨hspec, hdecided⟩ := hall (Strategy.standard sv.store) (Or.inl rfl) Store fun _ sol => sol.store
  obtain ⟨result, told, vals, sr', hrun, hhanded, hconcludes⟩ := hspec Limit Limit.indefinite
  exact ⟨sv, hstate, result, told, vals, sr', hrun, hhanded, hconcludes, hdecided _ _ _ hrun⟩

end Solver

end FiniteDomain
