import FiniteDomain.Proofs.Propagation.Lapse
import FiniteDomain.Proofs.Search.Account
import FiniteDomain.Search.SolutionStream

/-! # A search finds every solution once

    A search that is continued after each solution, without a limit that stops it,
    hands out the solutions of the space it started from: each of them, nothing
    else, and none twice (`SolutionStream.toList_of_conclusive`).  For that whatever
    is left at rest, once everything is fixed, has to satisfy the constraints
    (`Space.Conclusive`).  Where propagation has seen to clashes it does
    (`SolutionStream.toList_spec`). -/

namespace FiniteDomain

/-! ### Reading solutions -/

theorem Digraph.Wf.mem_arcList {g : Digraph} {order : Nat} (hg : g.Wf order) {tail head : Nat} :
    (tail, head) ∈ g.arcList ↔ g.hasArc tail head = true := by
  unfold Digraph.arcList
  simp only [List.mem_flatMap, List.mem_range, List.mem_map, Prod.mk.injEq, hg.mem_successorsOf]
  constructor
  · rintro ⟨t, -, h, harc, rfl, rfl⟩
    exact harc
  · intro harc
    refine ⟨tail, ?_, head, harc, rfl, rfl⟩
    rw [hg.successors.size]
    exact (hg.lt_of_hasArc harc).1

theorem Digraph.mem_nodeList {g : Digraph} {n : Nat} : n ∈ g.nodeList ↔ g.hasNode n = true :=
  BitSet.mem_toList

/-- What the solution tells of its variables is what the valuation gives to them. -/
structure Solution.Reads (sol : Solution) (a : Valuation) : Prop where
  /-- Integer variables and views have their values. -/
  value : ∀ x : IntVar, sol.store.knows (.int x.base) = true → x.Ranges Width.value sol.store →
    sol.value x = .ok (x.exactValue a.int)
  /-- Sets have their elements. -/
  elements : ∀ y e, e ∈ sol.elements y ↔ e ∈ a.set y
  /-- Graphs have their nodes. -/
  nodes : ∀ g n, n ∈ sol.nodes g ↔ n ∈ (a.graph g).nodes
  /-- Graphs have their arcs. -/
  arcs : ∀ g tail head, (tail, head) ∈ sol.arcs g ↔ (tail, head) ∈ (a.graph g).arcs

/-- A store in which everything is fixed is a solution that reads as the valuation that is left. -/
theorem Solution.reads_of_settles {s : Store} {a : Valuation} (hs : s.Wf) (ha : s.Admits a)
    (hall : ∀ v, s.knows v = true → s.Settles v) : Solution.Reads ⟨s⟩ a where
  value := fun x hx hranges => by
    have hfixed : x.isFixed s = true := by
      rw [IntVar.isFixed_eq hs hranges]
      exact hall _ hx
    have hvalue := IntVar.eq_lowerBound_of_isFixed hs hranges hfixed (IntVar.takes_exactValue ha x)
    simp only [Solution.value, Store.require, hx, if_true, hfixed, bind, Except.bind, hvalue]
    rfl
  elements := fun y e => by
    have hsettles : s.Settles (.set y) := by
      cases hy : s.knows (.set y) with
      | true => exact hall _ hy
      | false => exact Store.settles_of_unknown hy
    rw [SetDomain.admits_unique (hs.set y) hsettles (ha.set y)]
    exact SetDomain.mem_kernelElements (hs.set y)
  nodes := fun g n => by
    have hsettles : s.Settles (.graph g) := by
      cases hg : s.knows (.graph g) with
      | true => exact hall _ hg
      | false => exact Store.settles_of_unknown hg
    rw [GraphDomain.admits_unique (hs.graph g) hsettles (ha.graph g)]
    exact Digraph.mem_nodeList
  arcs := fun g tail head => by
    have hsettles : s.Settles (.graph g) := by
      cases hg : s.knows (.graph g) with
      | true => exact hall _ hg
      | false => exact Store.settles_of_unknown hg
    rw [GraphDomain.admits_unique (hs.graph g) hsettles (ha.graph g)]
    exact (hs.graph g).kernel.mem_arcList

/-! ### What is left in the end -/

namespace Space

/-- Once everything is fixed, what is left in spaces at rest that come from the root satisfies the
    constraints. -/
def Conclusive (k : Concern) (root : Space Filter) : Prop :=
  ∀ sp, root.Leads sp → sp.AtRest k → sp.store.Fixed →
    ∀ a, sp.store.Admits a → root.Satisfies a

/-- A constraint without a clash is satisfied. -/
theorem conclusive_clashes (root : Space Filter) : root.Conclusive .clashes := by
  intro sp hleads hrest hfixed a ha
  have hsolves := solves_of_settles hrest.watchful hrest.settled hfixed ha
  exact (hleads.satisfies a).mp hsolves.2

/-- A constraint whose filter is at rest has been checked as far as the filter does, which is enough
    if nothing but solutions passes all filters. -/
theorem conclusive_lapses {root : Space Filter} (hwf : root.store.Wf)
    (hpasses : ∀ a, root.Passes a → root.Satisfies a) : root.Conclusive .lapses := by
  intro sp hleads hrest hfixed a ha
  have hpassed : sp.Passes a := by
    refine ⟨ha, fun i f hf => hrest.watchful.passes hrest.settled hf (fun v hv => ?_) ha⟩
    exact hfixed v ((hrest.watchful.ready i f hf).known v hv)
  exact hpasses a (hleads.passes hwf hpassed)

end Space

/-! ### Calls of a search -/

namespace Search

variable {k : Concern} {B T : Type} [Brancher B] [Termination T] {root : Space Filter}
  {fits : Store → B → Prop} {final : Store → Prop} {sr sr' : Search Filter B T} {acc : Account}
  {verdict : Verdict}

/-- The search, once it is entered, started from the root and owes what the account says. -/
structure Underway (k : Concern) (root : Space Filter) (fits : Store → B → Prop)
    (final : Store → Prop) (sr : Search Filter B T) (acc : Account) : Prop where
  /-- The model may have solutions. -/
  feasible : sr.solver.infeasible = false
  /-- What the search owes. -/
  pursues : Pursues k root fits final (sr.update Solver.enter) acc
  /-- Where the search started. -/
  start : sr.solver.enter.root? = some ⟨root.store.checkpoint, root.store.contents⟩
  /-- No more than at the start. -/
  cost : acc.cost ≤ 7 * root.store.contents
  /-- The demand can be carried out. -/
  cut : CutKnown root.store sr.solver.cut?

omit [Brancher B] [Termination T] in
/-- A search that has not been entered begins with all valuations of the root, if its space is like
    the root. -/
theorem underway_of_alike (halike : root.Alike sr.solver.space) (hroot : sr.solver.root? = none)
    (hlevels : sr.solver.levels = []) (hdecision : sr.solver.decision? = none)
    (hcut : sr.solver.cut? = none) (hfeasible : sr.solver.infeasible = false)
    (hfits : fits root.store sr.brancher) :
    Underway k root fits final sr ⟨[], root.store.Admits, 7 * root.store.contents - 3⟩ := by
  have hstore : sr.solver.store = root.store := halike.store
  have henter : sr.solver.enter
      = { sr.solver with root? := some ⟨root.store.checkpoint, root.store.contents⟩
                         stage := .propagate } := by
    simp only [Solver.enter, hroot, hstore]
  refine ⟨hfeasible, ?_, by rw [henter], Nat.sub_le _ _, hcut ▸ cutKnown_none _⟩
  unfold update
  rw [henter]
  exact .root rfl hlevels hdecision hcut halike hfits

omit [Brancher B] [Termination T] in
/-- A search that has not been entered begins with all valuations of its store. -/
theorem underway_of_root (hroot : sr.solver.root? = none)
    (hlevels : sr.solver.levels = []) (hdecision : sr.solver.decision? = none)
    (hcut : sr.solver.cut? = none) (hfeasible : sr.solver.infeasible = false)
    (hfits : fits sr.solver.store sr.brancher) :
    Underway k sr.solver.space fits final sr
      ⟨[], sr.solver.store.Admits, 7 * sr.solver.store.contents - 3⟩ :=
  underway_of_alike (.refl _) hroot hlevels hdecision hcut hfeasible hfits

omit [Brancher B] [Termination T] in
/-- What holds where a run stopped holds for the next call. -/
theorem Underway.next (h : Underway k root fits final sr acc) {acc' : Account}
    (hsame : SameTask sr.solver.enter sr'.solver) (hpursues : Pursues k root fits final sr' acc')
    (hle : acc'.cost ≤ acc.cost) : Underway k root fits final sr' acc' := by
  have hstart : sr'.solver.root? = some ⟨root.store.checkpoint, root.store.contents⟩ :=
    hsame.root.trans h.start
  have henter : sr'.solver.enter = sr'.solver := enter_eq_self hstart
  refine ⟨?_, ?_, ?_, hle.trans h.cost, ?_⟩
  · rw [hsame.infeasible, infeasible_enter]
    exact h.feasible
  · unfold update
    rw [henter]
    exact hpursues
  · rw [henter]
    exact hstart
  · rw [hsame.cut, cut?_enter]
    exact h.cut

omit [Brancher B] [Termination T] in
/-- Where the search is about to go back, its demand can be replaced. -/
theorem Underway.setCut (h : Underway k root fits final sr acc) (hstage : sr.solver.stage = .backtrack)
    (hstart : sr.solver.root? = some ⟨root.store.checkpoint, root.store.contents⟩) {p : Predicate}
    (hcut : CutKnown root.store (some p)) :
    Underway k root fits final (sr.update (·.setCut p)) acc := by
  have henter : sr.solver.enter = sr.solver := enter_eq_self hstart
  have henter' : (sr.solver.setCut p).enter = sr.solver.setCut p := enter_eq_self hstart
  have hpursues : Pursues k root fits final sr acc := by
    have hpursues := h.pursues
    unfold update at hpursues
    rw [henter] at hpursues
    exact hpursues
  refine ⟨h.feasible, ?_, ?_, h.cost, hcut⟩
  · show Pursues k root fits final ⟨(sr.solver.setCut p).enter, sr.brancher, sr.limit⟩ acc
    rw [henter']
    cases hpursues with
    | backtrack stage levels stacked brancher => exact .backtrack hstage levels stacked brancher
    | select stage => exact absurd (stage.symm.trans hstage) (by decide)
    | decide stage => exact absurd (stage.symm.trans hstage) (by decide)
    | root stage => exact absurd (stage.symm.trans hstage) (by decide)
    | alternative stage => exact absurd (stage.symm.trans hstage) (by decide)
    | solution stage => exact absurd (stage.symm.trans hstage) (by decide)
    | done stage => exact absurd (stage.symm.trans hstage) (by decide)
  · show (sr.solver.setCut p).enter.root? = _
    rw [henter']
    exact hstart

variable (cov : Serving root.store fits final) (hroot : root.AtRest k)

include cov in
omit [Termination T] in
/-- A call of the search has enough fuel. -/
theorem Underway.cost_lt_stepBound (h : Underway k root fits final sr acc) : acc.cost < sr.stepBound := by
  have hcontents : sr.solver.rootContents = root.store.contents := by
    rw [← rootContents_enter, Solver.rootContents, h.start]
    rfl
  obtain ⟨s, hfits⟩ : ∃ s, fits s sr.brancher := h.pursues.exists_fits
  unfold stepBound
  generalize patience = slack
  have hcost := h.cost
  rw [cov.excess hfits, hcontents]
  omega

include cov hroot in
/-- A call of the search stops, and what it stops for is right. -/
theorem Underway.solve (h : Underway k root fits final sr acc) :
    ∃ verdict sr', sr.solve = .ok (verdict, sr')
      ∧ Stops k root fits final sr.solver.cut? acc verdict sr'
      ∧ SameTask sr.solver.enter sr'.solver := by
  have hcut : CutKnown root.store (sr.update Solver.enter).solver.cut? := by
    show CutKnown root.store sr.solver.enter.cut?
    rw [cut?_enter]
    exact h.cut
  obtain ⟨verdict, sr', hrun, hstops, hsame⟩ :=
    run_spec cov hroot hcut h.pursues (h.cost_lt_stepBound cov)
  refine ⟨verdict, sr', ?_, ?_, hsame⟩
  · unfold Search.solve
    rw [h.feasible, if_neg Bool.false_ne_true]
    exact hrun
  · rw [← cut?_enter]
    exact hstops

include hroot in
omit [Termination T] in
/-- A search can be given up at any time. -/
theorem restore_spec (hstart : sr.solver.root? = some ⟨root.store.checkpoint, root.store.contents⟩)
    (hleads : root.Leads sr.solver.space) : ∃ sr', sr.restore = .ok sr' := by
  obtain ⟨t, hback, -⟩ := Space.backtrackTo_leads hroot.settled hroot.wf hleads
  simp only [restore, hstart, hback, bind, Except.bind]
  exact ⟨_, rfl⟩

/-! ### Solutions that are reported -/

omit [Brancher B] [Termination T] in
/-- When everything is fixed, the store that is reported is a solution that reads as the only
    valuation that is left. -/
theorem Reported.reads {cut? : Option Predicate} (h : Reported k root Store.Fixed cut? sr) :
    ∃ a, sr.solver.solution.Reads a ∧ ∀ b, sr.solver.store.Admits b ↔ b = a := by
  have hwf : sr.solver.store.Wf := h.rest.wf
  obtain ⟨a, ha⟩ := hwf.exists_admits
  refine ⟨a, Solution.reads_of_settles hwf ha h.decided, fun b => ⟨fun hb => ?_, fun hb => ?_⟩⟩
  · exact Store.admits_unique hwf h.decided hb ha
  · exact hb ▸ ha

/-! ### Limits that do not stop -/

/-- A search without a limit goes on without one. -/
theorem Transition.indefinite {sr sr' : Search Filter B Limit} {verdict? : Option Verdict}
    (h : Transition sr verdict? sr') (hlimit : sr.limit = .indefinite) :
    verdict? ≠ some .stopped ∧ sr'.limit = .indefinite := by
  constructor
  · rintro rfl
    cases h with
    | stopped hstop hstage =>
      unfold poll at hstop
      rw [hlimit] at hstop
      cases hstop
  · have hsteady : Steady (· = Limit.indefinite) := by
      constructor <;>
        (rintro _ rfl
         rfl)
    exact hsteady.transition h hlimit

theorem run_indefinite {sr sr' : Search Filter B Limit} {fuel : Nat}
    (hlimit : sr.limit = .indefinite) (hrun : sr.run fuel = .ok (verdict, sr')) :
    verdict ≠ .stopped ∧ sr'.limit = .indefinite := by
  induction fuel generalizing sr with
  | zero => cases hrun
  | succ fuel ih =>
    simp only [Search.run, bind, Except.bind] at hrun
    split at hrun
    · cases hrun
    next r hstep =>
      obtain ⟨verdict?, next⟩ := r
      obtain ⟨hne, hnext⟩ := (transition_of_step hstep).indefinite hlimit
      cases verdict? with
      | some v =>
        cases hrun
        exact ⟨fun heq => hne (congrArg some heq), hnext⟩
      | none => exact ih hnext hrun

theorem solve_indefinite {sr sr' : Search Filter B Limit} (hlimit : sr.limit = .indefinite)
    (hsolve : sr.solve = .ok (verdict, sr')) : verdict ≠ .stopped ∧ sr'.limit = .indefinite := by
  unfold Search.solve at hsolve
  split at hsolve
  · cases hsolve
    exact ⟨nofun, hlimit⟩
  · have hlimit' : (sr.update Solver.enter).limit = .indefinite := hlimit
    exact run_indefinite hlimit' hsolve

end Search

/-! ### Streams -/

namespace SolutionStream

open Search

variable {k : Concern} {B : Type} [Brancher B] {root : Space Filter} {fits : Store → B → Prop}
  {acc : Account}

/-- The answer that ends a stream: whether there was a solution. -/
def lastAnswer (hasSolution : Bool) : StreamAnswer :=
  if hasSolution then .finished else .unsatisfiable

/-- The solutions read as the valuations, one by one; these are the ones that satisfy the
    condition, without repetition. -/
def Lists (sols : List Solution) (condition : Valuation → Prop) : Prop :=
  ∃ vals : List Valuation, List.Forall₂ Solution.Reads sols vals ∧ vals.Nodup
    ∧ ∀ a, a ∈ vals ↔ condition a

/-- Where nothing satisfies the condition there is nothing to list. -/
theorem Lists.nil {condition : Valuation → Prop} (h : ∀ a, ¬ condition a) : Lists [] condition :=
  ⟨[], .nil, .nil, fun a => ⟨fun ha => (List.not_mem_nil ha).elim, fun ha => (h a ha).elim⟩⟩

/-- A solution that is struck off is listed before the others. -/
theorem Lists.cons {sol : Solution} {sols : List Solution} {a : Valuation}
    {condition condition' : Valuation → Prop} (h : Lists sols condition') (hread : sol.Reads a)
    (howed : condition a) (hstruck : ¬ condition' a)
    (hkept : ∀ b, condition b → b = a ∨ condition' b) (hadded : ∀ b, condition' b → condition b) :
    Lists (sol :: sols) condition := by
  obtain ⟨vals, hreads, hnodup, hmem⟩ := h
  refine ⟨a :: vals, .cons hread hreads,
    List.nodup_cons.mpr ⟨fun ha => hstruck ((hmem a).mp ha), hnodup⟩, fun b => ?_⟩
  rw [List.mem_cons, hmem]
  constructor
  · rintro (rfl | hb)
    · exact howed
    · exact hadded b hb
  · exact hkept b

theorem Lists.congr {sols : List Solution} {condition condition' : Valuation → Prop}
    (h : Lists sols condition) (hiff : ∀ a, condition a ↔ condition' a) : Lists sols condition' := by
  obtain ⟨vals, hreads, hnodup, hmem⟩ := h
  exact ⟨vals, hreads, hnodup, fun a => (hmem a).trans (hiff a)⟩

/-- The valuation satisfies the constraints of the root and is still owed. -/
def Due (root : Space Filter) (acc : Account) (a : Valuation) : Prop :=
  acc.Owes a ∧ root.Satisfies a

theorem due_root {here : Nat} (a : Valuation) :
    Due root ⟨[], root.store.Admits, here⟩ a ↔ root.Solves a :=
  and_congr_left' (Account.owes_nil a)

omit [Brancher B] in
/-- A solution that is reported is listed before those that are due afterwards. -/
theorem Lists.found {T : Type} {sr : Search Filter B T} {acc' : Account} {sols : List Solution}
    (h : Lists sols (Due root acc')) (hroot : root.Conclusive k)
    (hreported : Reported k root Store.Fixed none sr)
    (howed : ∀ a, sr.solver.store.Admits a → acc.Owes a)
    (hkept : ∀ a, root.Satisfies a → acc.Owes a → Meets none a →
      sr.solver.store.Admits a ∨ acc'.Owes a)
    (hadded : ∀ a, acc'.Owes a → acc.Owes a)
    (hstruck : ∀ a, sr.solver.store.Admits a → ¬ acc'.Owes a) :
    Lists (sr.solver.solution :: sols) (Due root acc) := by
  obtain ⟨a, hread, honly⟩ := hreported.reads
  have ha : sr.solver.store.Admits a := (honly a).mpr rfl
  have hsat : root.Satisfies a :=
    hroot _ hreported.leads hreported.rest hreported.decided a ha
  refine h.cons hread ⟨howed a ha, hsat⟩ (fun hdue => hstruck a ha hdue.1) (fun b hb => ?_)
    fun b hb => ⟨hadded b hb.1, hb.2⟩
  rcases hkept b hb.2 hb.1 (meets_none b) with hadmits | howes
  · exact Or.inl ((honly b).mp hadmits)
  · exact Or.inr ⟨howes, hb.2⟩

/-- A stream hands out what is due. -/
theorem drain_spec (cov : Serving root.store fits Store.Fixed) (hrest : root.AtRest k)
    (hroot : root.Conclusive k) {fuel : Nat} {latestFirst : List Solution}
    {st : SolutionStream Filter B Limit} (h : Underway k root fits Store.Fixed st.search acc)
    (hlimit : st.search.limit = .indefinite) (hcut : st.search.solver.cut? = none)
    (hfuel : acc.cost < fuel) :
    ∃ sols st', st.drain fuel latestFirst = .ok (latestFirst.reverse ++ sols,
        lastAnswer (st.hasSolution || !sols.isEmpty), st')
      ∧ Lists sols (Due root acc) := by
  -- on the fuel, which exceeds the cost; each solution lowers the cost and is struck off
  induction fuel generalizing acc latestFirst st with
  | zero => exact absurd hfuel (Nat.not_lt_zero _)
  | succ fuel ih =>
    obtain ⟨verdict, sr', hsolve, hstops, hsame⟩ := h.solve cov hrest
    rw [hcut] at hstops
    obtain ⟨hne, hlimit'⟩ := solve_indefinite hlimit hsolve
    simp only [drain, next, hsolve, bind, Except.bind]
    cases hstops with
    | stopped => exact absurd rfl hne
    | exhausted nothing leads =>
      obtain ⟨last, hrestore⟩ := restore_spec hrest (hsame.root.trans h.start) leads
      refine ⟨[], ⟨last, st.hasSolution⟩, ?_, .nil fun a ha => nothing a ha.2 ha.1 (meets_none a)⟩
      simp only [hrestore, pure, Except.pure, List.append_nil, List.isEmpty_nil, Bool.not_true,
        Bool.or_false, lastAnswer]
      cases st.hasSolution <;> rfl
    | @found _ acc' pursues reported shorter owed kept added struck =>
      have hunderway := h.next hsame pursues shorter.le
      have hcut' : sr'.solver.cut? = none := by
        rw [hsame.cut, cut?_enter]
        exact hcut
      obtain ⟨sols, st', hdrain, hlists⟩ :=
        @ih _ (sr'.solver.solution :: latestFirst) ⟨sr', true⟩ hunderway hlimit' hcut' (by omega)
      refine ⟨sr'.solver.solution :: sols, st', ?_,
        hlists.found hroot reported owed kept added struck⟩
      simp only [pure, Except.pure]
      rw [hdrain]
      simp [lastAnswer]

/-- A stream without a limit lists the solutions of the space that its search starts from, if what
    is left in the end satisfies the constraints. -/
theorem toList_of_conclusive {sr : Search Filter B Limit} (cov : Covering sr.solver.store fits)
    (hrest : sr.solver.space.AtRest k) (hroot : sr.solver.space.Conclusive k)
    (hstart : sr.solver.root? = none)
    (hlevels : sr.solver.levels = []) (hdecision : sr.solver.decision? = none)
    (hcut : sr.solver.cut? = none) (hfeasible : sr.solver.infeasible = false)
    (hfits : fits sr.solver.store sr.brancher) (hlimit : sr.limit = .indefinite) :
    ∃ sols st', (ofSearch sr).toList = .ok (sols, lastAnswer (!sols.isEmpty), st')
      ∧ Lists sols sr.solver.space.Solves := by
  have hunderway : Underway k sr.solver.space fits Store.Fixed (ofSearch sr).search _ :=
    underway_of_root hstart hlevels hdecision hcut hfeasible hfits
  obtain ⟨sols, st', hdrain, hlists⟩ :=
    @drain_spec _ _ _ _ _ _ cov.serving hrest hroot _ [] _ hunderway hlimit hcut
      (hunderway.cost_lt_stepBound cov.serving)
  exact ⟨sols, st', hdrain, hlists.congr due_root⟩

/-- Constraints without a clash are satisfied in the end. -/
theorem toList_spec {sr : Search Filter B Limit} (cov : Covering sr.solver.store fits)
    (hcalm : sr.solver.space.Calm) (hstart : sr.solver.root? = none)
    (hlevels : sr.solver.levels = []) (hdecision : sr.solver.decision? = none)
    (hcut : sr.solver.cut? = none) (hfeasible : sr.solver.infeasible = false)
    (hfits : fits sr.solver.store sr.brancher) (hlimit : sr.limit = .indefinite) :
    ∃ sols st', (ofSearch sr).toList = .ok (sols, lastAnswer (!sols.isEmpty), st')
      ∧ Lists sols sr.solver.space.Solves :=
  toList_of_conclusive cov hcalm.atRest (Space.conclusive_clashes _) hstart hlevels hdecision hcut
    hfeasible hfits hlimit

end SolutionStream

end FiniteDomain
