import FiniteDomain.Proofs.Filter.Saturated
import FiniteDomain.Proofs.Propagation.Concession
import FiniteDomain.Proofs.Search.Exclusion
import FiniteDomain.Proofs.Search.Lasting

/-! # Linear constraints over saturated terms

    A linear constraint is posted as filters for sums, and these work on what the
    terms show: an image beyond the range counts as the end of the range.  An
    equation is posted as two inequalities, of the terms and of the terms with
    their signs changed.

    So a linear constraint is exact for what the terms show.  No valuation is lost
    that satisfies it in this sense, and what is reported satisfies it
    (`linear_saturates`).  Where no image is beyond the range, and no term of an
    equation has the least value, whose opposite is beyond it, this is exactness
    over the integers. -/

namespace FiniteDomain

open LinearAtMost

variable {terms negated : List IntVar} {limit sum : Int} {s t : Store} {a : Valuation}
  {c : Constraint}

/-! ### Filters for sums -/

/-- The bounds of a view of a variable with a value are what the view shows. -/
theorem Solution.lowerBound_of_value {sol : Solution} {x : IntVar} {v : Int}
    (h : sol.value (.plain x.base) = .ok v) : x.lowerBound sol.store = x.shown v := by
  simp only [Solution.value, bind, Except.bind] at h
  split at h
  · cases h
  split at h
  next hfixed =>
    cases h
    have hsame : (sol.store.int x.base).upper = (sol.store.int x.base).lower :=
      (beq_iff_eq.mp hfixed).symm
    rw [(x.bounds_eq_shown sol.store).1, hsame, ite_self]
    rfl
  · cases h

namespace Filter

/-- The filter concedes what shows at most the limit. -/
theorem concedes_sumAtMost (hbase : Based terms s) (ha : shownSum terms a ≤ limit) :
    (Filter.sumAtMost terms limit).Concedes a s := by
  intro t hst hadmits c pass hrun
  rcases call_saturated hst.wf (hbase.narrower hst) c with ⟨e, hfault, -⟩ | ⟨pass', hpass, hran⟩
  · rw [hrun] at hfault
    cases hfault
  · obtain rfl := Except.ok.inj (hrun.symm.trans hpass)
    refine ⟨?_, hran.kept a hadmits ha⟩
    cases hrefusal : pass.refusal? with
    | none => rfl
    | some refusal => exact absurd ha (hran.refused refusal hrefusal a hadmits)

/-- The filter guards against stores whose least sum exceeds the limit. -/
theorem guards_sumAtMost :
    (Filter.sumAtMost terms limit).Guards fun s => limit < (terms.map (·.lowerBound s)).sum where
  call := fun hrun hsuccess => not_lt.mpr (least_le_of_call hrun hsuccess)
  watched := by
    intro s request hs hbeyond
    refine or_iff_not_imp_left.mpr fun hle => ?_
    -- the least sum has been raised, so one of the lower bounds has been
    obtain ⟨x, hx, hlt⟩ := List.exists_lt_of_sum_lt (fun x : IntVar => x.lowerBound s)
      (fun x : IntVar => x.lowerBound (request.apply s).store)
      (lt_of_le_of_lt (not_lt.mp hle) hbeyond)
    obtain ⟨i, hi⟩ := List.mem_iff_getElem?.mp hx
    refine ⟨x.watch (.ofList [.lowerBound]) ⟨i⟩, ?_, .int .lowerBound rfl hlt⟩
    exact List.mem_map.mpr ⟨(x, i), List.mk_mem_zipIdx_iff_getElem?.mpr hi, rfl⟩
  entailed := by
    intro s t hs hknown hholds ht hevolves
    have hjudged : (Filter.sumAtMost terms limit).entailment s
        = LinearAtMost.entailment terms limit s := by
      have hlookup := forM_require fun v hv => hknown v (judged_subset _ s v hv)
      simp only [Filter.entailment, hlookup, bind, Except.bind]
    have hgreatest := (entailment_saturated (hjudged.symm.trans hholds)).1 rfl
    -- what is left can only be less than the greatest values there were
    have hsum : (terms.map (·.lowerBound t)).sum ≤ (terms.map (·.upperBound s)).sum := by
      refine List.sum_le_sum fun x hx => ?_
      have hbase := hknown _ (base_mem_scope (f := .sumAtMost terms limit) hx)
      have hbounds := x.bounds_of_subset ht fun v hv => hevolves.contains ht hbase hv
      exact (x.lowerBound_le_upperBound ht).trans hbounds.2
    omega
  grows := by
    intro s t hknown hgrows hbeyond
    have hsame : terms.map (·.lowerBound t) = terms.map (·.lowerBound s) := by
      refine List.map_congr_left fun x hx => (x.bounds_congr).1 ?_
      rw [hgrows.int x.base (hknown _ (base_mem_scope (f := .sumAtMost terms limit) hx))]
      split <;> rfl
    rwa [hsame] at hbeyond

end Filter

/-! ### Terms with their signs changed -/

namespace LinearAtMost

/-- The sum of what the terms show with their signs changed. -/
def oppositeSum (terms : List IntVar) (a : Valuation) : Int :=
  (terms.map fun x => x.opposite (a.int x.base)).sum

/-- No term has the least value of the range, whose opposite is beyond it. -/
def Opposable (terms : List IntVar) (a : Valuation) : Prop :=
  ∀ x ∈ terms, x.unsaturated (a.int x.base) ≠ minValue

theorem shownSum_negated (h : terms.mapM IntVar.negated = .ok negated) (a : Valuation) :
    shownSum negated a = oppositeSum terms a := by
  refine congrArg List.sum (IntVar.map_negated (fun x y hy => ?_) h)
  rw [IntVar.base_scaled hy, IntVar.shown_negated hy]

/-- The variables below stay the same. -/
theorem exists_base_of_negated (h : terms.mapM IntVar.negated = .ok negated) {y : IntVar}
    (hy : y ∈ negated) : ∃ x ∈ terms, x.base = y.base := by
  have hbases : negated.map IntVar.base = terms.map IntVar.base :=
    IntVar.map_negated (fun _ _ hnegated => IntVar.base_scaled hnegated) h
  have hmem : y.base ∈ terms.map IntVar.base := hbases ▸ List.mem_map_of_mem hy
  exact List.mem_map.mp hmem

theorem based_negated (h : Based terms s) (hnegated : terms.mapM IntVar.negated = .ok negated) :
    Based negated s := by
  intro y hy
  obtain ⟨x, hx, hbase⟩ := exists_base_of_negated hnegated hy
  exact hbase ▸ h x hx

/-- Saturation may make the opposites too small in all, never too great. -/
theorem oppositeSum_le (h : ∀ x ∈ terms, Width.value.Fits (a.int x.base)) :
    oppositeSum terms a ≤ -shownSum terms a := by
  have hneg : -shownSum terms a = (terms.map fun x => -x.shown (a.int x.base)).sum := by
    rw [shownSum, List.sum_neg, List.map_map]
    rfl
  rw [hneg]
  exact List.sum_le_sum fun x hx => x.opposite_le (h x hx)

/-! ### Images in the range -/

/-- Where no image is beyond the range, what is shown are the values. -/
theorem shownSum_exact (h : ∀ x ∈ terms, x.Within Width.value (a.int x.base)) :
    shownSum terms a = (terms.map (·.exactValue a.int)).sum := by
  refine congrArg List.sum (List.map_congr_left fun x hx => ?_)
  rw [IntVar.shown_eq_image (h x hx), IntVar.exactValue_eq]

/-- The opposites then are what they should be, unless a term has the least value. -/
theorem oppositeSum_exact (h : ∀ x ∈ terms, x.Within Width.value (a.int x.base))
    (hopposable : Opposable terms a) : oppositeSum terms a = -shownSum terms a := by
  rw [shownSum, List.sum_neg, List.map_map]
  refine congrArg List.sum (List.map_congr_left fun x hx => ?_)
  have hunsaturated : x.unsaturated (a.int x.base) = x.image (a.int x.base) :=
    IntVar.unsaturated_eq_image (h x hx)
  obtain ⟨hleast, hgreatest⟩ := (h x hx).fits
  rw [← hunsaturated] at hleast hgreatest
  obtain ⟨hshown, hopposite⟩ :=
    x.shown_exact (lt_of_le_of_ne hleast (hopposable x hx).symm) hgreatest
  show x.opposite (a.int x.base) = -x.shown (a.int x.base)
  rw [hopposite, hshown]

end LinearAtMost

/-! ### Linear constraints -/

namespace Constraint

/-- The constraint is linear, with the given terms. -/
def Linear (terms : List IntVar) : Constraint → Prop
  | .sumAtMost vars _ | .sumEquals vars _ => vars = terms
  | _ => False

/-- What the terms show satisfies the constraint, which is linear. -/
def Shown : Constraint → Valuation → Prop
  | .sumAtMost terms limit, a => shownSum terms a ≤ limit
  | .sumEquals terms sum, a => shownSum terms a = sum
  | _, _ => False

/-- What is reported is enclosed so: for an equation both sums are bounded, that of the opposites
    as long as all terms have one. -/
def Enclosed : Constraint → Valuation → Prop
  | .sumAtMost terms limit, a => shownSum terms a ≤ limit
  | .sumEquals terms sum, a =>
    shownSum terms a ≤ sum ∧ (Opposable terms a → oppositeSum terms a ≤ -sum)
  | _, _ => False

/-- Where no image is beyond the range, linear constraints are relations between integers. -/
theorem Linear.exact (hlinear : c.Linear terms)
    (h : ∀ x ∈ terms, x.Within Width.value (a.int x.base)) :
    (c.Shown a ↔ c.Sat a) ∧ (Opposable terms a → c.Enclosed a → c.Sat a) := by
  have hexact := shownSum_exact h
  cases c with
  | sumAtMost vars limit =>
    obtain rfl : vars = terms := hlinear
    have hiff : shownSum vars a ≤ limit ↔ (vars.map (·.exactValue a.int)).sum ≤ limit := by
      rw [hexact]
    exact ⟨hiff, fun _ => hiff.mp⟩
  | sumEquals vars sum =>
    obtain rfl : vars = terms := hlinear
    have hiff : shownSum vars a = sum ↔ (vars.map (·.exactValue a.int)).sum = sum := by
      rw [hexact]
    refine ⟨hiff, fun hopposable ⟨hle, hopposite⟩ => hiff.mp ?_⟩
    -- the sum of the opposites bounds the sum from below
    have hge := hopposite hopposable
    rw [oppositeSum_exact h hopposable] at hge
    omega
  | _ => exact hlinear.elim

end Constraint

namespace Solver

open Modelling Program Constraint

variable {sv sv' : Solver Filter} {r : Except ModelError Unit} {sol : Solution}

/-- It is not known that there is no solution, and the valuation is conceded. -/
structure Grants (sv : Solver Filter) (a : Valuation) : Prop where
  /-- The model is not known to have no solution. -/
  feasible : sv.infeasible = false
  /-- All posted filters concede the valuation. -/
  concedes : sv.space.Concedes a

/-- A filter that concedes the valuation is posted. -/
theorem Grants.post (h : sv.Grants a) (hresting : sv.Resting) {f : Filter}
    (hf : f.Concedes a sv.store) (hrun : (Modelling.post f).run.run sv = .ok (r, sv')) :
    r = .ok () ∧ sv'.Grants a := by
  rcases post_cases hresting.root hrun with ⟨hinfeasible, -, -⟩ | ⟨-, result, space, hpost, hend⟩
  · cases hinfeasible.symm.trans h.feasible
  obtain ⟨rfl, hconcedes⟩ := h.concedes.post hf hpost
  rcases hend with ⟨id, -, hok, rfl⟩ | ⟨c, hrefused, -, -⟩
  · exact ⟨hok, h.feasible, hconcedes⟩
  · cases hrefused

/-- An inequality is posted that holds for what is shown. -/
theorem Grants.postSumAtMost (h : sv.Grants a) (hresting : sv.Resting)
    (hbase : Based terms sv.store) (ha : shownSum terms a ≤ limit)
    (hrun : (postSumAtMost (P := Filter) terms limit).run.run sv = .ok (r, sv')) :
    (terms ≠ [] → r = .ok ()) ∧ sv'.Grants a := by
  by_cases hempty : terms = []
  · subst hempty
    cases hrun
    exact ⟨fun hne => absurd rfl hne, h⟩
  · rw [postSumAtMost_eq limit hempty] at hrun
    obtain ⟨hok, hgrants⟩ := h.post hresting (Filter.concedes_sumAtMost hbase ha) hrun
    exact ⟨fun _ => hok, hgrants⟩

/-- An equation is posted as an inequality, and if that succeeds as another one. -/
theorem run_postSumEquals_cases
    (hrun : (postSumEquals (P := Filter) terms sum).run.run sv = .ok (r, sv')) :
    ∃ negated first mid, terms.mapM IntVar.negated = .ok negated
      ∧ (postSumAtMost (P := Filter) terms sum).run.run sv = .ok (first, mid)
      ∧ ((∃ reason, first = .error reason ∧ r = .error reason ∧ sv' = mid)
        ∨ first = .ok ()
          ∧ (postSumAtMost (P := Filter) negated (-sum)).run.run mid = .ok (r, sv')) := by
  rw [postSumEquals, run_bind, checked, run_lift] at hrun
  cases hnegated : terms.mapM IntVar.negated with
  | error e => rw [hnegated] at hrun; cases hrun
  | ok negated =>
    rw [hnegated] at hrun
    obtain ⟨first, mid, hfirst, hrest⟩ := run_bind_cases hrun
    refine ⟨negated, first, mid, rfl, hfirst, hrest.imp_right ?_⟩
    rintro ⟨⟨⟩, hok, hsecond⟩
    exact ⟨hok, hsecond⟩

/-! ### What linear constraints let through -/

theorem based_onward {origin : Solver Filter} (h : Based terms origin.store)
    (hknown : ∀ x ∈ terms, origin.store.knows (.int x.base) = true) (honward : origin.Onward sv) :
    Based terms sv.store := fun x hx v hv =>
  h x hx v (honward.store.contains honward.resting.wf (hknown x hx) hv)

/-- A linear constraint is posted, and what the terms show satisfies it. -/
theorem Grants.postLinear (h : sv.Grants a) (hprepared : sv.Prepared) (hlinear : c.Linear terms)
    (hknown : ∀ x ∈ terms, sv.store.knows (.int x.base) = true) (hbase : Based terms sv.store)
    (ha : c.Shown a) (hrun : runOn (Statement.post c).program sv = .ok (r, sv')) :
    (terms ≠ [] → r = .ok ()) ∧ sv'.Grants a := by
  have hresting := hprepared.resting
  cases c with
  | sumAtMost vars limit =>
    obtain rfl : vars = terms := hlinear
    exact h.postSumAtMost hresting hbase ha hrun
  | sumEquals vars sum =>
    obtain rfl : vars = terms := hlinear
    obtain rfl : shownSum vars a = sum := ha
    obtain ⟨negated, first, mid, hnegated, hfirst, hrest⟩ := run_postSumEquals_cases hrun
    obtain ⟨hok, hgrants⟩ := h.postSumAtMost hresting hbase le_rfl hfirst
    rcases hrest with ⟨reason, rfl, rfl, rfl⟩ | ⟨-, hsecond⟩
    · exact ⟨hok, hgrants⟩
    · -- the opposites are saturated downwards, so the second inequality holds too
      have honward : sv.Onward mid :=
        (Statement.upholds_onward sv (.post (.sumAtMost vars _))).keeps _ _ _ hresting.onward hfirst
      have hle : shownSum negated a ≤ -shownSum vars a := by
        rw [shownSum_negated hnegated]
        exact oppositeSum_le fun x hx => hbase x hx _ (h.concedes.admits.int x.base)
      obtain ⟨hok', hgrants'⟩ := hgrants.postSumAtMost honward.resting
        (based_negated (based_onward hbase hknown honward) hnegated) hle hsecond
      refine ⟨fun hne => hok' fun hempty => hne ?_, hgrants'⟩
      exact (IntVar.sum_exactValue_negated hnegated fun _ => 0).2.mp hempty
  | _ => exact hlinear.elim

/-- What is reported after an inequality was posted obeys it. -/
theorem shownSum_le_of_reports (hprepared : sv.Prepared)
    (hknown : ∀ x ∈ terms, sv.store.knows (.int x.base) = true)
    (hpost : (postSumAtMost (P := Filter) terms limit).run.run sv = .ok (.ok (), sv'))
    (hsol : sv'.Reports sol)
    (hvalues : ∀ x ∈ terms, sol.value (.plain x.base) = .ok (a.int x.base)) :
    shownSum terms a ≤ limit := by
  have hne : terms ≠ [] := by
    rintro rfl
    cases hpost
  have hlater : sv.Later sv' := Later.refl.stated (.post (.sumAtMost terms limit)) hpost
  have hresting' := (hlater.onward hprepared.resting).resting
  rw [postSumAtMost_eq limit hne] at hpost
  have hscope : ∀ v ∈ (Filter.sumAtMost terms limit).scope, sv.store.knows v = true := by
    intro v hv
    obtain ⟨x, hx, rfl⟩ := Filter.mem_scope_sumAtMost hv
    exact hknown x hx
  -- the filter guards from now on, so no solution has a least sum beyond the limit
  have hguarded := guarded_of_post Filter.guards_sumAtMost hprepared hscope hpost
  have hclear := hsol.clear Filter.guards_sumAtMost hresting' hguarded
  -- with one value left below, the lower bound is what the term shows
  have hsame : terms.map (·.lowerBound sol.store) = terms.map fun x => x.shown (a.int x.base) :=
    List.map_congr_left fun x hx => Solution.lowerBound_of_value (hvalues x hx)
  rw [hsame] at hclear
  exact not_lt.mp hclear

/-- What is reported after a linear constraint was posted is enclosed by it. -/
theorem enclosed_of_reports (hprepared : sv.Prepared) (hlinear : c.Linear terms)
    (hknown : ∀ x ∈ terms, sv.store.knows (.int x.base) = true)
    (hpost : runOn (Statement.post c).program sv = .ok (.ok (), sv')) (hsol : sv'.Reports sol)
    (hvalues : ∀ x ∈ terms, sol.value (.plain x.base) = .ok (a.int x.base)) : c.Enclosed a := by
  cases c with
  | sumAtMost vars limit =>
    obtain rfl : vars = terms := hlinear
    exact shownSum_le_of_reports hprepared hknown hpost hsol hvalues
  | sumEquals vars sum =>
    obtain rfl : vars = terms := hlinear
    obtain ⟨negated, first, mid, hnegated, hfirst, hrest⟩ := run_postSumEquals_cases hpost
    rcases hrest with ⟨reason, -, hreason, -⟩ | ⟨rfl, hsecond⟩
    · cases hreason
    have hlater : mid.Later sv' := Later.refl.stated (.post (.sumAtMost negated (-sum))) hsecond
    have hmid : sv.Later mid := Later.refl.stated (.post (.sumAtMost vars sum)) hfirst
    have hprepared' : mid.Prepared := hprepared.stated (.post (.sumAtMost vars sum)) hfirst
    refine ⟨shownSum_le_of_reports hprepared hknown hfirst (hsol.of_later hlater) hvalues, ?_⟩
    intro _
    -- the second inequality is about the same variables below
    rw [← shownSum_negated hnegated]
    refine shownSum_le_of_reports hprepared' ?_ hsecond hsol ?_
    · intro y hy
      obtain ⟨x, hx, hbase⟩ := exists_base_of_negated hnegated hy
      exact hbase ▸ (hmid.onward hprepared.resting).store.knows _ (hknown x hx)
    · intro y hy
      obtain ⟨x, hx, hbase⟩ := exists_base_of_negated hnegated hy
      exact hbase ▸ hvalues x hx
  | _ => exact hlinear.elim

/-- A linear constraint is exact for what its terms show, whatever their images are.  If a valuation
    is granted and what the terms show satisfies the constraint, posting it meets no
    contradiction, and neither posting nor propagation after decisions that the valuation obeys
    loses the valuation.  If posting succeeds, every solution that is reported afterwards is
    enclosed by the constraint.  And where no image is beyond the range all of this is about
    integers, but for terms of an equation that have the least value. -/
theorem linear_saturates (hprepared : sv.Prepared) (hlinear : c.Linear terms)
    (hknown : ∀ x ∈ terms, sv.store.knows (.int x.base) = true) (hbase : Based terms sv.store)
    (hpost : runOn (Statement.post c).program sv = .ok (r, sv')) :
    (∀ a, sv.Grants a → c.Shown a → (terms ≠ [] → r = .ok ()) ∧ sv'.Grants a
        ∧ ∀ ds : List Decision, (∀ d ∈ ds, d.Holds a) → ∀ contradiction? space,
          sv'.space.settle (ds.map Decision.request) = .ok (contradiction?, space) →
            contradiction? = none ∧ space.store.Admits a)
      ∧ (r = .ok () → ∀ sol, sv'.Reports sol → ∀ a : Valuation,
        (∀ x ∈ terms, sol.value (.plain x.base) = .ok (a.int x.base)) → c.Enclosed a)
      ∧ ∀ a : Valuation, (∀ x ∈ terms, x.Within Width.value (a.int x.base)) →
        (c.Shown a ↔ c.Sat a) ∧ (Opposable terms a → c.Enclosed a → c.Sat a) := by
  refine ⟨fun a hgrants ha => ?_, ?_, fun a hwithin => hlinear.exact hwithin⟩
  · obtain ⟨hok, hgrants'⟩ := hgrants.postLinear hprepared hlinear hknown hbase ha hpost
    refine ⟨hok, hgrants', fun ds hholds contradiction? space hsettle => ?_⟩
    obtain ⟨hnone, hconcedes⟩ := hgrants'.concedes.settle hholds hsettle
    exact ⟨hnone, hconcedes.admits⟩
  · rintro rfl sol hsol a hvalues
    exact enclosed_of_reports hprepared hlinear hknown hpost hsol hvalues

/-! ### A doubled value beyond the range -/

/-- A variable whose greater value is beyond the range when it is doubled. -/
def halves : List Statement := [.bounded 1073741823 1073741824 (by decide) none]

/-- The variable, doubled. -/
def doubled : IntVar := .view (.plain ⟨0⟩) ⟨2, 0, by decide⟩

/-- That the double is at most the greatest value. -/
def doubledFits : Constraint := .sumAtMost [doubled] maxValue

/-- The constraint is posted with success, and the greater value is reported. -/
theorem doubled_reported :
    ∃ sv sv' sol, (Solver.empty (.ofSeed 0)).state halves = .ok sv
      ∧ runOn (Statement.post doubledFits).program sv = .ok (.ok (), sv')
      ∧ sv'.Reports sol ∧ sol.value (.plain ⟨0⟩) = .ok 1073741824 := by
  have hrun : (postThenTake halves doubledFits 2).toOption
      = some (some (), [some 1073741823, some 1073741824]) := by
    decide +kernel
  obtain ⟨sv, sv', hstate, hpost, hreports⟩ := reports_of_postThenTake hrun
  obtain ⟨sol, hsol, hvalue⟩ := hreports 1073741824 (List.mem_cons_of_mem _ (List.mem_cons_self ..))
  exact ⟨sv, sv', sol, hstate, hpost, hsol, hvalue⟩

/-- The double of the greater value shows the greatest value, so the greater value is granted and
    what is reported of it is enclosed. -/
theorem linear_saturates_doubled :
    ∃ sv sv' sol a, (Solver.empty (.ofSeed 0)).state halves = .ok sv
      ∧ runOn (Statement.post doubledFits).program sv = .ok (.ok (), sv')
      ∧ a.int ⟨0⟩ = 1073741824 ∧ sv.Grants a ∧ sv'.Grants a
      ∧ sv'.Reports sol ∧ sol.value (.plain ⟨0⟩) = .ok 1073741824 ∧ doubledFits.Enclosed a := by
  obtain ⟨sv, sv', sol, hstate, hpost, hsol, hvalue⟩ := doubled_reported
  have hprepared := (Prepared.empty (.ofSeed 0)).state hstate
  obtain ⟨hknown, hdomain, hfeasible, hsize⟩ : sv.store.knows (.int ⟨0⟩) = true
      ∧ sv.store.int ⟨0⟩ = .bounded 1073741823 1073741824
      ∧ sv.infeasible = false ∧ sv.space.posted.size = 0 := by
    cases hstate
    exact ⟨rfl, rfl, rfl, rfl⟩
  have hbase : Based [doubled] sv.store := by
    intro x hx v hv
    obtain rfl := List.mem_singleton.mp hx
    change (sv.store.int ⟨0⟩).contains v = true at hv
    rw [hdomain] at hv
    obtain ⟨hlow, hhigh, -⟩ := IntegerDomain.contains_iff.mp hv
    exact ⟨Int.le_trans (by decide) hlow, Int.le_trans hhigh (by decide)⟩
  have hcontains : (sv.store.int ⟨0⟩).contains 1073741824 = true := by
    rw [hdomain]
    decide
  obtain ⟨a, hadmits, hvalues⟩ := hprepared.resting.wf.exists_admits_int fun _ => 1073741824
  have ha : a.int ⟨0⟩ = 1073741824 := hvalues ⟨0⟩ hcontains
  -- nothing has been posted so far, so everything that is drawn is granted
  have hgrants : sv.Grants a :=
    ⟨hfeasible, Space.concedes_of_size hprepared.resting.wf hsize hadmits⟩
  have hshown : doubledFits.Shown a := by
    show [doubled.shown (a.int ⟨0⟩)].sum ≤ maxValue
    rw [ha]
    decide
  obtain ⟨hkept, hreported, -⟩ := @linear_saturates [doubled] doubledFits sv sv' (.ok ()) hprepared
    rfl (List.forall_mem_singleton.mpr hknown) hbase hpost
  refine ⟨sv, sv', sol, a, hstate, hpost, ha, hgrants, (hkept a hgrants hshown).2.1, hsol, hvalue,
    hreported rfl sol hsol a (List.forall_mem_singleton.mpr ?_)⟩
  show sol.value (.plain ⟨0⟩) = .ok (a.int ⟨0⟩)
  rw [ha, hvalue]

/-- But the double itself exceeds the limit, so over the integers a solution is reported that does
    not satisfy the constraint. -/
theorem doubled_exceeds_limit :
    ∃ sv sv' sol, (Solver.empty (.ofSeed 0)).state halves = .ok sv
      ∧ runOn (Statement.post doubledFits).program sv = .ok (.ok (), sv')
      ∧ sv'.Reports sol ∧ sol.value (.plain ⟨0⟩) = .ok 1073741824
      ∧ ∀ a : Valuation, a.int ⟨0⟩ = 1073741824 → ¬ doubledFits.Sat a := by
  obtain ⟨sv, sv', sol, hstate, hpost, hsol, hvalue⟩ := doubled_reported
  refine ⟨sv, sv', sol, hstate, hpost, hsol, hvalue, fun a ha hsat => ?_⟩
  change 2 * a.int ⟨0⟩ + 0 + 0 ≤ maxValue at hsat
  rw [ha] at hsat
  exact absurd hsat (by decide)

end Solver

end FiniteDomain
