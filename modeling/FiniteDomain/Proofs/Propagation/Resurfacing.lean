import FiniteDomain.Proofs.Filter.Exclusion
import FiniteDomain.Proofs.Propagation.Guard
import FiniteDomain.Proofs.Propagation.Post

/-! # Values that come back

    A bounded domain forgets that a value strictly between its bounds was excluded.
    Nobody is woken when a bound reaches the value later, so it may be a bound of a
    space at rest (`excluded_may_be_bound`).

    That is the only way.  It is the duty of a filter to bar a value that it
    excludes (`Duty.bar`), and it is up to this as long as the value is not inside
    the bounds (`minds_bar`).  So if there was a moment, between two runs of
    propagators say, at which the value was not inside the bounds and the filter
    did not exclude it yet, or had not been posted, the value is no bound at rest
    (`excluded_not_bound`).  Until that moment the filter has only to stand by
    (`Duty.standBy`): it must not have become passive for a wrong reason. -/

namespace FiniteDomain

/-! ### Duties -/

namespace Duty

/-- To keep a value that is excluded at a position from being a bound, as long as it is not inside
    the bounds. -/
def bar (f : Filter) (l : LocalId) (y : IntVar) (k : Int) : Duty where
  heard := (· = l)
  region := fun s => f.Legible s ∧ ¬ y.Inside s k
  flaw := fun s => f.Excludes l s y k ∧ y.IsBound s k
  bad := fun s => f.Excludes l s y k ∧ y.IsBound s k

/-- Not to become passive while it may be necessary to bar a value. -/
def standBy (f : Filter) (l : LocalId) (y : IntVar) (k : Int) : Duty where
  heard := (· = l)
  region := f.Legible
  flaw := fun _ => False
  bad := fun s => f.Excludes l s y k ∧ y.IsBound s k

end Duty

namespace Filter

variable {f : Filter} {l : LocalId} {y : IntVar} {k : Int}

theorem minds_standBy : f.Minds (.standBy f l y k) where
  bad := False.elim
  stays := fun h ht hst => h.region.evolves ht hst
  call := fun _ _ _ _ => False.elim
  watched := fun _ => False.elim
  entailed := fun h hholds ht hst hbad =>
    hbad.1.not_isBound_of_holds h.wf h.region hholds ht hst hbad.2
  grows := fun _ _ => False.elim

/-- Filters are up to barring values. -/
theorem minds_bar (hy : y ∈ f.views) : f.Minds (.bar f l y k) where
  bad := id
  stays := by
    intro s t h ht hst
    obtain ⟨hlegible, houtside⟩ := h.region
    have hmoved := hst.bounds ht (h.known _ (base_mem_scope hy))
    exact ⟨hlegible.evolves ht hst, fun hinside => houtside (hinside.before hmoved)⟩
  call := by
    intro c s pass h hserves hrun hsuccess hflaw hflaw'
    obtain ⟨hexcludes, hbound⟩ := hflaw
    have hlegible := h.region.1
    have hranges := hlegible.ranges y hy
    have hc : c = .initial ∨ ∃ e, c = .propagate l e := by
      cases c with
      | initial => exact Or.inl rfl
      | propagate l' e =>
        obtain rfl : l' = l := hserves
        exact Or.inr ⟨e, rfl⟩
    -- a bound can be taken away, so no valuation that is left gives it to the variable
    have hgrants := hexcludes.grants_of_call h.wf hlegible hc hrun hsuccess
    have hsteps : s.Steps pass.store := by
      cases c with
      | initial => exact (narrowings_initial hrun).steps h.wf
      | propagate l' e => exact (Space.narrowers_filter f l' e s pass hrun).steps h.wf
    have ht := hsteps.wf h.wf
    obtain ⟨a, ha, hvalue⟩ := ht.exists_value (hflaw'.2.takes ht (hranges.steps hsteps h.wf))
    exact hexcludes.ne_of_grants (hgrants a ha) (hbound.removable h.wf hranges) hvalue
  watched := by
    intro s request h hflaw
    obtain ⟨hexcludes, hbound⟩ := hflaw
    obtain ⟨hlegible, houtside⟩ := h.region
    have hsteps := Store.steps_apply h.wf request
    have ht := hsteps.wf h.wf
    have hevolves := (hsteps.narrower h.wf).evolves
    have hmoved := hevolves.bounds ht (h.known _ (base_mem_scope hy))
    refine (hexcludes.before_or_asked h.wf ht hevolves hlegible).imp_left fun hbefore => ?_
    exact ⟨hbefore, hbound.before ht hmoved houtside⟩
  entailed := fun h hholds ht hst hbad =>
    hbad.1.not_isBound_of_holds h.wf h.region.1 hholds ht hst hbad.2
  grows := by
    intro s t hknown hst hflaw
    obtain ⟨hlower, hupper⟩ := IntVar.bounds_of_base (hst.int y.base (hknown _ (base_mem_scope hy)))
    refine ⟨hflaw.1.of_grows hknown hst, ?_⟩
    have hbound := hflaw.2
    unfold IntVar.IsBound at hbound ⊢
    rwa [hlower, hupper] at hbound

end Filter

/-! ### Histories -/

namespace Space

variable {start sp sp' sp₀ : Space Filter} {d : Duty} {f : Filter} {id : PropagatorId}
  {l : LocalId} {y : IntVar} {k : Int}

/-- The second space comes from the first by steps that meet no contradiction.  What has been done
    since the space was at rest can be undone, if no filter was posted; then it does not count. -/
inductive Proceeds (start : Space Filter) : Space Filter → Prop where
  /-- Nothing is done. -/
  | refl : Proceeds start start
  /-- There are new variables. -/
  | grows {sp : Space Filter} {store : Store} (before : Proceeds start sp)
      (grows : sp.store.Grows store) (events : store.events = sp.store.events)
      (passive : store.passive = sp.store.passive) : Proceeds start { sp with store }
  /-- A filter is launched; if it excludes values it can read its variables. -/
  | launch {sp sp' : Space Filter} {f : Filter} (before : Proceeds start sp)
      (legible : f.Excluding → f.Legible sp.store) (launched : sp.Launched f sp') :
      Proceeds start sp'
  /-- A domain is narrowed. -/
  | narrow {sp : Space Filter} {request : Narrowing} {n : Narrowed} (before : Proceeds start sp)
      (run : request.run sp.store = .ok n) : Proceeds start { sp with store := n.store }
  /-- Propagation begins or ends. -/
  | phase {sp : Space Filter} (before : Proceeds start sp) (phase : Phase) :
      Proceeds start { sp with phase }
  /-- Events are handed out. -/
  | dispatch {sp : Space Filter} (before : Proceeds start sp) : Proceeds start sp.dispatch
  /-- The propagator at the head of the queue is run. -/
  | runNext {sp sp' : Space Filter} (before : Proceeds start sp)
      (run : sp.runNext? = some (.ok (none, sp'))) : Proceeds start sp'
  /-- The space goes back to where it was at rest. -/
  | undo {sp tried sp' : Space Filter} (before : Proceeds start sp) (rest : sp.Settled)
      (leads : sp.Leads tried) (run : tried.backtrackTo sp.store.checkpoint = .ok sp') :
      Proceeds start sp'

namespace Proceeds

theorem trans (h : start.Proceeds sp) (h' : sp.Proceeds sp') : start.Proceeds sp' := by
  induction h' with
  | refl => exact h
  | grows _ hgrows hevents hpassive ih => exact .grows ih hgrows hevents hpassive
  | launch _ legible launched ih => exact .launch ih legible launched
  | narrow _ run ih => exact .narrow ih run
  | phase _ phase ih => exact .phase ih phase
  | dispatch _ ih => exact .dispatch ih
  | runNext _ run ih => exact .runNext ih run
  | undo _ rest leads run ih => exact .undo ih rest leads run

/-- Propagators are run until none waits. -/
theorem propagate (h : start.Proceeds sp) (hrun : sp.propagate = .ok (none, sp')) :
    start.Proceeds sp' := by
  have hhanded : Handed fun c? sp => c? = none → start.Proceeds sp :=
    { phase := fun phase h hnone => .phase (h hnone) phase
      dispatch := fun h hnone => .dispatch (h hnone)
      runNext := by
        rintro sp sp' c? h hrun rfl
        exact .runNext (h rfl) hrun }
  exact hhanded.propagate (fun _ => h) hrun rfl

/-- A filter is posted. -/
theorem post (h : start.Proceeds sp) (hlegible : f.Excluding → f.Legible sp.store)
    (hrun : sp.post f = .ok (.ok id, sp')) : start.Proceeds sp' := by
  obtain ⟨-, mid, hlaunched, hpropagate⟩ := exists_launched hrun
  exact (h.launch hlegible hlaunched).propagate hpropagate

/-- A request that is carried out is applied. -/
theorem apply_of_run {request : Narrowing} {s : Store} {n : Narrowed}
    (h : request.run s = .ok n) : request.apply s = n := by
  simp only [Narrowing.run, bind, Except.bind] at h
  split at h
  · cases h
  · exact Except.ok.inj h

/-- Going back leads to the space as it was. -/
theorem alike_of_undo {tried : Space Filter} (hs : sp.store.Wf) (hrest : sp.Settled)
    (hleads : sp.Leads tried) (hrun : tried.backtrackTo sp.store.checkpoint = .ok sp') :
    sp.Alike sp' := by
  obtain ⟨back, hback, halike⟩ := backtrackTo_leads hrest hs hleads
  obtain rfl := Except.ok.inj (hback.symm.trans hrun)
  exact halike

theorem attended (h : start.Proceeds sp) (hstart : start.Attended) : sp.Attended := by
  induction h with
  | refl => exact hstart
  | grows before hgrows hevents hpassive ih => exact ih.grows hgrows hpassive
  | launch before legible launched ih => exact ih.launched launched
  | @narrow sp request n before run ih =>
    obtain rfl := apply_of_run run
    exact ih.narrow request
  | phase before phase ih => exact Attended.handed.phase phase ih
  | dispatch before ih => exact ih.dispatch
  | runNext before run ih => exact ih.runNext? run
  | undo before rest leads run ih => exact ih.alike (alike_of_undo ih.wf rest leads run)

/-- Domains have only been narrowed, but there may be new ones. -/
theorem evolves (h : start.Proceeds sp) (hstart : start.Attended) :
    start.store.Evolves sp.store := by
  induction h with
  | refl => exact .refl _
  | grows before hgrows hevents hpassive ih => exact ih.trans hgrows.evolves
  | @launch sp sp' g before legible launched ih =>
    have hwf := (before.attended hstart).wf
    have hentered : (sp.entered g).store.Wf := hwf
    exact ih.trans ((leads_launched hwf launched).narrower hentered).evolves
  | @narrow sp request n before run ih =>
    obtain rfl := apply_of_run run
    have hwf := (before.attended hstart).wf
    exact ih.trans ((Store.steps_apply hwf request).narrower hwf).evolves
  | phase before phase ih => exact ih
  | @dispatch sp before ih =>
    have hwf := (before.attended hstart).wf
    exact ih.trans ((leads_dispatch sp).narrower hwf).evolves
  | runNext before run ih =>
    have hwf := (before.attended hstart).wf
    exact ih.trans ((leads_runNext? hwf run rfl).narrower hwf).evolves
  | undo before rest leads run ih =>
    have halike := alike_of_undo (before.attended hstart).wf rest leads run
    rwa [halike.store]

/-- What is posted stays posted. -/
theorem filterAt (h : start.Proceeds sp) (hstart : start.Attended) {i : Nat}
    (hf : start.filterAt? i = some f) : sp.filterAt? i = some f := by
  induction h with
  | refl => exact hf
  | grows before hgrows hevents hpassive ih => exact ih
  | launch before legible launched ih =>
    have hleads := leads_launched (before.attended hstart).wf launched
    exact (hleads.filterAt i).trans (filterAt?_entered_of_posted ih)
  | narrow before run ih => exact ih
  | phase before phase ih => exact ih
  | dispatch before ih => exact ((leads_dispatch _).filterAt i).trans ih
  | runNext before run ih =>
    have hleads := leads_runNext? (before.attended hstart).wf run rfl
    exact (hleads.filterAt i).trans ih
  | undo before rest leads run ih =>
    have halike := alike_of_undo (before.attended hstart).wf rest leads run
    exact (halike.leads.filterAt i).trans ih

/-- A duty that a filter has, or takes on when it is posted, is minded from then on. -/
theorem minded (h : start.Proceeds sp) (hstart : start.Attended) (hf : f.Minds d)
    (hexcluding : f.Excluding)
    (hregion : ∀ sp, start.Proceeds sp → f.Legible sp.store → d.region sp.store)
    (hminded : start.filterAt? id.index = some f → start.Minded d f id False)
    (hposted : sp.filterAt? id.index = some f) : sp.Minded d f id False := by
  induction h with
  | refl => exact hminded hposted
  | grows before hgrows hevents hpassive ih => exact (ih hposted).grows hf hgrows hevents hpassive
  | @launch sp sp' g before legible launched ih =>
    have hattended := before.attended hstart
    have hleads := leads_launched hattended.wf launched
    -- either the filter itself is posted now, or it was posted before
    rcases entered_cases ((hleads.filterAt _).symm.trans hposted) with ⟨hnew, rfl⟩ | hposted
    · obtain rfl : id = ⟨sp.posted.nextKey⟩ := congrArg PropagatorId.mk hnew
      have hlegible := legible hexcluding
      have hcovers : d.Covers f sp.store :=
        ⟨hattended.wf, hlegible.known, hregion sp before hlegible⟩
      exact (minded_entered hcovers hattended.active).launched hf (fun _ => rfl) launched
    · exact ((ih hposted).entered g).launched hf False.elim launched
  | @narrow sp request n before run ih =>
    obtain rfl := apply_of_run run
    exact (ih hposted).narrow hf request
  | phase before phase ih => exact (Minded.handed hf).phase phase (fun _ => ih hposted) rfl
  | dispatch before ih =>
    exact (ih (((leads_dispatch _).filterAt _).symm.trans hposted)).dispatch hf
  | runNext before run ih =>
    have hleads := leads_runNext? (before.attended hstart).wf run rfl
    exact (ih ((hleads.filterAt _).symm.trans hposted)).runNext? hf run
  | undo before rest leads run ih =>
    have halike := alike_of_undo (before.attended hstart).wf rest leads run
    refine (ih ?_).alike halike
    exact (halike.leads.filterAt _).symm.trans hposted

end Proceeds

/-! ### Excluded bounds -/

/-- Who has stood by can bar the value from the moment on at which it is not inside the bounds and
    not excluded. -/
theorem Minded.bar (h : sp.Minded (.standBy f l y k) f id False) (houtside : ¬ y.Inside sp.store k)
    (hexcludes : ¬ f.Excludes l sp.store y k) : sp.Minded (.bar f l y k) f id False where
  wf := h.wf
  known := h.known
  region := ⟨h.region, houtside⟩
  posted := h.posted
  subscribes := h.subscribes
  passive := h.passive
  noticed := fun hflaw => absurd hflaw.1 hexcludes

/-- At rest no bound of a variable is excluded at a position of a filter, provided that there was a
    moment since the variable exists at which the value was not strictly between its bounds and the
    filter had not been posted or did not exclude the value. -/
theorem excluded_not_bound (hbegin : Space.empty.Proceeds sp₀) (h : sp₀.Proceeds sp)
    (hknown : sp₀.store.knows (.int y.base) = true) (houtside : ¬ y.Inside sp₀.store k)
    (hbefore : sp₀.filterAt? id.index = some f → ¬ f.Excludes l sp₀.store y k)
    (hrest : sp.Settled) (hposted : sp.filterAt? id.index = some f)
    (hexcludes : f.Excludes l sp.store y k) :
    y.lowerBound sp.store ≠ k ∧ y.upperBound sp.store ≠ k := by
  have hattended := hbegin.attended attended_empty
  have hexcluding := hexcludes.excluding
  -- up to the moment the filter stands by, from then on it bars the value
  have hstoodBy (hposted : sp₀.filterAt? id.index = some f) :
      sp₀.Minded (.standBy f l y k) f id False := by
    refine hbegin.minded attended_empty Filter.minds_standBy hexcluding (fun _ _ h => h) ?_ hposted
    intro hnothing
    exact absurd (filterAt?_lt hnothing) (Nat.not_lt_zero _)
  have hregion (sp : Space Filter) (h : sp₀.Proceeds sp) (hlegible : f.Legible sp.store) :
      (Duty.bar f l y k).region sp.store := by
    have hmoved := (h.evolves hattended).bounds (h.attended hattended).wf hknown
    exact ⟨hlegible, fun hinside => houtside (hinside.before hmoved)⟩
  have hbarred := h.minded hattended (Filter.minds_bar hexcludes.mem_views) hexcluding hregion
    (fun hposted => (hstoodBy hposted).bar houtside (hbefore hposted)) hposted
  have hclear := hbarred.clear (Filter.minds_bar hexcludes.mem_views) hrest
  exact not_or.mp fun hbound => hclear ⟨hexcludes, hbound⟩

/-! ### Forgotten values -/

/-- A filter is posted on the variables of a store, a domain is narrowed, and propagators are run:
    the spaces that there are after the first and the last of these calls, if all succeed. -/
def rehearse (s : Store) (f : Filter) (request : Narrowing) :
    Except Fault (Option (Space Filter × Space Filter)) :=
  (({ Space.empty with store := s } : Space Filter).post f).bind fun first =>
    (request.run first.2.store).bind fun n =>
      ({ first.2 with store := n.store } : Space Filter).propagate.map fun last =>
        if first.1.isOk && last.1.isNone then some (first.2, last.2) else none

theorem rehearse_spec {s : Store} {request : Narrowing} {posted last : Space Filter} (hs : s.Wf)
    (hevents : s.events = EventSink.empty) (hpassive : s.passive = Store.empty.passive)
    (hlegible : f.Legible s) (h : rehearse s f request = .ok (some (posted, last))) :
    Space.empty.Proceeds posted ∧ posted.Proceeds last ∧ last.filterAt? 0 = some f
      ∧ last.Settled := by
  let begun : Space Filter := { Space.empty with store := s }
  have hbegun : Space.empty.Proceeds begun := by
    refine .grows .refl ⟨hs, fun v hv => ?_, nofun, nofun, nofun⟩ hevents hpassive
    cases v <;> cases hv
  have hbegunSettled : begun.Settled := settled_start hevents
  obtain ⟨⟨result, posted'⟩, hpost, h⟩ := except_bind_eq_ok_iff.mp h
  obtain ⟨n, hnarrow, h⟩ := except_bind_eq_ok_iff.mp h
  obtain ⟨⟨c?, last'⟩, hpropagate, h⟩ := except_map_eq_ok_iff.mp h
  split at h
  next hsuccess =>
    obtain ⟨rfl, rfl⟩ := Prod.mk.inj (Option.some.inj h)
    obtain ⟨hok, hnone⟩ := (Bool.and_eq_true ..).mp hsuccess
    obtain rfl : c? = none := Option.isNone_iff_eq_none.mp hnone
    obtain ⟨id, rfl⟩ : ∃ id, result = .ok id := by
      cases result with
      | ok id => exact ⟨id, rfl⟩
      | error c => cases hok
    have hposted : Space.empty.Proceeds posted' := .post hbegun (fun _ => hlegible) hpost
    have hlast : posted'.Proceeds last' := .propagate (.narrow .refl hnarrow) hpropagate
    have hattended := hposted.attended attended_empty
    have hleads := leads_post (hbegun.attended attended_empty).wf hpost
    have hself : posted'.filterAt? 0 = some f := (hleads.filterAt 0).trans filterAt?_entered_self
    have hrest := settled_post hbegunSettled hpost
    have halert : ({ posted' with store := n.store } : Space Filter).Alert :=
      ⟨hrest.alert.lines, hrest.alert.waits⟩
    exact ⟨hposted, hlast, hlast.filterAt hattended hself, settled_propagate halert hpropagate⟩
  · cases h

/-- The value 5, the values from 0 to 10, and a set that can have the elements 0 and 10. -/
def fiveAndTen : Store :=
  ((Store.empty.addInt (IntegerDomain.bounded 5 5)).2.addInt
    (IntegerDomain.bounded 0 10)).2.addSet (SetDomain.subsetsOf [0, 10]) |>.2

theorem fiveAndTen_wf : fiveAndTen.Wf :=
  ((Store.wf_empty.addInt (IntegerDomain.bounded_wf (by decide) (by decide))).addInt
    (IntegerDomain.bounded_wf (by decide) (by decide))).addSet (SetDomain.subsetsOf_wf (by decide))

theorem legible_fiveAndTen (hknown : ∀ v ∈ f.scope, fiveAndTen.knows v = true)
    (hviews : ∀ x ∈ f.views, x = .plain ⟨0⟩ ∨ x = .plain ⟨1⟩) : f.Legible fiveAndTen where
  known := hknown
  ranges := by
    intro x hx v hv
    have hbounds : 0 ≤ v ∧ v ≤ 10 := by
      rcases hviews x hx with rfl | rfl
      · obtain ⟨hlow, hhigh, -⟩ := IntegerDomain.contains_iff.mp hv
        exact ⟨Int.le_trans (by decide) hlow, Int.le_trans hhigh (by decide)⟩
      · obtain ⟨hlow, hhigh, -⟩ := IntegerDomain.contains_iff.mp hv
        exact ⟨hlow, hhigh⟩
    have hfits : Width.value.Fits v := by
      simp only [Width.Fits, Width.value]
      omega
    rcases hviews x hx with rfl | rfl <;> exact hfits
  shelters := by
    rintro x z rfl k v - -
    rcases hviews x List.mem_cons_self with rfl | rfl <;> exact trivial

/-- When 0 is no element of the set any more, it is not the lower bound of what is to be one. -/
theorem excluded_not_bound_removed :
    ∃ sp₀ sp : Space Filter, Space.empty.Proceeds sp₀ ∧ sp₀.Proceeds sp
      ∧ (IntVar.plain ⟨1⟩).lowerBound sp₀.store = 0
      ∧ Filter.Excludes (.member (.plain ⟨1⟩) ⟨0⟩) ⟨1⟩ sp.store (.plain ⟨1⟩) 0
      ∧ (IntVar.plain ⟨1⟩).lowerBound sp.store ≠ 0
      ∧ (IntVar.plain ⟨1⟩).upperBound sp.store ≠ 0 := by
  have hrun : ((rehearse fiveAndTen (.member (.plain ⟨1⟩) ⟨0⟩) (.excludeElement ⟨0⟩ 0)).map
      fun out? => out?.map fun out =>
        ((out.1.store.knows (.int ⟨1⟩), (IntVar.plain ⟨1⟩).lowerBound out.1.store,
            (out.1.store.set ⟨0⟩).inEnvelope 0), (out.2.store.set ⟨0⟩).inEnvelope 0)).toOption
      = some (some ((true, 0, true), false)) := by
    decide +kernel
  obtain ⟨out?, hrehearse, hread⟩ := exists_of_toOption_map hrun
  obtain ⟨⟨posted, last⟩, rfl, hreadings⟩ := Option.map_eq_some_iff.mp hread
  simp only [Prod.mk.injEq] at hreadings
  obtain ⟨⟨hknown, hlower, hin⟩, hout⟩ := hreadings
  have hlegible : Filter.Legible (.member (.plain ⟨1⟩) ⟨0⟩) fiveAndTen :=
    legible_fiveAndTen (by decide) (by decide)
  obtain ⟨hposted, hlast, hself, hrest⟩ :=
    rehearse_spec fiveAndTen_wf rfl rfl hlegible hrehearse
  have hexcludes : Filter.Excludes (.member (.plain ⟨1⟩) ⟨0⟩) ⟨1⟩ last.store (.plain ⟨1⟩) 0 :=
    ⟨rfl, rfl, hout⟩
  refine ⟨posted, last, hposted, hlast, hlower, hexcludes, ?_⟩
  have hid : last.filterAt? (PropagatorId.mk 0).index = some (.member (.plain ⟨1⟩) ⟨0⟩) := hself
  refine excluded_not_bound hposted hlast hknown ?_ ?_ hrest hid hexcludes
  · rintro ⟨hless, -⟩
    exact absurd (hlower ▸ hless) (Int.lt_irrefl 0)
  · rintro - ⟨-, -, hout⟩
    exact Bool.noConfusion (hin.symm.trans hout)

/-- At rest, a value that a filter excludes is a bound of an undecided variable, the domain of which
    is bounded. -/
def Resurfaces (f : Filter) (l : LocalId) (y : IntVar) (k : Int) : Prop :=
  ∃ sp, Space.empty.Proceeds sp ∧ sp.Settled ∧ sp.filterAt? 0 = some f ∧ f.Excludes l sp.store y k
    ∧ (sp.store.int y.base).isEnumerated = false ∧ y.isFixed sp.store = false
    ∧ y.lowerBound sp.store = k

theorem resurfaces_fiveAndTen (request : Narrowing) (hlegible : f.Legible fiveAndTen)
    (hrun : ((rehearse fiveAndTen f request).map fun out? => out?.map fun out =>
        (((IntVar.plain ⟨0⟩).isFixed out.2.store, (IntVar.plain ⟨0⟩).lowerBound out.2.store,
            (out.2.store.set ⟨0⟩).inEnvelope k),
          (out.2.store.int ⟨1⟩).isEnumerated, (IntVar.plain ⟨1⟩).isFixed out.2.store,
          (IntVar.plain ⟨1⟩).lowerBound out.2.store)).toOption
      = some (some ((true, 5, false), false, false, k)))
    (hexcludes : ∀ s : Store, (IntVar.plain ⟨0⟩).isFixed s = true →
      (IntVar.plain ⟨0⟩).lowerBound s = 5 → (s.set ⟨0⟩).inEnvelope k = false →
        f.Excludes l s (.plain ⟨1⟩) k) :
    Resurfaces f l (.plain ⟨1⟩) k := by
  obtain ⟨out?, hrehearse, hread⟩ := exists_of_toOption_map hrun
  obtain ⟨⟨posted, last⟩, rfl, hreadings⟩ := Option.map_eq_some_iff.mp hread
  simp only [Prod.mk.injEq] at hreadings
  obtain ⟨⟨hfixed, hvalue, hout⟩, hbounded, hopen, hlower⟩ := hreadings
  obtain ⟨hposted, hlast, hself, hrest⟩ :=
    rehearse_spec fiveAndTen_wf rfl rfl hlegible hrehearse
  exact ⟨last, hposted.trans hlast, hrest, hself, hexcludes _ hfixed hvalue hout, hbounded, hopen,
    hlower⟩

/-- The lower bound goes to the excluded 5 when nobody listens to it. -/
theorem excluded_may_be_bound :
    Resurfaces (.distinct (.plain ⟨0⟩) (.plain ⟨1⟩)) ⟨0⟩ (.plain ⟨1⟩) 5
      ∧ Resurfaces (.distinctByValue [.plain ⟨0⟩, .plain ⟨1⟩]) ⟨0⟩ (.plain ⟨1⟩) 5
      ∧ Resurfaces (.member (.plain ⟨1⟩) ⟨0⟩) ⟨1⟩ (.plain ⟨1⟩) 5 := by
  refine ⟨?distinct, ?distinctByValue, ?member⟩
  case distinct =>
    refine resurfaces_fiveAndTen (.tightenLower (.plain ⟨1⟩) 5)
      (legible_fiveAndTen (by decide) (by decide)) (by decide +kernel) fun s hfixed hvalue _ => ?_
    exact ⟨_, 1, by decide, rfl, rfl, hfixed, hvalue⟩
  case distinctByValue =>
    refine resurfaces_fiveAndTen (.tightenLower (.plain ⟨1⟩) 5)
      (legible_fiveAndTen (by decide) (by decide)) (by decide +kernel) fun s hfixed hvalue _ => ?_
    exact ⟨_, 1, by decide, rfl, rfl, hfixed, hvalue⟩
  case member =>
    refine resurfaces_fiveAndTen (.tightenLower (.plain ⟨1⟩) 5)
      (legible_fiveAndTen (by decide) (by decide)) (by decide +kernel) fun s _ _ hout => ?_
    exact ⟨rfl, rfl, hout⟩

end Space

end FiniteDomain
