import FiniteDomain.Proofs.Propagation.Alike
import FiniteDomain.Proofs.Propagation.Concern
import FiniteDomain.Proofs.Propagation.Pending

/-! # Nothing amiss goes unnoticed

    The invariant of propagation is `Watchful`: whatever is amiss with an active
    filter is about to be seen to, since one of the positions where a run of the
    filter does so is to be told of an event, or an event waits that will tell it,
    or the run that is under way covers it.  Each part of propagation keeps it:
    dispatching, taking the head of the queue, running a filter, making one
    passive. -/

namespace FiniteDomain.Space

variable {k : Concern} {sp sp' : Space Filter} {f : Filter} {i : Nat}

/-! ### Spaces whose filters can be run -/

/-- The filters and the subscriptions fit the store. -/
structure Fit (k : Concern) (sp : Space Filter) : Prop where
  /-- The domains are well-formed. -/
  wf : sp.store.Wf
  /-- The filters are among those that are looked at. -/
  regards : ∀ i f, sp.filterAt? i = some f → k.Regards f sp.store
  /-- The filters can be run. -/
  ready : ∀ i f, sp.filterAt? i = some f → f.Ready sp.store
  /-- Every watch of a filter is subscribed. -/
  watched : ∀ i f, sp.filterAt? i = some f → ∀ w ∈ f.watches, ∀ e,
    w.events.meets e.wakes = true → ⟨⟨i⟩, w.position⟩ ∈ sp.watchList.affected e w.target
  /-- Every subscription comes from a watch. -/
  subscribed : ∀ e v p, p ∈ sp.watchList.affected e v →
    ∃ f, sp.filterAt? p.propagator.index = some f ∧ ∃ w ∈ f.watches, w.target = v
      ∧ w.position = p.localId ∧ w.events.meets e.wakes = true
  /-- A passive propagator is posted, and nothing will be amiss with it. -/
  closed : ∀ i, sp.store.isPassive ⟨i⟩ = true →
    ∃ f, sp.filterAt? i = some f ∧ k.Closed sp.store f

/-- Only the store, the filters and the subscriptions matter. -/
theorem Fit.of_eq (h : sp.Fit k) (hstore : sp'.store = sp.store)
    (hfilters : ∀ i, sp'.filterAt? i = sp.filterAt? i) (hwatch : sp'.watchList = sp.watchList) :
    sp'.Fit k := by
  obtain ⟨h₁, h₂, h₃, h₄, h₅, h₆⟩ := h
  refine ⟨?_, ?_, ?_, ?_, ?_, ?_⟩
  · rwa [hstore]
  · simpa only [hfilters, hstore] using h₂
  · simpa only [hfilters, hstore] using h₃
  · simpa only [hfilters, hwatch] using h₄
  · simpa only [hfilters, hwatch] using h₅
  · simpa only [hfilters, hstore] using h₆

theorem Fit.steps (h : sp.Fit k) {t : Store} (hst : sp.store.Steps t) :
    Fit k { sp with store := t } where
  wf := hst.wf h.wf
  regards := fun i f hf => k.regards_steps (h.regards i f hf) hst
  ready := fun i f hf => (h.ready i f hf).steps hst h.wf
  watched := h.watched
  subscribed := h.subscribed
  closed := fun i hpassive => by
    rw [Store.isPassive, hst.passive_eq] at hpassive
    obtain ⟨f, hf, hclosed⟩ := h.closed i hpassive
    exact ⟨f, hf, k.closed_steps h.wf (h.ready i f hf) (h.regards i f hf) hclosed hst⟩

/-- Events, trail and passive filters may change as long as nothing will be amiss with the passive
    ones. -/
theorem Fit.sameDomains (h : sp.Fit k) {t : Store} (hst : sp.store.SameDomains t)
    (hpassive : ∀ i, t.isPassive ⟨i⟩ = true →
      ∃ f, sp.filterAt? i = some f ∧ k.Closed sp.store f) :
    Fit k { sp with store := t } where
  wf := hst.wf h.wf
  regards := fun i f hf => k.regards_sameDomains (h.regards i f hf) hst
  ready := fun i f hf => (h.ready i f hf).sameDomains hst
  watched := h.watched
  subscribed := h.subscribed
  closed := fun i hp => by
    obtain ⟨f, hf, hclosed⟩ := hpassive i hp
    exact ⟨f, hf, k.closed_sameDomains h.wf (h.ready i f hf) (h.regards i f hf) hclosed hst⟩

theorem Fit.dispatch (h : sp.Fit k) : sp.dispatch.Fit k := by
  have hdrop : Fit k { sp with store := sp.store.dropEvents } :=
    h.sameDomains (Store.sameDomains_dropEvents _) h.closed
  have hleads := leads_dispatch sp
  exact hdrop.of_eq (store_dispatch sp) hleads.filterAt hleads.watchList

/-! ### The invariant -/

/-- Whatever is amiss with an active filter is about to be seen to; `covered` says what by a run
    that is under way. -/
structure Watchful (k : Concern) (covered : Nat → Set LocalId → Prop) (sp : Space Filter) : Prop
    extends Fit k sp, Orderly sp where
  /-- A variable is fixed when its assignment is announced. -/
  assigned : sp.store.Assigned
  /-- A filter is told only of what it expects. -/
  expected : ∀ i f, sp.filterAt? i = some f → ∀ entry ∈ sp.told i, f.Expects sp.store entry.1
  /-- Nothing amiss goes unnoticed. -/
  noticed : ∀ i f, sp.ActiveAt i f → ∀ A, k.Amiss sp.store f A →
    (∃ entry ∈ sp.told i, entry.1 ∈ A) ∨ f.Woken sp.store A ∨ covered i A

section

variable {covered covered' : Nat → Set LocalId → Prop}

/-- Nothing need be covered that is not amiss. -/
theorem Watchful.mono (h : sp.Watchful k covered)
    (hcovered : ∀ i f, sp.ActiveAt i f → ∀ A, k.Amiss sp.store f A → covered i A →
      covered' i A) : sp.Watchful k covered' where
  toFit := h.toFit
  toOrderly := h.toOrderly
  assigned := h.assigned
  expected := h.expected
  noticed := fun i f hactive A hamiss => by
    rcases h.noticed i f hactive A hamiss with htold | hwoken | hcov
    · exact Or.inl htold
    · exact Or.inr (Or.inl hwoken)
    · exact Or.inr (Or.inr (hcovered i f hactive A hamiss hcov))

/-- Counters and notes do not matter. -/
theorem Watchful.alike (h : sp.Watchful k covered) (halike : Alike sp sp') :
    sp'.Watchful k covered := by
  obtain ⟨store, posted, watchList, queue, phase, calls, failures, passivations, journal⟩ := sp'
  obtain ⟨rfl, rfl, rfl, rfl⟩ := halike
  exact ⟨h.toFit.of_eq rfl (fun _ => rfl) rfl, ⟨⟨h.lines, h.waits⟩, h.nodup, h.known⟩, h.assigned,
    h.expected, h.noticed⟩

/-- A step that brings something about announces an event that tells the filter. -/
theorem Watchful.steps (h : sp.Watchful k covered) {t : Store} (hst : sp.store.Steps t) :
    Watchful k covered { sp with store := t } where
  toFit := h.toFit.steps hst
  toOrderly := ⟨⟨h.lines, h.waits⟩, h.nodup, h.known⟩
  assigned := hst.assigned h.wf h.assigned
  expected := fun i f hf entry hentry =>
    (h.expected i f hf entry hentry).steps hst h.wf (h.ready i f hf)
  noticed := fun i f hactive A hamiss => by
    have hactive' : sp.ActiveAt i f := by
      refine ⟨hactive.1, ?_⟩
      rw [Store.isPassive, ← hst.passive_eq]
      exact hactive.2
    rcases k.amiss_steps h.wf (h.ready i f hactive.1) (h.regards i f hactive.1) hst hamiss with
      hbefore | hwoken
    swap
    · exact Or.inr (Or.inl hwoken)
    rcases h.noticed i f hactive' A hbefore with hold | hwoken | hcov
    · exact Or.inl hold
    · exact Or.inr (Or.inl (hwoken.steps hst))
    · exact Or.inr (Or.inr hcov)

/-- Dispatching turns what waits in the store into what filters are to be told. -/
theorem Watchful.dispatch (h : sp.Watchful k covered) : sp.dispatch.Watchful k covered := by
  have htells := tells_dispatch sp
  have hsame := Store.sameDomains_dropEvents sp.store
  have hstore := store_dispatch sp
  refine ⟨h.toFit.dispatch, orderly_dispatch h.toOrderly, ?_, ?_, ?_⟩
  · intro x hx
    rw [hstore] at hx
    exact absurd hx List.not_mem_nil
  · intro i f hf entry hentry
    rw [htells.filterAt] at hf
    rw [hstore]
    rcases (htells.told i entry).mp hentry with hbefore | ⟨-, v, hv, hposition⟩
    · exact (h.expected i f hf entry hbefore).sameDomains hsame
    · obtain ⟨f', hf', w, hw, rfl, hw', hmeets⟩ := h.subscribed _ _ _ hposition
      obtain rfl : f' = f := Option.some.inj (hf'.symm.trans hf)
      change w.position = entry.1 at hw'
      rw [← hw']
      refine (Filter.expects_of_watch h.wf (h.ready i f' hf) hw hmeets ?_).sameDomains hsame
      intro x he hx
      rw [he, hx] at hv
      exact h.assigned x hv
  · intro i f hactive A hamiss
    have hactive' : sp.ActiveAt i f := htells.activeAt.mp hactive
    rw [hstore] at hamiss
    have hbefore := k.amiss_sameDomains h.wf (h.ready i f hactive'.1) (h.regards i f hactive'.1)
      hsame hamiss
    -- what was noticed by an event that waited is now among what the filter is to be told
    rcases h.noticed i f hactive' A hbefore with
      ⟨entry, hentry, hA⟩ | ⟨w, hw, hA, e, he, hmeets⟩ | hcov
    · exact Or.inl ⟨entry, (htells.told i entry).mpr (Or.inl hentry), hA⟩
    · refine Or.inl ⟨(w.position, e), (htells.told i _).mpr (Or.inr ⟨⟨f, hactive'⟩, ?_⟩), hA⟩
      exact ⟨w.target, he, h.watched i f hactive'.1 w hw e hmeets⟩
    · exact Or.inr (Or.inr hcov)

/-- Carrying out a run that succeeds.  What it has seen to need not be covered any more. -/
theorem Watchful.record (h : sp.Watchful k covered) {id : PropagatorId} {pass : Pass Filter}
    {sat : Valuation → Prop} {served : LocalId → Prop} (hf : sp.filterAt? id.index = some f)
    (hran : f.Ran sat sp.store (f.Served served sp.store) pass)
    (hsuccess : pass.refusal? = none)
    (hcovered : ∀ i A, covered i A → covered' i A ∨ (i = id.index ∧
      (A.Nonempty → ∃ l ∈ A, ∀ l', f.Handles l l' → served l'))) :
    (sp.record id pass).Watchful k covered' := by
  have hleads := leads_record hf ⟨hran.self, hran.steps.toExtends⟩
  have htold : ∀ i, (sp.record id pass).told i = sp.told i := by
    intro i
    rw [told_modify sp rfl]
    split
    next heq =>
      subst heq
      rfl
    next => rfl
  have hsteps := h.steps hran.steps
  refine ⟨hsteps.toFit.of_eq rfl hleads.filterAt rfl, orderly_record h.toOrderly id pass,
    hsteps.assigned, ?_, ?_⟩
  · intro i f' hf' entry hentry
    rw [hleads.filterAt] at hf'
    rw [htold] at hentry
    exact hsteps.expected i f' hf' entry hentry
  · intro i f' hactive A hamiss
    have hf' : sp.filterAt? i = some f' := (hleads.filterAt i).symm.trans hactive.1
    rw [htold]
    rcases hsteps.noticed i f' ⟨hf', hactive.2⟩ A hamiss with hold | hwoken | hcov
    · exact Or.inl hold
    · exact Or.inr (Or.inl hwoken)
    rcases hcovered i A hcov with hcov' | ⟨rfl, hserved⟩
    · exact Or.inr (Or.inr hcov')
    · -- only the run itself can have brought this about
      obtain rfl : f' = f := Option.some.inj (hf'.symm.trans hf)
      obtain ⟨l, hl, hall⟩ := hserved (k.nonempty hamiss)
      exact Or.inr (Or.inl (k.amiss_ran h.wf (h.ready _ f' hf) (h.regards _ f' hf)
        (hran.imp fun t ht => ht.mono hall) hsuccess hl hamiss))

/-- Taking the head of the queue: what it was to be told is covered by its run. -/
theorem Watchful.popped (h : sp.Watchful k fun _ _ => False) {id : PropagatorId} {queue : Queue}
    (hpop : sp.queue.pop? = some (id, queue)) :
    (sp.popped id queue).Watchful k fun i A => i = id.index ∧ ∃ entry ∈ sp.told i, entry.1 ∈ A := by
  have hleads := leads_popped hpop
  -- only the head forgets what it was to be told
  have htold : ∀ i, (sp.popped id queue).told i = if id.index = i then [] else sp.told i := by
    intro i
    rw [told_modify sp rfl]
    by_cases heq : id.index = i
    · rw [if_pos heq, if_pos heq]
      cases sp.posted.get? i <;> rfl
    · rw [if_neg heq, if_neg heq]
  refine ⟨h.toFit.of_eq rfl hleads.filterAt rfl, orderly_popped h.toOrderly hpop, h.assigned,
    ?_, ?_⟩
  · intro i f hf entry hentry
    rw [hleads.filterAt] at hf
    rw [htold] at hentry
    split at hentry
    · exact absurd hentry List.not_mem_nil
    · exact h.expected i f hf entry hentry
  · intro i f hactive A hamiss
    have hactive' : sp.ActiveAt i f := ⟨(hleads.filterAt i).symm.trans hactive.1, hactive.2⟩
    rw [htold]
    rcases h.noticed i f hactive' A hamiss with hold | hwoken | hfalse
    · split
      next heq => exact Or.inr (Or.inr ⟨heq.symm, hold⟩)
      next => exact Or.inl hold
    · exact Or.inr (Or.inl hwoken)
    · exact hfalse.elim

/-- A filter may become passive once nothing will be amiss with it any more. -/
theorem Watchful.passivate (h : sp.Watchful k covered) {id : PropagatorId}
    (hf : sp.filterAt? id.index = some f) (hclosed : k.Closed sp.store f) (n : Nat) :
    Watchful k covered { sp with store := sp.store.passivate id, passivations := n } := by
  have hsame := Store.sameDomains_passivate sp.store id
  have hpassive : ∀ i, (sp.store.passivate id).isPassive ⟨i⟩ = true ↔
      i = id.index ∨ sp.store.isPassive ⟨i⟩ = true := fun i =>
    Store.isPassive_passivate.trans
      (or_congr_left ⟨congrArg PropagatorId.index, congrArg PropagatorId.mk⟩)
  have hevents := Store.events_passivate sp.store id
  have hfit : Fit k { sp with store := sp.store.passivate id } := by
    refine h.toFit.sameDomains hsame fun i hp => ?_
    rcases (hpassive i).mp hp with rfl | hp
    · exact ⟨f, hf, hclosed⟩
    · exact h.closed i hp
  refine ⟨hfit.of_eq rfl (fun _ => rfl) rfl, ⟨⟨h.lines, h.waits⟩, h.nodup, h.known⟩, ?_, ?_, ?_⟩
  · intro x hx
    have hx' := h.assigned x (hevents ▸ hx)
    rwa [← hsame.int] at hx'
  · exact fun i f' hf' entry hentry => (h.expected i f' hf' entry hentry).sameDomains hsame
  · intro i f' hactive A hamiss
    have hactive' : sp.ActiveAt i f' := by
      refine ⟨hactive.1, Bool.eq_false_iff.mpr fun hp => ?_⟩
      have hno := hactive.2
      rw [(hpassive i).mpr (Or.inr hp)] at hno
      cases hno
    have hbefore := k.amiss_sameDomains h.wf (h.ready i f' hactive.1) (h.regards i f' hactive.1)
      hsame hamiss
    rcases h.noticed i f' hactive' A hbefore with hold | hwoken | hcov
    · exact Or.inl hold
    · obtain ⟨w, hw, hA, e, he, hmeets⟩ := hwoken
      exact Or.inr (Or.inl ⟨w, hw, hA, e, hevents ▸ he, hmeets⟩)
    · exact Or.inr (Or.inr hcov)

end

end FiniteDomain.Space
