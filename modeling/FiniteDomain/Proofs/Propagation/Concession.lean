import FiniteDomain.Proofs.Propagation.Guard

/-! # Valuations that filters concede

    A filter concedes a valuation if no call of it refuses or loses it, on whatever
    store that is left (`Filter.Concedes`).  Nothing is said about other
    valuations, about faults, or about what the filter stands for; one that is
    right for its constraint concedes what satisfies it.

    If all posted filters concede a valuation that the store admits
    (`Space.Concedes`), propagation meets no contradiction and keeps it, also
    after narrowings that it obeys. -/

namespace FiniteDomain

variable {f g : Filter} {a : Valuation}

/-- No call of the filter on the store, or on what is left of it, refuses or loses the valuation. -/
def Filter.Concedes (f : Filter) (a : Valuation) (s : Store) : Prop :=
  ∀ t : Store, s.Narrower t → t.Admits a → ∀ (c : Filter.Call) (pass : Pass Filter),
    c.run f t = .ok pass → pass.refusal? = none ∧ pass.store.Admits a

theorem Filter.Concedes.narrower {s t : Store} (h : f.Concedes a s) (hst : s.Narrower t) :
    f.Concedes a t :=
  fun u htu => h u (hst.trans htu)

namespace Space

variable {id : PropagatorId} {sp sp' : Space Filter} {c? : Option Contradiction}

/-- The store admits the valuation, and all posted filters concede it. -/
structure Concedes (sp : Space Filter) (a : Valuation) : Prop where
  /-- The store is well-formed. -/
  wf : sp.store.Wf
  /-- The store admits the valuation. -/
  admits : sp.store.Admits a
  /-- The filters concede it. -/
  filters : ∀ i f, sp.filterAt? i = some f → f.Concedes a sp.store

namespace Concedes

/-- Where the valuation is not lost, it is conceded still. -/
theorem leads (h : sp.Concedes a) (hleads : sp.Leads sp') (hadmits : sp'.store.Admits a) :
    sp'.Concedes a := by
  refine ⟨hleads.wf h.wf, hadmits, fun i f hf => ?_⟩
  rw [hleads.filterAt] at hf
  exact (h.filters i f hf).narrower (hleads.narrower h.wf)

theorem dispatch (h : sp.Concedes a) : sp.dispatch.Concedes a := by
  refine h.leads (leads_dispatch sp) ?_
  rw [store_dispatch]
  exact (Store.sameDomains_dropEvents sp.store).admits h.admits

/-- A delivery meets no contradiction. -/
theorem deliver (h : sp.Concedes a) {q : Filter} {pending : List (LocalId × Event)}
    (hf : sp.filterAt? id.index = some f)
    (hrun : Space.deliver id f pending sp = .ok (c?, q, sp')) : c? = none ∧ sp'.Concedes a := by
  -- on the pending events: each call leaves a space that concedes the valuation still
  induction pending generalizing sp with
  | nil =>
    cases hrun
    exact ⟨rfl, h⟩
  | cons entry rest ih =>
    obtain ⟨pass, hpass, hcase⟩ := deliver_cons_cases hrun
    obtain ⟨hsuccess, hadmits⟩ :=
      h.filters _ f hf sp.store (.refl h.wf) h.admits (.propagate entry.1 entry.2) pass hpass
    rcases hcase with ⟨refusal, hrefusal, -⟩ | ⟨-, hrest⟩
    · cases hsuccess.symm.trans hrefusal
    · have hlawful := Filter.lawful_propagate h.wf hpass
      have hrecorded := leads_record hf hlawful
      have hf' := ((hrecorded.trans (leads_dispatch _)).filterAt id.index).trans hf
      rw [hlawful.self] at hrest
      exact ih (h.leads hrecorded hadmits).dispatch hf' hrest

theorem passivateIfEntailed (h : sp.Concedes a) (hrun : sp.passivateIfEntailed id f = .ok sp') :
    sp'.Concedes a := by
  have hleads := leads_passivateIfEntailed hrun
  rcases passivateIfEntailed_cases hrun with ⟨-, rfl⟩ | rfl
  · exact h.leads hleads ((Store.sameDomains_passivate sp.store id).admits h.admits)
  · exact h

/-- Running the head of the queue meets no contradiction. -/
theorem runNext? (h : sp.Concedes a) (hrun : sp.runNext? = some (.ok (c?, sp'))) :
    c? = none ∧ sp'.Concedes a := by
  obtain ⟨head, queue, p, hpop, hp, hcase⟩ := runNext?_cases hrun rfl
  have hleads := leads_popped hpop
  have hpopped : (sp.popped head queue).Concedes a := h.leads hleads h.admits
  have hf : (sp.popped head queue).filterAt? head.index = some p.propagator :=
    (hleads.filterAt _).trans (filterAt?_eq hp)
  rcases hcase with ⟨-, hnone, rfl⟩ | ⟨-, q, after, hdeliver, hend⟩
  · exact ⟨hnone, hpopped⟩
  · obtain ⟨rfl, hdelivered⟩ := hpopped.deliver hf hdeliver
    rcases hend with ⟨c, hc, -⟩ | ⟨-, hpassivate⟩
    · cases hc
    · exact ⟨rfl, hdelivered.passivateIfEntailed hpassivate⟩

theorem handed : Handed fun c? sp => c? = none ∧ sp.Concedes a where
  phase := fun _ h => ⟨rfl, h.2.leads ⟨.refl _, fun _ => rfl, rfl, rfl⟩ h.2.admits⟩
  dispatch := fun h => ⟨rfl, h.2.dispatch⟩
  runNext := fun h hrun => h.2.runNext? hrun

/-- Propagation meets no contradiction and keeps the valuation. -/
theorem propagate (h : sp.Concedes a) (hrun : sp.propagate = .ok (c?, sp')) :
    c? = none ∧ sp'.Concedes a :=
  handed.propagate ⟨rfl, h⟩ hrun

/-- Nor is it lost after decisions that it obeys. -/
theorem settle (h : sp.Concedes a) {ds : List Decision} (hholds : ∀ d ∈ ds, d.Holds a)
    (hrun : sp.settle (ds.map Decision.request) = .ok (c?, sp')) : c? = none ∧ sp'.Concedes a := by
  refine handed.settle (fun request hrequest sp h => ?_) ⟨rfl, h⟩ hrun
  obtain ⟨d, hd, rfl⟩ := List.mem_map.mp hrequest
  have hobeys := d.apply_obeys h.2.wf
  have hsteps : sp.store.Steps (d.apply sp.store).store := .of_narrowed hobeys.toSteps
  have hleads : sp.Leads { sp with store := (d.apply sp.store).store } :=
    ⟨hsteps.toExtends, fun _ => rfl, rfl, rfl⟩
  -- a decision that the valuation obeys leaves its domain with a value at least
  have hchanged : (d.apply sp.store).changed? ≠ none := fun hempty =>
    hobeys.empty hempty a h.2.admits (hholds d hd)
  exact ⟨if_neg hchanged, h.2.leads hleads (hobeys.kept a h.2.admits (hholds d hd))⟩

/-- Posting a filter that concedes the valuation too. -/
theorem post (h : sp.Concedes a) (hf : f.Concedes a sp.store)
    {result : Except Contradiction PropagatorId} (hrun : sp.post f = .ok (result, sp')) :
    result = .ok ⟨sp.posted.nextKey⟩ ∧ sp'.Concedes a := by
  obtain ⟨pass, hpass, hcase⟩ := post_cases hrun
  -- the first run is a call like any other, on the space with the filter entered
  have hentered : (sp.entered f).Concedes a := by
    refine ⟨h.wf, h.admits, fun i g hg => ?_⟩
    rcases entered_cases hg with ⟨-, rfl⟩ | hg
    · exact hf
    · exact h.filters i g hg
  obtain ⟨hsuccess, hadmits⟩ := hf sp.store (.refl h.wf) h.admits .initial pass hpass
  have hself : (sp.entered f).filterAt? sp.posted.nextKey = some f := filterAt?_entered_self
  have hlawful : f.Lawful (sp.entered f).store pass := Filter.lawful_initial h.wf hpass
  have hrecorded : (sp.entered f).Leads ((sp.entered f).record ⟨sp.posted.nextKey⟩ pass) :=
    leads_record hself hlawful
  rcases hcase with ⟨refusal, c, hrefusal, -, -⟩ | ⟨-, mid, c?, hmid, hpropagate, hresult⟩
  · rw [hsuccess] at hrefusal
    cases hrefusal
  · have hrecord := hentered.leads hrecorded hadmits
    obtain ⟨rfl, hlast⟩ := (hrecord.passivateIfEntailed hmid).propagate hpropagate
    exact ⟨hresult, hlast⟩

end Concedes

/-- Before anything is posted, whatever the store admits is conceded. -/
theorem concedes_of_size (hwf : sp.store.Wf) (hsize : sp.posted.size = 0)
    (hadmits : sp.store.Admits a) : sp.Concedes a := by
  refine ⟨hwf, hadmits, fun i f hf => ?_⟩
  have hlt := filterAt?_lt hf
  omega

end Space

end FiniteDomain
