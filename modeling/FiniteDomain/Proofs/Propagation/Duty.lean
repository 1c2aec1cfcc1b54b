import FiniteDomain.Proofs.Filter.Termination
import FiniteDomain.Proofs.Model.Growth

/-! # What a filter sees to

    A filter may have a duty: stores of some kind are flawed, and a call at one of
    certain positions mends that or is refused.  `Filter.Minds` says that it is up
    to the duty.  A narrowing that brings a flaw about makes a change that the
    filter watches for at one of these positions, and the filter says that its
    constraint holds only where no flaw can follow.

    Only some stores need be looked at, which is what the region of a duty is for:
    a filter may be up to its duty as long as a bound has not moved, say.  And what
    is not to follow once the filter is passive may be more than what is minded
    while it is active.

    While the filter is posted a flaw does not go unnoticed: a call at one of the
    positions is owed (`Space.Minded`).  Each part of propagation keeps this, so
    nothing is flawed when propagation has come to rest (`Minded.clear`). -/

namespace FiniteDomain

/-- The first run of a filter touches the store by narrowings only, as later ones do. -/
theorem Filter.narrowings_initial {f : Filter} {s : Store} {pass : Pass Filter}
    (hpass : Propagator.initial f s = .ok pass) : s.Narrowings pass.store := by
  have htolerates : Filtering.Tolerates fun _ => True := ⟨trivial, trivial⟩
  exact (Filter.disciplined_filter htolerates).narrowsInitially f s pass hpass

/-- What a filter is to see to. -/
structure Duty where
  /-- The positions at which a call sees to it; a first call always does. -/
  heard : LocalId → Prop
  /-- The stores that are looked at. -/
  region : Store → Prop
  /-- What is not to go unnoticed while the filter is active. -/
  flaw : Store → Prop
  /-- What is not to follow once it is passive. -/
  bad : Store → Prop

namespace Duty

variable {d : Duty}

/-- The call sees to the duty. -/
def Serves (d : Duty) : Filter.Call → Prop
  | .initial => True
  | .propagate l _ => d.heard l

/-- The store is one that is looked at, and the variables of the filter exist. -/
structure Covers (d : Duty) (f : Filter) (s : Store) : Prop where
  /-- The store is well-formed. -/
  wf : s.Wf
  /-- The variables exist. -/
  known : ∀ v ∈ f.scope, s.knows v = true
  /-- The store is in the region. -/
  region : d.region s

end Duty

/-- The filter is up to the duty. -/
structure Filter.Minds (f : Filter) (d : Duty) : Prop where
  /-- What is a flaw now is bad later. -/
  bad : ∀ {s : Store}, d.flaw s → d.bad s
  /-- The region is not left. -/
  stays : ∀ {s t : Store}, d.Covers f s → t.Wf → s.Evolves t → d.region t
  /-- A call that sees to a flaw mends it, or it does not succeed. -/
  call : ∀ {c : Filter.Call} {s : Store} {pass : Pass Filter}, d.Covers f s → d.Serves c →
    c.run f s = .ok pass → pass.refusal? = none → d.flaw s → ¬ d.flaw pass.store
  /-- A narrowing that brings a flaw about makes a change that the filter watches for. -/
  watched : ∀ {s : Store} {request : Narrowing}, d.Covers f s → d.flaw (request.apply s).store →
    d.flaw s ∨ ∃ w ∈ Propagator.watches f, d.heard w.position ∧ s.Asked (request.apply s).store w
  /-- Where the constraint is said to hold nothing bad can follow. -/
  entailed : ∀ {s t : Store}, d.Covers f s → Propagator.entailment f s = .ok .holds → t.Wf →
    s.Evolves t → ¬ d.bad t
  /-- New variables do not matter. -/
  grows : ∀ {s t : Store}, (∀ v ∈ f.scope, s.knows v = true) → s.Grows t → d.flaw t → d.flaw s

namespace Filter.Minds

variable {f : Filter} {d : Duty} {s t : Store}

theorem covers (hf : f.Minds d) (h : d.Covers f s) (ht : t.Wf) (hst : s.Evolves t) :
    d.Covers f t :=
  ⟨ht, fun v hv => hst.knows v (h.known v hv), hf.stays h ht hst⟩

/-- Some narrowings that bring a flaw about have announced it. -/
theorem announced (hf : f.Minds d) (h : d.Covers f s) (hst : s.Narrowings t) (hflaw : d.flaw t) :
    d.flaw s ∨ ∃ w ∈ Propagator.watches f, d.heard w.position ∧ t.Announces w := by
  induction hst with
  | refl => exact Or.inl hflaw
  | @narrow t request before ih =>
    have hsteps := before.steps h.wf
    have ht := hsteps.wf h.wf
    have hcovers := hf.covers h ht (hsteps.narrower h.wf).evolves
    rcases hf.watched hcovers hflaw with hflaw | ⟨w, hw, hheard, hasked⟩
    · -- the flaw was there before the last narrowing
      refine (ih hflaw).imp_right fun ⟨w, hw, hheard, hannounces⟩ => ⟨w, hw, hheard, ?_⟩
      exact hannounces.steps (Store.steps_apply ht request)
    · exact Or.inr ⟨w, hw, hheard, Store.announces_apply ht hasked⟩

end Filter.Minds

namespace Space

variable {d : Duty} {f g : Filter} {id other : PropagatorId} {owing : Prop} {sp sp' : Space Filter}

/-- The filter is posted and has a duty: while the store is flawed the filter is owed a call that
    sees to it, unless somebody is `owing` it one. -/
structure Minded (d : Duty) (f : Filter) (id : PropagatorId) (owing : Prop) (sp : Space Filter) :
    Prop extends Duty.Covers d f sp.store where
  /-- The filter is posted. -/
  posted : sp.filterAt? id.index = some f
  /-- It is subscribed to what it watches. -/
  subscribes : ∀ w ∈ Propagator.watches f, sp.Subscribes id w
  /-- If it is passive, nothing bad can follow. -/
  passive : sp.store.isPassive id = true → ∀ t : Store, t.Wf → sp.store.Evolves t → ¬ d.bad t
  /-- A call is owed while there is a flaw. -/
  noticed : d.flaw sp.store →
    owing ∨ ∃ w ∈ Propagator.watches f, d.heard w.position ∧ sp.Owed id w

namespace Minded

/-- When nothing is owed to active propagators nothing is flawed. -/
theorem clear (hf : f.Minds d) (h : sp.Minded d f id False) (hsettled : sp.Settled) :
    ¬ d.flaw sp.store := by
  intro hflaw
  rcases h.noticed hflaw with hfalse | ⟨w, -, -, howed⟩
  · exact hfalse
  · exact h.passive (hsettled.isPassive_of_owed howed) sp.store h.wf (.refl _) (hf.bad hflaw)

/-- Propagation keeps everything but the notice, if nobody becomes passive. -/
theorem leads {owing' : Prop} (hf : f.Minds d) (h : sp.Minded d f id owing)
    (hleads : sp.Leads sp') (hpassive : sp'.store.passive = sp.store.passive)
    (hnoticed : d.flaw sp'.store →
      owing' ∨ ∃ w ∈ Propagator.watches f, d.heard w.position ∧ sp'.Owed id w) :
    sp'.Minded d f id owing' where
  toCovers := hf.covers h.toCovers (hleads.wf h.wf) (hleads.narrower h.wf).evolves
  posted := (hleads.filterAt _).trans h.posted
  subscribes := fun w hw => (h.subscribes w hw).of_eq hleads.watchList hleads.size_eq
  passive := by
    intro hpassive' t ht hevolves
    rw [Store.isPassive, hpassive] at hpassive'
    exact h.passive hpassive' t ht ((hleads.narrower h.wf).evolves.trans hevolves)
  noticed := hnoticed

theorem dispatch (hf : f.Minds d) (h : sp.Minded d f id owing) :
    sp.dispatch.Minded d f id owing := by
  have hstore := store_dispatch sp
  refine h.leads hf (leads_dispatch sp) (by rw [hstore]; rfl) fun hflaw => ?_
  rw [hstore] at hflaw
  have hsame := Store.sameDomains_dropEvents sp.store
  have hbefore := hf.grows h.known (hsame.grows h.wf) hflaw
  refine (h.noticed hbefore).imp_right fun ⟨w, hw, hheard, howed⟩ => ?_
  -- dispatching makes no call, so what was owed is owed still
  rcases (hands_dispatch h.wf).owed id w (h.subscribes w hw) howed with ⟨c, hc, -⟩ | howed
  · exact absurd hc List.not_mem_nil
  · exact ⟨w, hw, hheard, howed⟩

/-- A call that succeeds.  Somebody may owe the filter a call still if the flaw was there before and
    has not been mended. -/
theorem record {owing' : Prop} (hf : f.Minds d) (h : sp.Minded d f id owing) {pass : Pass Filter}
    (hg : sp.filterAt? other.index = some g) (hlawful : g.Lawful sp.store pass)
    (hnarrows : sp.store.Narrowings pass.store)
    (howing : owing → d.flaw sp.store → d.flaw pass.store → owing') :
    (sp.record other pass).Minded d f id owing' := by
  have hsteps := hnarrows.steps h.wf
  refine h.leads hf (leads_record hg hlawful) hsteps.passive_eq fun hflaw => ?_
  rcases hf.announced h.toCovers hnarrows hflaw with hbefore | ⟨w, hw, hheard, hannounces⟩
  · rcases h.noticed hbefore with howes | ⟨w, hw, hheard, howed⟩
    · exact Or.inl (howing howes hbefore hflaw)
    · exact Or.inr ⟨w, hw, hheard, owed_of_store howed hsteps (told_record ..)⟩
  · exact Or.inr ⟨w, hw, hheard, Or.inr (Or.inr hannounces)⟩

/-- A delivery to the propagator that owes the call, or to any other. -/
theorem deliver (hf : f.Minds d) {q : Filter} {pending : List (LocalId × Event)}
    (h : sp.Minded d f id (other = id ∧ ∃ entry ∈ pending, d.heard entry.1))
    (hg : sp.filterAt? other.index = some g)
    (hrun : deliver other g pending sp = .ok (none, q, sp')) : sp'.Minded d f id False := by
  -- on the pending events: only a call for one of those that are left can be owing
  induction pending generalizing sp with
  | nil =>
    cases hrun
    refine h.leads hf (.refl _) rfl fun hflaw => (h.noticed hflaw).imp_left ?_
    rintro ⟨-, entry, hentry, -⟩
    exact List.not_mem_nil hentry
  | cons entry rest ih =>
    obtain ⟨pass, hpass, ⟨refusal, -, hc, -⟩ | ⟨hsuccess, hrest⟩⟩ := deliver_cons_cases hrun
    · cases hc
    have hlawful := Filter.lawful_propagate h.wf hpass
    have hnarrows := narrowers_filter g _ _ sp.store pass hpass
    have hrecord : (sp.record other pass).Minded d f id
        (other = id ∧ ∃ entry ∈ rest, d.heard entry.1) := by
      refine h.record hf hg hlawful hnarrows ?_
      rintro ⟨rfl, first, hfirst, hheard⟩ hbefore hafter
      rcases List.mem_cons.mp hfirst with rfl | hfirst
      · -- this call was owing, and it mends the flaw
        obtain rfl : g = f := Option.some.inj (hg.symm.trans h.posted)
        exact absurd hafter
          (hf.call (c := .propagate first.1 first.2) h.toCovers hheard hpass hsuccess hbefore)
      · exact ⟨rfl, first, hfirst, hheard⟩
    have hg' : (sp.record other pass).dispatch.filterAt? other.index = some g :=
      (((leads_record hg hlawful).trans (leads_dispatch _)).filterAt _).trans hg
    rw [hlawful.self] at hrest
    exact ih (hrecord.dispatch hf) hg' hrest

theorem passivateIfEntailed (hf : f.Minds d) (h : sp.Minded d f id owing)
    (hg : sp.filterAt? other.index = some g)
    (hrun : sp.passivateIfEntailed other g = .ok sp') : sp'.Minded d f id owing := by
  have hleads := leads_passivateIfEntailed hrun
  have hhands := hands_passivateIfEntailed h.wf hrun
  rcases passivateIfEntailed_cases hrun with ⟨hholds, rfl⟩ | rfl
  · have hevolves := (hleads.narrower h.wf).evolves
    have hsame := Store.sameDomains_passivate sp.store other
    refine ⟨hf.covers h.toCovers (hleads.wf h.wf) hevolves, (hleads.filterAt _).trans h.posted,
      fun w hw => hhands.subscribes (h.subscribes w hw), fun hpassive t ht hlater => ?_,
      fun hflaw => ?_⟩
    · have hlater' := hevolves.trans hlater
      -- it is the one that is minded, or another one
      rcases Store.isPassive_passivate.mp hpassive with rfl | hpassive
      · obtain rfl : g = f := Option.some.inj (hg.symm.trans h.posted)
        exact hf.entailed h.toCovers hholds ht hlater'
      · exact h.passive hpassive t ht hlater'
    · have hbefore := hf.grows h.known (hsame.grows h.wf) hflaw
      refine (h.noticed hbefore).imp_right fun ⟨w, hw, hheard, howed⟩ => ?_
      rcases hhands.owed id w (h.subscribes w hw) howed with ⟨c, hc, -⟩ | howed
      · exact absurd hc List.not_mem_nil
      · exact ⟨w, hw, hheard, howed⟩
  · exact h

/-- Running the head of the queue. -/
theorem runNext? (hf : f.Minds d) (h : sp.Minded d f id False)
    (hrun : sp.runNext? = some (.ok (none, sp'))) : sp'.Minded d f id False := by
  obtain ⟨head, queue, p, hpop, hp, hcase⟩ := runNext?_cases hrun rfl
  have hpopped := leads_popped hpop
  have hg : (sp.popped head queue).filterAt? head.index = some p.propagator :=
    (hpopped.filterAt _).trans (filterAt?_eq hp)
  -- what the head was to be told of is owing now
  have hnoticed : d.flaw sp.store → (head = id ∧ ∃ entry ∈ p.pending, d.heard entry.1)
      ∨ ∃ w ∈ Propagator.watches f, d.heard w.position ∧ (sp.popped head queue).Owed id w := by
    intro hflaw
    obtain ⟨w, hw, hheard, howed⟩ := (h.noticed hflaw).resolve_left not_false
    rcases owed_popped hp howed with howed | ⟨rfl, e, he, -⟩
    · exact Or.inr ⟨w, hw, hheard, howed⟩
    · exact Or.inl ⟨rfl, (w.position, e), he, hheard⟩
  rcases hcase with ⟨hpassive, -, rfl⟩ | ⟨hactive, q, after, hdeliver, hend⟩
  · -- a passive filter is not called, but then it is not owed anything either
    refine h.leads hf hpopped rfl fun hflaw => Or.inr ?_
    rcases hnoticed hflaw with ⟨rfl, -⟩ | hwatch
    · exact absurd (hf.bad hflaw) (h.passive hpassive sp.store h.wf (.refl _))
    · exact hwatch
  · have hdelivered := (h.leads hf hpopped rfl hnoticed).deliver hf hg hdeliver
    obtain ⟨hafter, rfl⟩ := leads_deliver (hpopped.wf h.wf) hg hdeliver
    rcases hend with ⟨c, hc, -⟩ | ⟨-, hpassivate⟩
    · cases hc
    · exact hdelivered.passivateIfEntailed hf ((hafter.filterAt _).trans hg) hpassivate

/-- Propagation that meets no contradiction lets no flaw go unnoticed. -/
theorem handed (hf : f.Minds d) :
    Handed fun c? sp => c? = none → sp.Minded d f id False where
  phase := fun _ h hnone =>
    (h hnone).leads hf ⟨.refl _, fun _ => rfl, rfl, rfl⟩ rfl (h hnone).noticed
  dispatch := fun h hnone => (h hnone).dispatch hf
  runNext := by
    rintro sp sp' c? h hrun rfl
    exact (h rfl).runNext? hf hrun

theorem propagate (hf : f.Minds d) (h : sp.Minded d f id False)
    (hrun : sp.propagate = .ok (none, sp')) : sp'.Minded d f id False :=
  (handed hf).propagate (fun _ => h) hrun rfl

/-- A narrowing from outside. -/
theorem narrow (hf : f.Minds d) (h : sp.Minded d f id False) (request : Narrowing) :
    Space.Minded d f id False { sp with store := (request.apply sp.store).store } := by
  have hsteps := Store.steps_apply h.wf request
  have hleads : sp.Leads { sp with store := (request.apply sp.store).store } :=
    ⟨hsteps.toExtends, fun _ => rfl, rfl, rfl⟩
  refine h.leads hf hleads hsteps.passive_eq fun hflaw => Or.inr ?_
  rcases hf.announced h.toCovers (.narrow request .refl) hflaw with
    hbefore | ⟨w, hw, hheard, hannounces⟩
  · obtain ⟨w, hw, hheard, howed⟩ := (h.noticed hbefore).resolve_left not_false
    exact ⟨w, hw, hheard, owed_of_store howed hsteps rfl⟩
  · exact ⟨w, hw, hheard, Or.inr (Or.inr hannounces)⟩

theorem settle (hf : f.Minds d) (h : sp.Minded d f id False) {requests : List Narrowing}
    (hrun : sp.settle requests = .ok (none, sp')) : sp'.Minded d f id False :=
  (handed hf).settle (fun request _ _ h _ => (h rfl).narrow hf request) (fun _ => h) hrun rfl

/-- The first run of a new filter may be the call that is owed. -/
theorem launched (hf : f.Minds d) (h : (sp.entered g).Minded d f id owing)
    (howing : owing → ⟨sp.posted.nextKey⟩ = id) (hlaunched : sp.Launched g sp') :
    sp'.Minded d f id False := by
  obtain ⟨pass, hpass, hsuccess, hpassivate⟩ := hlaunched
  have hself : (sp.entered g).filterAt? sp.posted.nextKey = some g := filterAt?_entered_self
  have hlawful : g.Lawful (sp.entered g).store pass := Filter.lawful_initial h.wf hpass
  have hnarrows : (sp.entered g).store.Narrowings pass.store := Filter.narrowings_initial hpass
  -- if it is the filter itself that is posted, its first run is the call that it was owed
  have hrecord : ((sp.entered g).record ⟨sp.posted.nextKey⟩ pass).Minded d f id False := by
    refine h.record hf hself hlawful hnarrows fun howes hbefore hafter => ?_
    obtain rfl := howing howes
    obtain rfl : g = f := Option.some.inj (hself.symm.trans h.posted)
    exact hf.call (c := .initial) h.toCovers trivial hpass hsuccess hbefore hafter
  rw [hlawful.self] at hpassivate
  have hrecorded : (sp.entered g).Leads ((sp.entered g).record ⟨sp.posted.nextKey⟩ pass) :=
    leads_record hself hlawful
  exact hrecord.passivateIfEntailed hf ((hrecorded.filterAt _).trans hself) hpassivate

theorem post (hf : f.Minds d) (h : (sp.entered g).Minded d f id owing)
    (howing : owing → ⟨sp.posted.nextKey⟩ = id) {new : PropagatorId}
    (hrun : sp.post g = .ok (.ok new, sp')) : sp'.Minded d f id False := by
  obtain ⟨-, mid, hlaunched, hpropagate⟩ := exists_launched hrun
  exact (h.launched hf howing hlaunched).propagate hf hpropagate

/-- A filter that is posted later. -/
theorem entered (h : sp.Minded d f id owing) (g : Filter) :
    (sp.entered g).Minded d f id owing where
  toCovers := h.toCovers
  posted := filterAt?_entered_of_posted h.posted
  subscribes := fun w hw => (h.subscribes w hw).entered g
  passive := h.passive
  noticed := fun hflaw => (h.noticed hflaw).imp_right fun ⟨w, hw, hheard, howed⟩ =>
    ⟨w, hw, hheard, owed_entered howed g⟩

/-- Counters and notes do not matter. -/
theorem alike (h : sp.Minded d f id owing) (halike : sp.Alike sp') : sp'.Minded d f id owing := by
  obtain ⟨store, posted, watchList, queue, phase, calls, failures, passivations, journal⟩ := sp'
  obtain ⟨rfl, rfl, rfl, rfl⟩ := halike
  exact ⟨h.toCovers, h.posted, fun w hw => (h.subscribes w hw).of_eq rfl rfl, h.passive, h.noticed⟩

/-- There are new variables. -/
theorem grows (hf : f.Minds d) (h : sp.Minded d f id False) {store : Store}
    (hgrows : sp.store.Grows store) (hevents : store.events = sp.store.events)
    (hpassive : store.passive = sp.store.passive) :
    Space.Minded d f id False { sp with store } := by
  have hsame : store.isPassive id = sp.store.isPassive id :=
    congrArg (fun passive => passive.contains id) hpassive
  refine ⟨hf.covers h.toCovers hgrows.wf hgrows.evolves, h.posted,
    fun w hw => (h.subscribes w hw).of_eq rfl rfl, fun hid t ht hevolves => ?_, fun hflaw => ?_⟩
  · exact h.passive (hsame.symm.trans hid) t ht (hgrows.evolves.trans hevolves)
  · have hbefore := hf.grows h.known hgrows hflaw
    obtain ⟨w, hw, hheard, howed⟩ := (h.noticed hbefore).resolve_left not_false
    refine Or.inr ⟨w, hw, hheard, ?_⟩
    rcases howed with hid | htold | ⟨e, he, hmeets⟩
    · exact Or.inl (hsame.trans hid)
    · exact Or.inr (Or.inl htold)
    · exact Or.inr (Or.inr ⟨e, hevents ▸ he, hmeets⟩)

end Minded

/-- The filter itself is entered, and is owed its first call. -/
theorem minded_entered (h : d.Covers f sp.store)
    (hactive : sp.store.isPassive ⟨sp.posted.nextKey⟩ = false) :
    (sp.entered f).Minded d f ⟨sp.posted.nextKey⟩ True where
  toCovers := h
  posted := filterAt?_entered_self
  subscribes := fun _ hw => subscribes_entered hw
  passive := fun hpassive => absurd hpassive (Bool.eq_false_iff.mp hactive)
  noticed := fun _ => Or.inl trivial

end Space

end FiniteDomain
