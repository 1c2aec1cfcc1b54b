import FiniteDomain.Proofs.Propagation.Duty

/-! # What filters guard against

    A filter may guard against stores of some kind, such as those in which the
    least sum exceeds a limit (`Filter.Guards`): it does not succeed on one, a
    narrowing that leads to one makes a change that the filter watches for, and
    the filter says that its constraint holds only where none can follow.  Nothing
    is assumed about the ranges of variables, nor that the filter is right for its
    constraint.

    To guard against them is a duty at all positions and for all stores
    (`Guards.minds`).  So as long as the filter is posted a store of the kind does
    not go unnoticed (`Space.Guarded`), and there is no such store when propagation
    has come to rest (`Guarded.clear`).

    A filter that is posted begins active, for nobody is passive who is not posted
    (`Space.Attended`). -/

namespace FiniteDomain

variable {beyond : Store → Prop} {f g : Filter}

/-- The filter guards against stores of a kind. -/
structure Filter.Guards (f : Filter) (beyond : Store → Prop) : Prop where
  /-- No call succeeds on such a store. -/
  call : ∀ {c : Filter.Call} {s : Store} {pass : Pass Filter}, c.run f s = .ok pass →
    pass.refusal? = none → ¬ beyond s
  /-- A narrowing that leads to such a store makes a change that the filter watches for. -/
  watched : ∀ {s : Store} {request : Narrowing}, s.Wf → beyond (request.apply s).store →
    beyond s ∨ ∃ w ∈ Propagator.watches f, s.Asked (request.apply s).store w
  /-- Where the constraint is said to hold no such store can follow. -/
  entailed : ∀ {s t : Store}, s.Wf → (∀ v ∈ f.scope, s.knows v = true) →
    Propagator.entailment f s = .ok .holds → t.Wf → s.Evolves t → ¬ beyond t
  /-- New variables do not matter. -/
  grows : ∀ {s t : Store}, (∀ v ∈ f.scope, s.knows v = true) → s.Grows t → beyond t → beyond s

/-- To see to it that the store is not of the kind. -/
def Duty.avoid (beyond : Store → Prop) : Duty where
  heard := fun _ => True
  region := fun _ => True
  flaw := beyond
  bad := beyond

theorem Filter.Guards.minds (hf : f.Guards beyond) : f.Minds (.avoid beyond) where
  bad := id
  stays := fun _ _ _ => trivial
  call := fun _ _ hrun hsuccess hbeyond => absurd hbeyond (hf.call hrun hsuccess)
  watched := fun h hbeyond => (hf.watched h.wf hbeyond).imp_right fun ⟨w, hw, hasked⟩ =>
    ⟨w, hw, trivial, hasked⟩
  entailed := fun h hholds => hf.entailed h.wf h.known hholds
  grows := hf.grows

namespace Space

variable {id other : PropagatorId} {owing : Prop} {sp sp' : Space Filter}

/-! ### Stores that do not go unnoticed -/

/-- The filter is posted and guards against stores of a kind: while the store is one, the filter is
    owed a call, unless somebody is `owing` it one. -/
structure Guarded (beyond : Store → Prop) (f : Filter) (id : PropagatorId) (owing : Prop)
    (sp : Space Filter) : Prop where
  /-- The store is well-formed. -/
  wf : sp.store.Wf
  /-- The filter is posted. -/
  posted : sp.filterAt? id.index = some f
  /-- Its variables exist. -/
  known : ∀ v ∈ f.scope, sp.store.knows v = true
  /-- It is subscribed to what it watches. -/
  subscribes : ∀ w ∈ Propagator.watches f, sp.Subscribes id w
  /-- If it is passive, no such store can follow. -/
  passive : sp.store.isPassive id = true → ∀ t : Store, t.Wf → sp.store.Evolves t → ¬ beyond t
  /-- A call is owed while the store is such a one. -/
  noticed : beyond sp.store → owing ∨ ∃ w ∈ Propagator.watches f, sp.Owed id w

theorem guarded_iff : sp.Guarded beyond f id owing ↔ sp.Minded (.avoid beyond) f id owing := by
  constructor
  · intro h
    refine ⟨⟨h.wf, h.known, trivial⟩, h.posted, h.subscribes, h.passive, fun hbeyond => ?_⟩
    exact (h.noticed hbeyond).imp_right fun ⟨w, hw, howed⟩ => ⟨w, hw, trivial, howed⟩
  · intro h
    refine ⟨h.wf, h.posted, h.known, h.subscribes, h.passive, fun hbeyond => ?_⟩
    exact (h.noticed hbeyond).imp_right fun ⟨w, hw, _, howed⟩ => ⟨w, hw, howed⟩

namespace Guarded

/-- When nothing is owed to active propagators the store is not of the kind. -/
theorem clear (hf : f.Guards beyond) (h : sp.Guarded beyond f id False) (hsettled : sp.Settled) :
    ¬ beyond sp.store :=
  (guarded_iff.mp h).clear hf.minds hsettled

theorem settle (hf : f.Guards beyond) (h : sp.Guarded beyond f id False) {requests : List Narrowing}
    (hrun : sp.settle requests = .ok (none, sp')) : sp'.Guarded beyond f id False :=
  guarded_iff.mpr ((guarded_iff.mp h).settle hf.minds hrun)

/-- Posting runs the new filter for the first time, and it may be that it owes that call. -/
theorem post (hf : f.Guards beyond) (h : (sp.entered g).Guarded beyond f id owing)
    (howing : owing → ⟨sp.posted.nextKey⟩ = id) {new : PropagatorId}
    (hrun : sp.post g = .ok (.ok new, sp')) : sp'.Guarded beyond f id False :=
  guarded_iff.mpr ((guarded_iff.mp h).post hf.minds howing hrun)

/-- A filter that is posted later. -/
theorem entered (h : sp.Guarded beyond f id owing) (g : Filter) :
    (sp.entered g).Guarded beyond f id owing :=
  guarded_iff.mpr ((guarded_iff.mp h).entered g)

/-- Counters and notes do not matter. -/
theorem alike (h : sp.Guarded beyond f id owing) (halike : sp.Alike sp') :
    sp'.Guarded beyond f id owing :=
  guarded_iff.mpr ((guarded_iff.mp h).alike halike)

/-- There are new variables. -/
theorem grows (hf : f.Guards beyond) (h : sp.Guarded beyond f id False) {store : Store}
    (hgrows : sp.store.Grows store) (hevents : store.events = sp.store.events)
    (hpassive : store.passive = sp.store.passive) :
    Space.Guarded beyond f id False { sp with store } :=
  guarded_iff.mpr ((guarded_iff.mp h).grows hf.minds hgrows hevents hpassive)

end Guarded

/-- The filter itself is entered, and is owed its first call. -/
theorem guarded_entered (hwf : sp.store.Wf) (hknown : ∀ v ∈ f.scope, sp.store.knows v = true)
    (hactive : sp.store.isPassive ⟨sp.posted.nextKey⟩ = false) :
    (sp.entered f).Guarded beyond f ⟨sp.posted.nextKey⟩ True :=
  guarded_iff.mpr (minded_entered ⟨hwf, hknown, trivial⟩ hactive)

/-! ### Who is passive -/

/-- Only who is posted is passive. -/
structure Attended (sp : Space Filter) : Prop where
  /-- The store is well-formed. -/
  wf : sp.store.Wf
  /-- Who is passive is posted. -/
  posted : ∀ id, sp.store.isPassive id = true → id.index < sp.posted.size

theorem attended_empty : (Space.empty : Space Filter).Attended :=
  ⟨Store.wf_empty, nofun⟩

namespace Attended

theorem leads (h : sp.Attended) (hleads : sp.Leads sp')
    (hpassive : sp'.store.passive = sp.store.passive) : sp'.Attended := by
  refine ⟨hleads.wf h.wf, fun id hid => ?_⟩
  rw [Store.isPassive, hpassive] at hid
  rw [hleads.size_eq]
  exact h.posted id hid

theorem record (h : sp.Attended) {pass : Pass Filter} (hg : sp.filterAt? other.index = some g)
    (hlawful : g.Lawful sp.store pass) (hnarrows : sp.store.Narrowings pass.store) :
    (sp.record other pass).Attended :=
  h.leads (leads_record hg hlawful) (hnarrows.steps h.wf).passive_eq

theorem dispatch (h : sp.Attended) : sp.dispatch.Attended :=
  h.leads (leads_dispatch sp) (by rw [store_dispatch]; rfl)

theorem deliver (h : sp.Attended) {q : Filter} {pending : List (LocalId × Event)}
    {c? : Option Contradiction} (hg : sp.filterAt? other.index = some g)
    (hrun : Space.deliver other g pending sp = .ok (c?, q, sp')) : sp'.Attended := by
  induction pending generalizing sp with
  | nil =>
    cases hrun
    exact h
  | cons entry rest ih =>
    obtain ⟨pass, hpass, hcase⟩ := deliver_cons_cases hrun
    have hlawful := Filter.lawful_propagate h.wf hpass
    have hrecord := h.record hg hlawful (narrowers_filter g _ _ sp.store pass hpass)
    have hrecorded := leads_record hg hlawful
    rcases hcase with ⟨refusal, -, -, -, rfl⟩ | ⟨-, hrest⟩
    · exact hrecord.leads (leads_fail _) rfl
    · rw [hlawful.self] at hrest
      have hg' := ((hrecorded.trans (leads_dispatch _)).filterAt other.index).trans hg
      exact ih hrecord.dispatch hg' hrest

theorem passivateIfEntailed (h : sp.Attended) (hg : sp.filterAt? other.index = some g)
    (hrun : sp.passivateIfEntailed other g = .ok sp') : sp'.Attended := by
  have hleads := leads_passivateIfEntailed hrun
  rcases passivateIfEntailed_cases hrun with ⟨-, rfl⟩ | rfl
  · refine ⟨hleads.wf h.wf, fun id hid => ?_⟩
    rcases Store.isPassive_passivate.mp hid with rfl | hid
    · exact filterAt?_lt hg
    · exact h.posted id hid
  · exact h

theorem runNext? (h : sp.Attended) {c? : Option Contradiction}
    (hrun : sp.runNext? = some (.ok (c?, sp'))) : sp'.Attended := by
  obtain ⟨head, queue, p, hpop, hp, hcase⟩ := runNext?_cases hrun rfl
  have hleads := leads_popped hpop
  have hpopped : (sp.popped head queue).Attended := h.leads hleads rfl
  have hg : (sp.popped head queue).filterAt? head.index = some p.propagator :=
    (hleads.filterAt _).trans (filterAt?_eq hp)
  rcases hcase with ⟨-, -, rfl⟩ | ⟨-, q, after, hdeliver, hend⟩
  · exact hpopped
  · obtain ⟨hafter, rfl⟩ := leads_deliver hpopped.wf hg hdeliver
    have hdelivered := hpopped.deliver hg hdeliver
    rcases hend with ⟨c, -, rfl⟩ | ⟨-, hpassivate⟩
    · exact hdelivered
    · exact hdelivered.passivateIfEntailed ((hafter.filterAt _).trans hg) hpassivate

theorem handed : Handed fun _ sp => sp.Attended where
  phase := fun _ h => h.leads ⟨.refl _, fun _ => rfl, rfl, rfl⟩ rfl
  dispatch := fun h => h.dispatch
  runNext := fun h hrun => h.runNext? hrun

theorem propagate (h : sp.Attended) {c? : Option Contradiction}
    (hrun : sp.propagate = .ok (c?, sp')) : sp'.Attended :=
  handed.propagate h hrun

theorem narrow (h : sp.Attended) (request : Narrowing) :
    Space.Attended { sp with store := (request.apply sp.store).store } := by
  have hsteps := Store.steps_apply h.wf request
  have hleads : sp.Leads { sp with store := (request.apply sp.store).store } :=
    ⟨hsteps.toExtends, fun _ => rfl, rfl, rfl⟩
  exact h.leads hleads hsteps.passive_eq

theorem settle (h : sp.Attended) {requests : List Narrowing} {c? : Option Contradiction}
    (hrun : sp.settle requests = .ok (c?, sp')) : sp'.Attended :=
  handed.settle (fun request _ _ h => h.narrow request) h hrun

/-- Counters and notes do not matter. -/
theorem alike (h : sp.Attended) (halike : sp.Alike sp') : sp'.Attended := by
  obtain ⟨store, posted, watchList, queue, phase, calls, failures, passivations, journal⟩ := sp'
  obtain ⟨rfl, rfl, rfl, rfl⟩ := halike
  exact ⟨h.wf, h.posted⟩

/-- There are new variables. -/
theorem grows (h : sp.Attended) {store : Store} (hgrows : sp.store.Grows store)
    (hpassive : store.passive = sp.store.passive) : Space.Attended { sp with store } := by
  refine ⟨hgrows.wf, fun id hid => h.posted id ?_⟩
  rwa [Store.isPassive, ← hpassive]

theorem initial (h : sp.Attended) {pass : Pass Filter}
    (hpass : Propagator.initial g sp.store = .ok pass) :
    ((sp.entered g).record ⟨sp.posted.nextKey⟩ pass).Attended := by
  have hentered : (sp.entered g).Attended := by
    refine ⟨h.wf, fun id hid => ?_⟩
    show id.index < (sp.posted.push _).size
    rw [Table.size_push]
    exact Nat.lt_succ_of_lt (h.posted id hid)
  exact hentered.record filterAt?_entered_self (Filter.lawful_initial h.wf hpass)
    (Filter.narrowings_initial hpass)

theorem launched (h : sp.Attended) (hlaunched : sp.Launched g sp') : sp'.Attended := by
  obtain ⟨pass, hpass, -, hpassivate⟩ := hlaunched
  have hlawful : g.Lawful (sp.entered g).store pass := Filter.lawful_initial h.wf hpass
  have hrecorded : (sp.entered g).Leads ((sp.entered g).record ⟨sp.posted.nextKey⟩ pass) :=
    leads_record filterAt?_entered_self hlawful
  rw [hlawful.self] at hpassivate
  exact (h.initial hpass).passivateIfEntailed
    ((hrecorded.filterAt _).trans filterAt?_entered_self) hpassivate

theorem post (h : sp.Attended) {result : Except Contradiction PropagatorId}
    (hrun : sp.post g = .ok (result, sp')) : sp'.Attended := by
  obtain ⟨pass, hpass, hcase⟩ := post_cases hrun
  rcases hcase with ⟨refusal, c, -, -, rfl⟩ | ⟨hsuccess, mid, c?, hmid, hpropagate, -⟩
  · exact (h.initial hpass).leads (leads_fail _) rfl
  · exact (h.launched ⟨pass, hpass, hsuccess, hmid⟩).propagate hpropagate

/-- Whoever is posted next is active. -/
theorem active (h : sp.Attended) : sp.store.isPassive ⟨sp.posted.nextKey⟩ = false := by
  refine Bool.eq_false_iff.mpr fun hpassive => ?_
  exact Nat.lt_irrefl _ (h.posted _ hpassive)

end Attended

end Space

end FiniteDomain
