import FiniteDomain.Proofs.Branching.Decision
import FiniteDomain.Proofs.Propagation.Termination
import FiniteDomain.Proofs.Propagation.WatchList
import FiniteDomain.Proofs.Propagation.Watchful
import FiniteDomain.Proofs.Store.Contents

/-! # Propagation reaches a fixpoint

    A space `Spares` the valuations of a relation if they grant whatever is
    demanded of them on the way.  Propagation loses none of them, it meets a
    contradiction only if there is none, and it always comes to an end
    (`propagate_spec`, `settle_spec`, `post_spec`).

    A space `Solves` a valuation if its store admits it and every posted filter is
    satisfied; such valuations are spared (`spares_satisfies`).  So are those of
    smaller stores on which all filters are at rest (`spares_resting`).

    When it has come to rest nothing is amiss with an active filter
    (`Watchful.not_amiss`), and nothing will be with a passive one.  So once
    everything is fixed, what is left is a solution (`solves_of_settles`). -/

namespace FiniteDomain.Space

variable {k : Concern} {sp sp' : Space Filter} {f : Filter} {i : Nat} {sat : Valuation → Prop}

/-! ### Conclusions -/

/-- The posted filters are satisfied. -/
def Satisfies (sp : Space Filter) (a : Valuation) : Prop :=
  ∀ i f, sp.filterAt? i = some f → f.Sat a

/-- The store admits the valuation and the posted filters are satisfied. -/
def Solves (sp : Space Filter) (a : Valuation) : Prop := sp.store.Admits a ∧ sp.Satisfies a

/-- What propagation may conclude: it loses no valuation of the relation and finds a contradiction
    only if there is none. -/
structure Concludes (sat : Valuation → Prop) (sp : Space Filter) (c? : Option Contradiction)
    (sp' : Space Filter) : Prop where
  /-- Filters and subscriptions are the same. -/
  leads : Leads sp sp'
  /-- No valuation is added. -/
  narrower : ∀ a, sp'.store.Admits a → sp.store.Admits a
  /-- No valuation of the relation is lost. -/
  kept : ∀ a, sp.store.Admits a → sat a → sp'.store.Admits a
  /-- A contradiction is right. -/
  refuted : ∀ c, c? = some c → ∀ a, sp.store.Admits a → ¬ sat a

namespace Concludes

variable {sp'' : Space Filter} {c? : Option Contradiction}

theorem refl (sp : Space Filter) : Concludes sat sp none sp :=
  ⟨.refl sp, fun _ h => h, fun _ h _ => h, fun _ h => by cases h⟩

/-- Solutions are neither lost nor added. -/
theorem solves_iff (h : Concludes sp.Satisfies sp c? sp') (a : Valuation) :
    sp'.Solves a ↔ sp.Solves a := by
  have hfilters : sp'.Satisfies a ↔ sp.Satisfies a := by
    simp only [Satisfies, h.leads.filterAt]
  constructor
  · rintro ⟨ha, hsat⟩
    exact ⟨h.narrower a ha, hfilters.mp hsat⟩
  · rintro ⟨ha, hsat⟩
    exact ⟨h.kept a ha hsat, hfilters.mpr hsat⟩

theorem trans (h₁ : Concludes sat sp none sp') (h₂ : Concludes sat sp' c? sp'') :
    Concludes sat sp c? sp'' where
  leads := h₁.leads.trans h₂.leads
  narrower := fun a ha => h₁.narrower a (h₂.narrower a ha)
  kept := fun a ha hsat => h₂.kept a (h₁.kept a ha hsat) hsat
  refuted := fun c hc a ha hsat => h₂.refuted c hc a (h₁.kept a ha hsat) hsat

/-- Changes of anything but filters, subscriptions and domains. -/
theorem of_leads (hleads : Leads sp sp') (hsame : sp.store.SameDomains sp'.store) :
    Concludes sat sp none sp' :=
  ⟨hleads, fun _ ha => hsame.symm.admits ha, fun _ h _ => hsame.admits h, fun _ h => by cases h⟩

end Concludes

theorem concludes_dispatch (sp : Space Filter) : Concludes sat sp none sp.dispatch :=
  .of_leads (leads_dispatch sp) (store_dispatch sp ▸ Store.sameDomains_dropEvents sp.store)

theorem concludes_record {id : PropagatorId} {pass : Pass Filter} {post : Store → Prop}
    (hwf : sp.store.Wf) (hf : sp.filterAt? id.index = some f)
    (hran : f.Ran sat sp.store post pass) : Concludes sat sp none (sp.record id pass) where
  leads := leads_record hf ⟨hran.self, hran.steps.toExtends⟩
  narrower := fun a ha => hran.steps.admits hwf ha
  kept := hran.kept
  refuted := fun c hc => by cases hc

/-- A run that refuses. -/
theorem concludes_fail {id : PropagatorId} {pass : Pass Filter} {post : Store → Prop}
    {refusal : Refusal} (hwf : sp.store.Wf) (hf : sp.filterAt? id.index = some f)
    (hran : f.Ran sat sp.store post pass) (hrefusal : pass.refusal? = some refusal)
    (c : Contradiction) : Concludes sat sp (some c) (sp.record id pass).fail where
  leads := (leads_record hf ⟨hran.self, hran.steps.toExtends⟩).trans (leads_fail _)
  narrower := fun _ ha => hran.steps.admits hwf
    ((Store.sameDomains_dropEvents pass.store).symm.admits ha)
  kept := fun a ha hsat => absurd hsat (hran.refused refusal hrefusal a ha)
  refuted := fun _ _ => hran.refused refusal hrefusal

/-! ### What is spared -/

theorem Leads.narrower (h : sp.Leads sp') (hs : sp.store.Wf) : sp.store.Narrower sp'.store :=
  h.store.narrower hs

/-- The valuations of the relation grant whatever the posted filters demand of them, as long as
    none of them is lost. -/
def Spares (sp : Space Filter) (sat : Valuation → Prop) : Prop :=
  ∀ i f, sp.filterAt? i = some f → ∀ t, sp.store.Narrower t →
    (∀ a, sp.store.Admits a → sat a → t.Admits a) → ∀ a, t.Admits a → sat a → ∀ l, f.Grants l t a

theorem Spares.granted (h : sp.Spares sat) (hs : sp.store.Wf) (hf : sp.filterAt? i = some f) :
    f.Granted sat sp.store :=
  fun t hst => h i f hf t (hst.steps.narrower hs) hst.kept

/-- Where no valuation of the relation has been lost, they are still spared. -/
theorem Spares.concludes {c? : Option Contradiction} (h : sp.Spares sat) (hs : sp.store.Wf)
    (hconclude : Concludes sat sp c? sp') : sp'.Spares sat := by
  intro i f hf t hst hkept
  rw [hconclude.leads.filterAt] at hf
  refine h i f hf t ((hconclude.leads.narrower hs).trans hst) fun a ha hsat => ?_
  exact hkept a (hconclude.kept a ha hsat) hsat

/-- Valuations that satisfy the filters are spared. -/
theorem Fit.spares_of_satisfies (h : sp.Fit k) (hsat : ∀ a, sat a → sp.Satisfies a) :
    sp.Spares sat :=
  fun i f hf _ hst _ a ha hs l =>
    .of_sat hst.wf ((h.ready i f hf).narrower hst) ha (hsat a hs i f hf) l

theorem Fit.spares_satisfies (h : sp.Fit k) : sp.Spares sp.Satisfies :=
  h.spares_of_satisfies fun _ hsat => hsat

/-- One of the stores admits the valuation. -/
def Among (stores : Store → Prop) (a : Valuation) : Prop := ∃ u, stores u ∧ u.Admits a

/-- Where the valuations of smaller stores are kept there is no contradiction, and the store still
    contains all of them. -/
theorem Concludes.contains {stores : Store → Prop} {c? : Option Contradiction} {u : Store}
    (h : Concludes (Among stores) sp c? sp') (hs : sp.store.Wf) (hu : stores u)
    (hsu : sp.store.Narrower u) : c? = none ∧ sp'.store.Narrower u := by
  obtain ⟨a, ha⟩ := hsu.wf.exists_admits
  refine ⟨?_, (h.leads.narrower hs).between hsu fun b hb => h.kept b (hsu.admits b hb) ⟨u, hu, hb⟩⟩
  cases c? with
  | none => rfl
  | some c => exact absurd ⟨u, hu, ha⟩ (h.refuted c rfl a (hsu.admits a ha))

/-- The valuations of smaller stores are spared on which all filters are at rest. -/
theorem Fit.spares_resting {stores : Store → Prop} (h : sp.Fit k)
    (hstores : ∀ u, stores u → sp.store.Narrower u
      ∧ ∀ i f, sp.filterAt? i = some f → f.Decisive ∧ f.Enumerated u ∧ f.Rests u) :
    sp.Spares (Among stores) := by
  rintro i f hf t hst hkept a - ⟨u, hu, ha⟩ l
  obtain ⟨hsu, hrests⟩ := hstores u hu
  obtain ⟨hdecisive, henum, hrest⟩ := hrests i f hf
  have htu : t.Narrower u := hst.between hsu fun b hb => hkept b (hsu.admits b hb) ⟨u, hu, hb⟩
  exact (hrest l a ha).of_narrower hdecisive htu ((h.ready i f hf).narrower hst) henum ha

/-! ### Starting -/

/-- In the beginning nothing is posted. -/
theorem filterAt?_start {s : Store} : ¬ Space.filterAt? { Space.empty with store := s } i = some f := by
  simp [filterAt?, Space.empty]

theorem settled_start {s : Store} (hevents : s.events = EventSink.empty) :
    Settled ({ Space.empty with store := s } : Space Filter) :=
  ⟨hevents, rfl, fun i p hp => by simp [Space.empty] at hp⟩

/-- A space without propagators begins with nothing amiss. -/
theorem watchful_start {s : Store} (hs : s.Wf) (hevents : s.events = EventSink.empty)
    (hpassive : ∀ p, s.isPassive p = false) :
    Watchful k (fun _ _ => False) { Space.empty with store := s } := by
  refine ⟨⟨hs, fun _ _ hf => (filterAt?_start hf).elim, fun _ _ hf => (filterAt?_start hf).elim,
    fun _ _ hf => (filterAt?_start hf).elim, fun e v p hp => ?_, fun i hi => ?_⟩,
    (settled_start hevents).orderly, fun x hx => ?_, fun _ _ hf => (filterAt?_start hf).elim,
    fun _ _ hactive => (filterAt?_start hactive.1).elim⟩
  · have hnobody : WatchList.empty.affected e v = [] := by
      cases v <;> simp [WatchList.affected, WatchList.empty, WatchList.subscriptions, Table.getD_eq]
    change p ∈ WatchList.empty.affected e v at hp
    rw [hnobody] at hp
    cases hp
  · exact absurd (hi.symm.trans (hpassive ⟨i⟩)) (by decide)
  · change (Event.assign, VariableId.int x) ∈ s.events.toList at hx
    rw [hevents] at hx
    exact absurd hx List.not_mem_nil

/-! ### Deliveries -/

/-- Delivering events to an active filter.  If its constraint may go unchecked, nothing is amiss
    with it in the end, unless there was nothing to deliver. -/
theorem deliver_spec {id : PropagatorId} {pending : List (LocalId × Event)}
    (h : sp.Watchful k fun i A => i = id.index ∧ ∃ entry ∈ pending, entry.1 ∈ A)
    (hspares : sp.Spares sat) (hf : sp.filterAt? id.index = some f)
    (hevents : sp.store.events = EventSink.empty)
    (hexpected : ∀ entry ∈ pending, f.Expects sp.store entry.1)
    (hidle : pending = [] → f.Decisive ∨ ∀ A, ¬ k.Amiss sp.store f A) :
    ∃ c? sp', deliver id f pending sp = .ok (c?, f, sp') ∧ Concludes sat sp c? sp'
      ∧ (c? = none → sp'.Watchful k (fun _ _ => False) ∧ sp'.store.events = EventSink.empty
        ∧ (f.Decisive ∨ ∀ A, ¬ k.Amiss sp'.store f A) ∧ Progress sp sp') := by
  -- on the events that are left: only they can still notice what is amiss with the filter
  induction pending generalizing sp with
  | nil =>
    refine ⟨none, sp, rfl, .refl sp, fun _ => ⟨h.mono ?_, hevents, hidle rfl, .refl sp⟩⟩
    rintro i f - A - ⟨-, entry, hentry, -⟩
    exact List.not_mem_nil hentry
  | cons entry rest ih =>
    obtain ⟨l, e⟩ := entry
    have hr := h.ready _ f hf
    have hregards := h.regards _ f hf
    obtain ⟨pass, hpass, hran⟩ := Filter.propagate_granted h.wf hr (hspares.granted h.wf hf)
      (hexpected (l, e) List.mem_cons_self) e
    have hself := hran.self
    cases hrefusal : pass.refusal? with
    | some refusal =>
      refine ⟨_, _, ?_, concludes_fail h.wf hf hran hrefusal (refusal.contradiction id), ?_⟩
      · simp only [deliver, bind, Except.bind, hpass, hrefusal, hself, pure, Except.pure]
      · intro hnone
        cases hnone
    | none =>
      -- the run has seen to its own position
      have hrecord : (sp.record id pass).Watchful k fun i A =>
          i = id.index ∧ ∃ entry ∈ rest, entry.1 ∈ A := h.record hf hran hrefusal (by
          rintro i A ⟨hi, entry, hentry, hA⟩
          rcases List.mem_cons.mp hentry with rfl | hentry
          · exact Or.inr ⟨hi, fun _ => ⟨l, hA, fun _ hhandles => hhandles⟩⟩
          · exact Or.inl ⟨hi, entry, hentry, hA⟩)
      have hdispatch := hrecord.dispatch
      have hconclude := (concludes_record h.wf hf hran).trans (concludes_dispatch _)
      have hf' : (sp.record id pass).dispatch.filterAt? id.index = some f :=
        (hconclude.leads.filterAt _).trans hf
      have hstore : pass.store.SameDomains (sp.record id pass).dispatch.store := by
        rw [store_dispatch]
        exact Store.sameDomains_dropEvents _
      -- a filter that is not decisive has nothing left to do right after a run
      have hidle' : f.Decisive ∨ ∀ A, ¬ k.Amiss (sp.record id pass).dispatch.store f A :=
        (k.amiss_ran_or h.wf hr hregards hran hrefusal).imp_right fun hno A hamiss =>
          hno A (k.amiss_sameDomains (hran.steps.wf h.wf) (hr.steps hran.steps h.wf)
            (k.regards_steps hregards hran.steps) hstore hamiss)
      have hspares' := hspares.concludes h.wf hconclude
      obtain ⟨c?, sp', hrun, hrest, hend⟩ := ih hdispatch hspares' hf' (events_dispatch _) (by
        intro entry hentry
        have hsteps := (hexpected entry (List.mem_cons_of_mem _ hentry)).steps hran.steps h.wf hr
        exact hsteps.sameDomains hstore) fun _ => hidle'
      refine ⟨c?, sp', ?_, hconclude.trans hrest, fun hnone => ?_⟩
      · simp only [deliver, bind, Except.bind, hpass, hrefusal, hself]
        exact hrun
      · obtain ⟨hwatchful, hquiet, hlast, hprogress⟩ := hend hnone
        exact ⟨hwatchful, hquiet, hlast, (progress_record h.wf hevents hran.steps).trans hprogress⟩

theorem passivateIfEntailed_spec {id : PropagatorId} (h : sp.Watchful k fun _ _ => False)
    (hf : sp.filterAt? id.index = some f) (hidle : f.Decisive ∨ ∀ A, ¬ k.Amiss sp.store f A) :
    ∃ sp', sp.passivateIfEntailed id f = .ok sp' ∧ Concludes sat sp none sp'
      ∧ sp'.Watchful k (fun _ _ => False) ∧ sp'.store.events = sp.store.events
      ∧ Progress sp sp' := by
  have hr := h.ready _ f hf
  obtain ⟨e, he⟩ := Filter.exists_entailment h.wf hr
  have he' : Propagator.entailment f sp.store = .ok e := he
  unfold passivateIfEntailed
  simp only [he', bind, Except.bind, pure, Except.pure]
  cases e with
  | holds =>
    have hsame := Store.sameDomains_passivate sp.store id
    have hclosed := k.closed_of_holds h.wf hr (h.regards _ f hf) he hidle
    refine ⟨_, rfl, .of_leads ?_ hsame, h.passivate hf hclosed _, ?_, ?_⟩
    · exact ⟨Store.extends_passivate _ _, fun _ => rfl, rfl, rfl⟩
    · exact Store.events_passivate _ _
    · exact .of_eq rfl rfl hsame.slack
  | fails => exact ⟨sp, rfl, .refl sp, h, rfl, .refl sp⟩
  | undecided => exact ⟨sp, rfl, .refl sp, h, rfl, .refl sp⟩

/-- The events of an active filter are delivered, and then it is asked whether it has become
    entailed. -/
theorem attend_spec {id : PropagatorId} {pending : List (LocalId × Event)}
    (h : sp.Watchful k fun i A => i = id.index ∧ ∃ entry ∈ pending, entry.1 ∈ A)
    (hspares : sp.Spares sat) (hf : sp.filterAt? id.index = some f)
    (hevents : sp.store.events = EventSink.empty)
    (hexpected : ∀ entry ∈ pending, f.Expects sp.store entry.1)
    (hidle : pending = [] → f.Decisive ∨ ∀ A, ¬ k.Amiss sp.store f A) :
    ∃ c? sp', (do
        let (contradiction?, f, after) ← deliver id f pending sp
        match contradiction? with
        | some contradiction => return (some contradiction, after)
        | none => return (none, ← after.passivateIfEntailed id f)) = .ok (c?, sp')
      ∧ Concludes sat sp c? sp'
      ∧ (c? = none → sp'.Watchful k (fun _ _ => False) ∧ sp'.store.events = EventSink.empty
        ∧ Progress sp sp') := by
  obtain ⟨c?, after, hdeliver, hafter, hend⟩ :=
    deliver_spec h hspares hf hevents hexpected hidle
  rw [hdeliver]
  cases c? with
  | some c => exact ⟨some c, after, rfl, hafter, nofun⟩
  | none =>
    obtain ⟨hwatchful, hquiet, hlast, hprogress⟩ := hend rfl
    obtain ⟨last, hrun, hpassivate, hwatchful', hquiet', hprogress'⟩ :=
      passivateIfEntailed_spec hwatchful ((hafter.leads.filterAt _).trans hf) hlast
    refine ⟨none, last, ?_, hafter.trans hpassivate, fun _ =>
      ⟨hwatchful', hquiet'.trans hquiet, hprogress.trans hprogress'⟩⟩
    show (after.passivateIfEntailed id f >>= _) = _
    rw [hrun]
    rfl

/-! ### Propagation -/

/-- With an active filter that is told nothing there is nothing amiss: what is amiss has been
    noticed, and no event is on its way. -/
theorem Watchful.not_amiss_of_told_nil (h : sp.Watchful k fun _ _ => False)
    (hevents : sp.store.events = EventSink.empty) (hactive : sp.ActiveAt i f)
    (htold : sp.told i = []) (A : Set LocalId) : ¬ k.Amiss sp.store f A := by
  intro hamiss
  rcases h.noticed _ _ hactive A hamiss with ⟨entry, hentry, -⟩ | ⟨w, -, -, e, he, -⟩ | hfalse
  · rw [htold] at hentry
    exact List.not_mem_nil hentry
  · rw [hevents] at he
    exact List.not_mem_nil he
  · exact hfalse

/-- Running the head of the queue. -/
theorem runNext?_spec (h : sp.Watchful k fun _ _ => False) (hspares : sp.Spares sat)
    (hevents : sp.store.events = EventSink.empty) :
    sp.runNext? = none ∨ ∃ c? sp', sp.runNext? = some (.ok (c?, sp')) ∧ Concludes sat sp c? sp'
      ∧ (c? = none → sp'.Watchful k (fun _ _ => False) ∧ sp'.store.events = EventSink.empty
        ∧ sp'.load < sp.load) := by
  cases hpop : sp.queue.pop? with
  | none =>
    left
    unfold runNext?
    rw [hpop]
  | some head =>
    right
    obtain ⟨id, queue⟩ := head
    obtain ⟨hperm, -⟩ := Queue.members_pop? hpop
    obtain ⟨p, hp⟩ := Option.isSome_iff_exists.mp
      ((Table.get?_isSome_iff _ _).mpr (h.known id (hperm.mem_iff.mpr List.mem_cons_self)))
    have hpopped := h.popped hpop
    have hconclude : Concludes sat sp none (sp.popped id queue) :=
      .of_leads (leads_popped hpop) ⟨rfl, rfl, rfl⟩
    have hf : sp.filterAt? id.index = some p.propagator := filterAt?_eq hp
    have hf' : (sp.popped id queue).filterAt? id.index = some p.propagator :=
      ((leads_popped hpop).filterAt _).trans hf
    unfold runNext?
    rw [hpop]
    simp only [hp]
    by_cases hpassive : sp.store.isPassive id = true
    · -- a passive filter is not run
      rw [if_pos hpassive]
      have hwatchful : (sp.popped id queue).Watchful k fun _ _ => False := by
        refine hpopped.mono ?_
        rintro i f hactive A - ⟨rfl, -⟩
        have hfalse : sp.store.isPassive id = false := hactive.2
        rw [hpassive] at hfalse
        cases hfalse
      refine ⟨none, sp.popped id queue, rfl, hconclude, fun _ => ⟨hwatchful, hevents, ?_⟩⟩
      exact Progress.load_lt hpop (.refl _)
    · -- an active filter is run on all that it has been told
      rw [if_neg hpassive]
      have hactive : sp.ActiveAt id.index p.propagator := ⟨hf, Bool.eq_false_iff.mpr hpassive⟩
      have hcovered : (sp.popped id queue).Watchful k fun i A =>
          i = id.index ∧ ∃ entry ∈ p.pending, entry.1 ∈ A := by
        refine hpopped.mono ?_
        rintro i f - A - ⟨rfl, hentry⟩
        rw [told_eq hp] at hentry
        exact ⟨rfl, hentry⟩
      have hexpected : ∀ entry ∈ p.pending, p.propagator.Expects sp.store entry.1 := by
        rw [← told_eq hp]
        exact h.expected _ _ hf
      obtain ⟨c?, last, hrun, hlast, hend⟩ :=
        attend_spec hcovered (hspares.concludes h.wf hconclude) hf' hevents hexpected
          fun hnone => Or.inr (h.not_amiss_of_told_nil hevents hactive ((told_eq hp).trans hnone))
      refine ⟨c?, last, congrArg some hrun, hconclude.trans hlast, fun hnone => ?_⟩
      obtain ⟨hwatchful, hquiet, hprogress⟩ := hend hnone
      exact ⟨hwatchful, hquiet, hprogress.load_lt hpop⟩

theorem drain_spec {fuel : Nat} (h : sp.Watchful k fun _ _ => False) (hspares : sp.Spares sat)
    (hevents : sp.store.events = EventSink.empty) (hfuel : sp.load < fuel) :
    ∃ c? sp', sp.drain fuel = .ok (c?, sp') ∧ Concludes sat sp c? sp'
      ∧ (c? = none → sp'.Watchful k fun _ _ => False) := by
  -- on the fuel, which exceeds the load; each run of a filter lowers the load
  induction fuel generalizing sp with
  | zero => exact absurd hfuel (Nat.not_lt_zero _)
  | succ fuel ih =>
    unfold drain
    rcases runNext?_spec h hspares hevents with hnone | ⟨c?, next, hnext, hconclude, hend⟩
    · rw [hnone]
      exact ⟨none, _, rfl, .of_leads ⟨.refl _, fun _ => rfl, rfl, rfl⟩ ⟨rfl, rfl, rfl⟩,
        fun _ => h.alike ⟨rfl, rfl, rfl, rfl⟩⟩
    · rw [hnext]
      cases c? with
      | some c => exact ⟨some c, next, rfl, hconclude, fun hnone => by cases hnone⟩
      | none =>
        obtain ⟨hwatchful, hquiet, hlt⟩ := hend rfl
        obtain ⟨c?, last, hrun, hlast, hend'⟩ :=
          ih hwatchful (hspares.concludes h.wf hconclude) hquiet (by omega)
        exact ⟨c?, last, hrun, hconclude.trans hlast, hend'⟩

/-- Propagation always comes to an end and concludes nothing but what is right. -/
theorem propagate_spec (h : sp.Watchful k fun _ _ => False) (hspares : sp.Spares sat) :
    ∃ c? sp', sp.propagate = .ok (c?, sp') ∧ Concludes sat sp c? sp'
      ∧ (c? = none → sp'.Watchful k (fun _ _ => False) ∧ sp'.Settled) := by
  have hbegin : Watchful k (fun _ _ => False) { sp with phase := .propagating } :=
    h.alike ⟨rfl, rfl, rfl, rfl⟩
  have hdispatch := hbegin.dispatch
  have hphase : Concludes sat sp none { sp with phase := .propagating } :=
    .of_leads ⟨.refl _, fun _ => rfl, rfl, rfl⟩ ⟨rfl, rfl, rfl⟩
  have hconclude := hphase.trans (concludes_dispatch { sp with phase := .propagating })
  obtain ⟨c?, sp', hrun, hend, hwatchful⟩ :=
    drain_spec hdispatch (hspares.concludes h.wf hconclude) (events_dispatch _) (load_dispatch_lt _)
  refine ⟨c?, sp', hrun, hconclude.trans hend, fun hnone => ⟨hwatchful hnone, ?_⟩⟩
  subst hnone
  exact settled_propagate h.toAlert hrun

/-! ### Decisions -/

/-- Carrying out the first decision. -/
theorem settle_cons {d : Decision} {requests : List Narrowing} (hd : d.Known sp.store) :
    sp.settle (d.request :: requests) =
      if (d.apply sp.store).changed? = none then
        .ok (some .emptyDomain, { sp with store := (d.apply sp.store).store })
      else settle requests { sp with store := (d.apply sp.store).store } := by
  simp only [settle, d.run_eq hd, bind, Except.bind]
  cases (d.apply sp.store).changed? with
  | none => rfl
  | some c => rfl

/-- Carrying out decisions and propagating always comes to an end, for relations whose valuations
    obey the decisions. -/
theorem settle_spec {ds : List Decision} (h : sp.Watchful k fun _ _ => False)
    (hspares : sp.Spares sat) (hholds : ∀ a, sat a → ∀ d ∈ ds, d.Holds a)
    (hknown : ∀ d ∈ ds, d.Known sp.store) :
    ∃ c? sp', sp.settle (ds.map Decision.request) = .ok (c?, sp') ∧ Concludes sat sp c? sp'
      ∧ (c? = none → sp'.Watchful k (fun _ _ => False) ∧ sp'.Settled) := by
  induction ds generalizing sp with
  | nil => exact propagate_spec h hspares
  | cons d rest ih =>
    have hobeys := d.apply_obeys h.wf
    have hsteps : sp.store.Steps (d.apply sp.store).store := .of_narrowed hobeys.toSteps
    have hleads : Leads sp { sp with store := (d.apply sp.store).store } :=
      ⟨hsteps.toExtends, fun _ => rfl, rfl, rfl⟩
    have hkept : ∀ a, sp.store.Admits a → sat a → (d.apply sp.store).store.Admits a :=
      fun a ha hsat => hobeys.kept a ha (hholds a hsat d List.mem_cons_self)
    rw [List.map_cons, settle_cons (hknown d List.mem_cons_self)]
    -- a decision that empties a domain ends it before anything is propagated
    by_cases hempty : (d.apply sp.store).changed? = none
    · rw [if_pos hempty]
      refine ⟨_, _, rfl, ⟨hleads, fun _ ha => hsteps.admits h.wf ha, hkept, ?_⟩, nofun⟩
      exact fun _ _ a ha hsat => hobeys.empty hempty a ha (hholds a hsat d List.mem_cons_self)
    · rw [if_neg hempty]
      have hconclude : Concludes sat sp none { sp with store := (d.apply sp.store).store } :=
        ⟨hleads, fun _ ha => hsteps.admits h.wf ha, hkept, nofun⟩
      obtain ⟨c?, sp', hrun, hrest, hend⟩ := ih (h.steps hsteps) (hspares.concludes h.wf hconclude)
        (fun a hsat d' hd' => hholds a hsat d' (List.mem_cons_of_mem d hd'))
        fun d' hd' => (hknown d' (List.mem_cons_of_mem d hd')).steps hsteps
      exact ⟨c?, sp', hrun, hconclude.trans hrest, hend⟩

/-! ### Posting -/

theorem filterAt?_entered (i : Nat) : (sp.entered f).filterAt? i
    = if i = sp.posted.size then some f else sp.filterAt? i := by
  unfold filterAt? entered
  rw [Table.get?_push]
  split <;> rfl

theorem filterAt?_lt {g : Filter} (h : sp.filterAt? i = some g) : i < sp.posted.size := by
  obtain ⟨p, hp, -⟩ := exists_posted h
  exact (Table.get?_isSome_iff _ _).mp (Option.isSome_of_eq_some hp)

/-- What is posted after a filter has been entered is the filter or was posted before. -/
theorem entered_cases {g : Filter} (hg : (sp.entered f).filterAt? i = some g) :
    (i = sp.posted.size ∧ g = f) ∨ sp.filterAt? i = some g := by
  rw [filterAt?_entered] at hg
  split at hg
  next heq => exact Or.inl ⟨heq, (Option.some.inj hg).symm⟩
  next => exact Or.inr hg

/-- What was posted before stays posted. -/
theorem filterAt?_entered_of_posted {g : Filter} (hg : sp.filterAt? i = some g) :
    (sp.entered f).filterAt? i = some g := by
  rw [filterAt?_entered, if_neg (Nat.ne_of_lt (filterAt?_lt hg))]
  exact hg

/-- What is true of all posted filters after one was entered. -/
theorem forall_entered {holds : Filter → Prop} :
    (∀ i g, (sp.entered f).filterAt? i = some g → holds g) ↔
      (∀ i g, sp.filterAt? i = some g → holds g) ∧ holds f := by
  refine ⟨fun h => ⟨fun i g hg => ?_, ?_⟩, fun h i g hg => ?_⟩
  · exact h i g (filterAt?_entered_of_posted hg)
  · refine h sp.posted.size f ?_
    rw [filterAt?_entered, if_pos rfl]
  · rcases entered_cases hg with ⟨-, rfl⟩ | hg
    · exact h.2
    · exact h.1 i g hg

theorem solves_entered (a : Valuation) :
    (sp.entered f).Solves a ↔ sp.Solves a ∧ f.Sat a := by
  unfold Solves Satisfies
  rw [and_assoc]
  exact and_congr_right fun _ => forall_entered

/-- A filter that can be run is entered with all that is amiss with it left to its first run. -/
theorem Watchful.entered (h : sp.Watchful k fun _ _ => False) (hf : k.Regards f sp.store)
    (hr : f.Ready sp.store) : (sp.entered f).Watchful k fun i _ => i = sp.posted.size := by
  have hnotold : sp.told sp.posted.size = [] := by
    rw [← told_entered sp f, told_eq (p := ⟨f, []⟩)]
    unfold Space.entered
    rw [Table.get?_push, if_pos rfl]
  -- what held of the filters before holds of them still; the new filter is told of nothing yet
  refine ⟨⟨h.wf, ?_, ?_, ?_, ?_, ?_⟩, orderly_entered h.toOrderly, h.assigned, ?_, ?_⟩
  · intro i g hg
    rcases entered_cases hg with ⟨-, rfl⟩ | hg
    · exact hf
    · exact h.regards i g hg
  · intro i g hg
    rcases entered_cases hg with ⟨-, rfl⟩ | hg
    · exact hr
    · exact h.ready i g hg
  · intro i g hg w hw e hmeets
    refine WatchList.mem_affected_subscribeAll.mpr ?_
    rcases entered_cases hg with ⟨rfl, rfl⟩ | hg
    · exact Or.inr ⟨w, hw, rfl, rfl, hmeets⟩
    · exact Or.inl (h.watched i g hg w hw e hmeets)
  · intro e v p hp
    rcases WatchList.mem_affected_subscribeAll.mp hp with hp | ⟨w, hw, htarget, rfl, hmeets⟩
    · obtain ⟨g, hg, hwatch⟩ := h.subscribed e v p hp
      exact ⟨g, filterAt?_entered_of_posted hg, hwatch⟩
    · refine ⟨f, ?_, w, hw, htarget, rfl, hmeets⟩
      rw [filterAt?_entered]
      exact if_pos rfl
  · intro i hpassive
    obtain ⟨g, hg, hclosed⟩ := h.closed i hpassive
    exact ⟨g, filterAt?_entered_of_posted hg, hclosed⟩
  · intro i g hg entry hentry
    rw [told_entered] at hentry
    rcases entered_cases hg with ⟨rfl, -⟩ | hg
    · rw [hnotold] at hentry
      exact absurd hentry List.not_mem_nil
    · exact h.expected i g hg entry hentry
  · intro i g hactive A hamiss
    rw [told_entered]
    rcases entered_cases hactive.1 with ⟨hi, -⟩ | hg
    · exact Or.inr (Or.inr hi)
    · exact (h.noticed i g ⟨hg, hactive.2⟩ A hamiss).imp_right fun hrest =>
        hrest.imp_right False.elim

/-- Posting always comes to an end. -/
theorem post_spec (h : sp.Watchful k fun _ _ => False) (hf : k.Regards f sp.store)
    (hr : f.Ready sp.store) (hspares : (sp.entered f).Spares sat) :
    ∃ c? sp', sp.post f = .ok (c?.elim (.ok ⟨sp.posted.nextKey⟩) .error, sp')
      ∧ Concludes sat (sp.entered f) c? sp'
      ∧ (c? = none → sp'.Watchful k (fun _ _ => False) ∧ sp'.Settled) := by
  have hentered := h.entered hf hr
  have hwf : (sp.entered f).store.Wf := h.wf
  obtain ⟨pass, hpass, hran⟩ : ∃ pass, Propagator.initial f sp.store = .ok pass
      ∧ f.Ran sat sp.store (f.Served (fun _ => True) sp.store) pass :=
    Filter.initial_granted h.wf hr (hspares.granted hwf filterAt?_entered_self)
  have hran' : f.Ran sat (sp.entered f).store
      (f.Served (fun _ => True) (sp.entered f).store) pass := hran
  rw [post_eq, hpass]
  obtain ⟨id, hid⟩ : ∃ id : PropagatorId, id = ⟨sp.posted.nextKey⟩ := ⟨_, rfl⟩
  have hindex : id.index = sp.posted.size := congrArg PropagatorId.index hid
  have hself : (sp.entered f).filterAt? id.index = some f := by
    rw [hindex]
    exact filterAt?_entered_self
  rw [← hid]
  show ∃ c? sp', pass.refusal?.elim _ _ = _ ∧ _
  cases hrefusal : pass.refusal? with
  | some refusal =>
    refine ⟨some (refusal.contradiction _), _, rfl, ?_, fun hnone => by cases hnone⟩
    exact concludes_fail hwf hself hran' hrefusal _
  | none =>
    -- the first run sees to every position, so that nothing is left to the filter afterwards
    have hrecord : ((sp.entered f).record id pass).Watchful k fun _ _ => False :=
      hentered.record hself hran' hrefusal fun i A hi =>
        Or.inr ⟨hi.trans hindex.symm, fun ⟨l, hl⟩ => ⟨l, hl, fun _ _ => trivial⟩⟩
    have hidle : f.Decisive ∨ ∀ A, ¬ k.Amiss pass.store f A :=
      k.amiss_ran_or (l := ⟨0⟩) h.wf hr hf (hran.imp fun _ ht => ht.mono fun _ _ => trivial) hrefusal
    have hconclude := concludes_record hwf hself hran'
    have hself' := (hconclude.leads.filterAt id.index).trans hself
    obtain ⟨mid, hmid, hpassivate, hwatchful, -, -⟩ :=
      passivateIfEntailed_spec hrecord hself' hidle
    have hmidway := hconclude.trans hpassivate
    obtain ⟨c?, sp', hrun, hend, hrest⟩ :=
      propagate_spec hwatchful (hspares.concludes hwf hmidway)
    refine ⟨c?, sp', ?_, hmidway.trans hend, hrest⟩
    rw [hran.self]
    show (passivateIfEntailed _ _ _).bind _ = _
    rw [hmid]
    show (mid.propagate).bind _ = _
    rw [hrun]
    cases c? <;> rfl

/-! ### At rest -/

/-- Nothing is amiss with an active filter of a space at rest. -/
theorem Watchful.not_amiss (h : sp.Watchful k fun _ _ => False) (hsettled : sp.Settled)
    (hactive : sp.ActiveAt i f) (A : Set LocalId) : ¬ k.Amiss sp.store f A := by
  intro hamiss
  rcases h.noticed i f hactive A hamiss with ⟨entry, hentry, -⟩ | ⟨w, -, -, e, he, -⟩ | hfalse
  · obtain ⟨p, hp, -⟩ := exists_posted hactive.1
    rw [told_eq hp, hsettled.pending i p hp] at hentry
    exact List.not_mem_nil hentry
  · rw [hsettled.events] at he
    exact List.not_mem_nil he
  · exact hfalse

/-- Once everything is fixed, whatever is left is a solution. -/
theorem solves_of_settles (h : sp.Watchful .clashes fun _ _ => False) (hsettled : sp.Settled)
    (hall : ∀ v, sp.store.knows v = true → sp.store.Settles v) {a : Valuation}
    (ha : sp.store.Admits a) : sp.Solves a := by
  refine ⟨ha, fun i f hf => ?_⟩
  cases hpassive : sp.store.isPassive ⟨i⟩ with
  | true =>
    obtain ⟨g, hg, hsat⟩ := h.closed i hpassive
    obtain rfl : g = f := Option.some.inj (hg.symm.trans hf)
    exact hsat a ha
  | false =>
    have hready := h.ready i f hf
    refine Filter.sat_of_settles (h.regards i f hf) h.wf hready (fun v hv => ?_)
      (fun A => h.not_amiss hsettled ⟨hf, hpassive⟩ A) ha
    exact hall v (hready.known v hv)

end FiniteDomain.Space
