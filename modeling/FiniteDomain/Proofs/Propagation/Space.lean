import FiniteDomain.Propagation.Space
import FiniteDomain.Proofs.Propagation.Keeps
import FiniteDomain.Proofs.Propagation.Queue

/-! # What propagation leaves alone

    Propagation extends the store and changes nothing else for good: the filters
    keep nothing in mind from one run to the next, the subscriptions stay, and
    once propagation has come to an end without a contradiction nobody waits and
    no event is pending (`Space.Settled`). -/

namespace FiniteDomain

/-! ### Passes of filters -/

namespace Filter

theorem narrowable_extends {s : Store} (hs : s.Wf) : Narrowable s.Extends := by
  intro request t hext
  have hsteps := request.apply_steps (hext.wf hs)
  by_cases hc : (request.apply t).changed? = some true
  · exact hext.trans (hsteps.step hc).extends
  · rw [hsteps.same hc]
    exact hext

/-- A filter stays as it is, and the store after it extends the one before. -/
structure Lawful (f : Filter) (s : Store) (pass : Pass Filter) : Prop where
  self : pass.self = f
  store : s.Extends pass.store

/-- A pass of a filter keeps what its program keeps. -/
theorem ofFilter_keeps {I : Store → Prop} {f : Filter} {program : Filtering Unit} {s : Store}
    {pass : Pass Filter} (hkeeps : Program.Keeps I program) (hs : I s)
    (h : Pass.ofFilter f program s = .ok pass) : pass.self = f ∧ I pass.store := by
  simp only [Pass.ofFilter, bind, Except.bind] at h
  split at h
  · cases h
  next r hr =>
    have hkept := hkeeps s r.1 r.2 hs hr
    split at h <;> cases h <;> exact ⟨rfl, hkept⟩

/-- Looking at the scope first changes nothing. -/
theorem upholds_guarded {faults : Fault → Prop} {I : Store → Prop}
    (hf : Filtering.Tolerates faults) (f : Filter) {program : Filtering Unit}
    (h : Program.Upholds faults I program) : Program.Upholds faults I (f.guarded program) :=
  Program.upholds_get.bind fun _ => (hf.upholds_require _).bind fun _ => h

theorem keeps_initial {I : Store → Prop} (hI : Narrowable I) (f : Filter) :
    Program.Keeps I (f.guarded f.program) := by
  have hall : Filtering.Tolerates fun _ => True := ⟨trivial, trivial⟩
  exact (upholds_guarded hall f (hI.upholds hall trivial f)).keeps

theorem keeps_propagate {I : Store → Prop} (hI : Narrowable I) (f : Filter)
    (position : LocalId) : Program.Keeps I (f.guarded (f.programAt position)) := by
  have hall : Filtering.Tolerates fun _ => True := ⟨trivial, trivial⟩
  refine (upholds_guarded hall f ?_).keeps
  unfold programAt
  split
  · exact hI.settleAll hall trivial _ _
  · exact hI.upholds hall trivial _

theorem lawful_initial {f : Filter} {s : Store} {pass : Pass Filter} (hs : s.Wf)
    (h : Propagator.initial f s = .ok pass) : Lawful f s pass :=
  have hkept := ofFilter_keeps (keeps_initial (narrowable_extends hs) f) (.refl s) h
  ⟨hkept.1, hkept.2⟩

theorem lawful_propagate {f : Filter} {position : LocalId} {e : Event} {s : Store}
    {pass : Pass Filter} (hs : s.Wf) (h : Propagator.propagate f position e s = .ok pass) :
    Lawful f s pass :=
  have hkept := ofFilter_keeps (keeps_propagate (narrowable_extends hs) f position) (.refl s) h
  ⟨hkept.1, hkept.2⟩

end Filter

namespace Space

variable {P : Type} {sp sp' : Space P}

/-- The propagator with a number. -/
def filterAt? (sp : Space P) (i : Nat) : Option P :=
  (sp.posted.get? i).map Posted.propagator

/-! ### What stays -/

/-- The second space comes from the first by propagation. -/
structure Leads (sp sp' : Space P) : Prop where
  /-- The store has been narrowed. -/
  store : sp.store.Extends sp'.store
  /-- The propagators are the same. -/
  filterAt : ∀ i, sp'.filterAt? i = sp.filterAt? i
  /-- The subscriptions are the same. -/
  watchList : sp'.watchList = sp.watchList
  /-- The queue has as many lines as before. -/
  lines : sp'.queue.lines.size = sp.queue.lines.size

namespace Leads

theorem refl (sp : Space P) : Leads sp sp := ⟨.refl _, fun _ => rfl, rfl, rfl⟩

theorem trans {sp'' : Space P} (h₁ : Leads sp sp') (h₂ : Leads sp' sp'') : Leads sp sp'' :=
  ⟨h₁.store.trans h₂.store, fun i => (h₂.filterAt i).trans (h₁.filterAt i),
    h₂.watchList.trans h₁.watchList, h₂.lines.trans h₁.lines⟩

theorem wf (h : Leads sp sp') (hs : sp.store.Wf) : sp'.store.Wf := h.store.wf hs

theorem size_eq (h : Leads sp sp') : sp'.posted.size = sp.posted.size := by
  have hiff : ∀ i, i < sp'.posted.size ↔ i < sp.posted.size := by
    intro i
    have heq := h.filterAt i
    unfold filterAt? at heq
    rw [← Table.get?_isSome_iff, ← Table.get?_isSome_iff, ← Option.isSome_map (f := Posted.propagator),
      heq, Option.isSome_map]
  have h₁ := hiff sp'.posted.size
  have h₂ := hiff sp.posted.size
  omega

end Leads

/-- Changes of posted propagators that keep the propagator itself do not matter. -/
theorem filterAt?_modify {posted : Table (Posted P)} {key : Nat}
    {f : Posted P → Posted P}
    (h : ∀ p, posted.get? key = some p → (f p).propagator = p.propagator) (i : Nat) :
    ((posted.modify key f).get? i).map Posted.propagator
      = (posted.get? i).map Posted.propagator := by
  rw [Table.get?_modify]
  split
  next heq =>
    subst heq
    cases hp : posted.get? key with
    | none => rfl
    | some p => simp [h p hp]
  next => rfl

variable [Propagator P]

theorem leads_wake (sp : Space P) (e : Event) (position : ScopePosition) :
    Leads sp (sp.wake e position) := by
  unfold wake
  simp only
  split
  · exact .refl sp
  · split
    · exact .refl sp
    · refine ⟨.refl _, fun i => filterAt?_modify (fun q _ => ?_) i, rfl, by simp⟩
      split <;> rfl

omit [Propagator P] in
theorem leads_dropEvents (sp : Space P) : Leads sp sp.dropEvents :=
  ⟨.of_dropEvents_eq rfl, fun _ => rfl, rfl, rfl⟩

/-- Dispatching drops the waiting events and wakes positions one after the other. -/
theorem dispatch_induction {I : Space P → Prop} (hdrop : I sp.dropEvents)
    (hwake : ∀ sp e position, I sp → I (sp.wake e position)) : I sp.dispatch := by
  unfold dispatch
  refine List.foldlRecOn _ _ hdrop fun t ht ev _ => ?_
  obtain ⟨e, v⟩ := ev
  exact List.foldlRecOn _ _ ht fun t ht position _ => hwake t e position ht

theorem leads_dispatch (sp : Space P) : Leads sp sp.dispatch :=
  dispatch_induction (leads_dropEvents sp) fun t e position h => h.trans (leads_wake t e position)

omit [Propagator P] in
theorem leads_clearPending (sp : Space P) : Leads sp sp.clearPending := by
  refine ⟨.refl _, fun i => ?_, rfl, by
    simp [clearPending, Queue.clear_eq, Queue.withLevels, Roster.withLevels]⟩
  simp only [filterAt?, clearPending, Table.get?, Table.map, Array.getElem?_map, Option.map_map]
  rfl

omit [Propagator P] in
theorem leads_fail (sp : Space P) : Leads sp sp.fail := by
  have h := (leads_clearPending sp).trans (leads_dropEvents _)
  exact ⟨h.store, h.filterAt, h.watchList, h.lines⟩

theorem leads_record {sp : Space Filter} {id : PropagatorId} {f : Filter} {pass : Pass Filter}
    (hf : sp.filterAt? id.index = some f) (hpass : f.Lawful sp.store pass) :
    Leads sp (sp.record id pass) := by
  refine ⟨hpass.store, fun i => filterAt?_modify (fun p hp => ?_) i, rfl, rfl⟩
  rw [filterAt?, hp] at hf
  rw [hpass.self]
  exact (Option.some.inj hf).symm

/-- How a delivery goes: the first call ends it with a contradiction, or the events of the call are
    dispatched and the other entries follow. -/
theorem deliver_cons_cases {id : PropagatorId} {p q : P} {entry : LocalId × Event}
    {rest : List (LocalId × Event)} {c? : Option Contradiction}
    (h : deliver id p (entry :: rest) sp = .ok (c?, q, sp')) :
    ∃ pass, Propagator.propagate p entry.1 entry.2 sp.store = .ok pass
      ∧ ((∃ refusal, pass.refusal? = some refusal ∧ c? = some (refusal.contradiction id)
          ∧ q = pass.self ∧ sp' = (sp.record id pass).fail)
        ∨ (pass.refusal? = none
          ∧ deliver id pass.self rest (sp.record id pass).dispatch = .ok (c?, q, sp'))) := by
  obtain ⟨position, e⟩ := entry
  simp only [deliver, bind, Except.bind] at h
  split at h
  · cases h
  next pass hpass =>
    refine ⟨pass, hpass, ?_⟩
    cases hrefusal : pass.refusal? with
    | some refusal =>
      simp only [hrefusal] at h
      cases h
      exact Or.inl ⟨refusal, rfl, rfl, rfl, rfl⟩
    | none =>
      simp only [hrefusal] at h
      exact Or.inr ⟨rfl, h⟩

/-- A propagator is made passive if it says that its constraint holds, or nothing is done. -/
theorem passivateIfEntailed_cases {id : PropagatorId} {p : P}
    (h : sp.passivateIfEntailed id p = .ok sp') :
    (Propagator.entailment p sp.store = .ok .holds
        ∧ sp' = { sp with store := sp.store.passivate id, passivations := sp.passivations + 1 })
      ∨ sp' = sp := by
  simp only [passivateIfEntailed, bind, Except.bind] at h
  split at h
  · cases h
  next verdict hverdict =>
    split at h
    · cases h
      exact Or.inl ⟨hverdict, rfl⟩
    · cases h
      exact Or.inr rfl

theorem leads_deliver {sp sp' : Space Filter} {id : PropagatorId} {f q : Filter}
    {pending : List (LocalId × Event)} {c? : Option Contradiction} (hs : sp.store.Wf)
    (hf : sp.filterAt? id.index = some f) (h : deliver id f pending sp = .ok (c?, q, sp')) :
    Leads sp sp' ∧ q = f := by
  induction pending generalizing sp with
  | nil =>
    cases h
    exact ⟨.refl _, rfl⟩
  | cons entry rest ih =>
    obtain ⟨pass, hpass, hcase⟩ := deliver_cons_cases h
    have hlawful := Filter.lawful_propagate hs hpass
    have hrecord := leads_record hf hlawful
    rcases hcase with ⟨refusal, -, -, rfl, rfl⟩ | ⟨-, hrest⟩
    · exact ⟨hrecord.trans (leads_fail _), hlawful.self⟩
    · have hdispatch := hrecord.trans (leads_dispatch _)
      rw [hlawful.self] at hrest
      obtain ⟨hafter, hq⟩ := ih (hdispatch.wf hs) ((hdispatch.filterAt _).trans hf) hrest
      exact ⟨hdispatch.trans hafter, hq⟩

theorem leads_passivateIfEntailed {id : PropagatorId} {f : P}
    (h : sp.passivateIfEntailed id f = .ok sp') : Leads sp sp' := by
  rcases passivateIfEntailed_cases h with ⟨-, rfl⟩ | rfl
  · exact ⟨Store.extends_passivate _ _, fun _ => rfl, rfl, rfl⟩
  · exact .refl _

/-- The space without the head of its queue and without what it was to be told. -/
def popped (sp : Space P) (id : PropagatorId) (queue : Queue) : Space P :=
  { sp with queue, posted := sp.posted.modify id.index ({ · with pending := [] }) }

omit [Propagator P] in
theorem leads_popped {id : PropagatorId} {queue : Queue} (h : sp.queue.pop? = some (id, queue)) :
    Leads sp (sp.popped id queue) :=
  ⟨.refl _, fun i => filterAt?_modify (f := ({ · with pending := [] })) (fun _ _ => rfl) i,
    rfl, (Queue.members_pop? h).2⟩

/-- How a run of the head of the queue goes. -/
theorem runNext?_cases {r : Except Fault (Option Contradiction × Space P)}
    {c? : Option Contradiction} (h : sp.runNext? = some r) (hr : r = .ok (c?, sp')) :
    ∃ id queue p, sp.queue.pop? = some (id, queue) ∧ sp.posted.get? id.index = some p
      ∧ ((sp.store.isPassive id = true ∧ c? = none ∧ sp' = sp.popped id queue)
        ∨ (sp.store.isPassive id = false ∧ ∃ q after,
          deliver id p.propagator p.pending (sp.popped id queue) = .ok (c?, q, after)
            ∧ ((∃ c, c? = some c ∧ sp' = after)
              ∨ (c? = none ∧ after.passivateIfEntailed id q = .ok sp')))) := by
  unfold runNext? at h
  split at h
  · cases h
  next id queue hpop =>
    simp only at h
    split at h
    · cases h
      cases hr
    next p hp =>
      refine ⟨id, queue, p, hpop, hp, ?_⟩
      split at h
      next hpassive =>
        obtain rfl := Option.some.inj h
        cases hr
        exact Or.inl ⟨hpassive, rfl, rfl⟩
      next hactive =>
        obtain rfl := Option.some.inj h
        refine Or.inr ⟨Bool.eq_false_iff.mpr hactive, ?_⟩
        simp only [bind, Except.bind] at hr
        split at hr
        · cases hr
        next out hout =>
          obtain ⟨found?, q, after⟩ := out
          simp only at hr
          split at hr
          next c =>
            cases hr
            exact ⟨q, _, hout, Or.inl ⟨c, rfl, rfl⟩⟩
          next =>
            split at hr
            · cases hr
            next last hlast =>
              cases hr
              exact ⟨q, after, hout, Or.inr ⟨rfl, hlast⟩⟩

/-- Only an empty queue stops propagation. -/
theorem pop?_eq_none_of_runNext? (h : sp.runNext? = none) : sp.queue.pop? = none := by
  unfold runNext? at h
  split at h
  next hpop => exact hpop
  next =>
    simp only at h
    split at h
    · cases h
    · split at h <;> cases h

theorem leads_runNext? {sp sp' : Space Filter}
    {r : Except Fault (Option Contradiction × Space Filter)}
    {c? : Option Contradiction} (hs : sp.store.Wf) (h : sp.runNext? = some r)
    (hr : r = .ok (c?, sp')) : Leads sp sp' := by
  obtain ⟨id, queue, p, hpop, hp, hcase⟩ := runNext?_cases h hr
  have hpopped := leads_popped hpop
  rcases hcase with ⟨-, -, rfl⟩ | ⟨-, q, after, hdeliver, hend⟩
  · exact hpopped
  · have hf : (sp.popped id queue).filterAt? id.index = some p.propagator := by
      rw [hpopped.filterAt, filterAt?, hp]
      rfl
    obtain ⟨hafter, rfl⟩ := leads_deliver (hpopped.wf hs) hf hdeliver
    rcases hend with ⟨c, -, rfl⟩ | ⟨-, hpassivate⟩
    · exact hpopped.trans hafter
    · exact (hpopped.trans hafter).trans (leads_passivateIfEntailed hpassivate)

/-- How propagation goes on: the queue is empty, or its head is run, which ends it with a
    contradiction or is followed by the rest. -/
theorem drain_cases {fuel : Nat} {c? : Option Contradiction}
    (h : sp.drain (fuel + 1) = .ok (c?, sp')) :
    (sp.runNext? = none ∧ c? = none ∧ sp' = { sp with phase := .idle })
      ∨ ∃ found? next, sp.runNext? = some (.ok (found?, next))
        ∧ ((∃ c, found? = some c ∧ c? = some c ∧ sp' = next)
          ∨ (found? = none ∧ next.drain fuel = .ok (c?, sp'))) := by
  unfold drain at h
  split at h
  next hnone =>
    cases h
    exact Or.inl ⟨hnone, rfl, rfl⟩
  next result hnext =>
    cases result with
    | error f => cases h
    | ok out =>
      obtain ⟨found?, next⟩ := out
      refine Or.inr ⟨found?, next, hnext, ?_⟩
      simp only [bind, Except.bind] at h
      cases found? with
      | some c =>
        cases h
        exact Or.inl ⟨c, rfl, rfl, rfl⟩
      | none => exact Or.inr ⟨rfl, h⟩

/-! ### What is handed on -/

/-- What holds of a space while propagation goes on, and of how it ends, is handed on by the parts
    of propagation. -/
structure Handed (Q : Option Contradiction → Space P → Prop) : Prop where
  /-- What the space is doing does not matter. -/
  phase : ∀ {sp : Space P} (phase : Phase), Q none sp → Q none { sp with phase }
  /-- Dispatching. -/
  dispatch : ∀ {sp : Space P}, Q none sp → Q none sp.dispatch
  /-- Running the head of the queue. -/
  runNext : ∀ {sp sp' : Space P} {c? : Option Contradiction}, Q none sp →
    sp.runNext? = some (.ok (c?, sp')) → Q c? sp'

namespace Handed

variable {Q : Option Contradiction → Space P → Prop} {c? : Option Contradiction}

theorem drain (hQ : Handed Q) {fuel : Nat} (h : Q none sp)
    (hrun : sp.drain fuel = .ok (c?, sp')) : Q c? sp' := by
  induction fuel generalizing sp with
  | zero => cases hrun
  | succ fuel ih =>
    rcases drain_cases hrun with ⟨-, rfl, rfl⟩ | ⟨found?, next, hnext, hend⟩
    · exact hQ.phase .idle h
    have hfound := hQ.runNext h hnext
    rcases hend with ⟨c, rfl, rfl, rfl⟩ | ⟨rfl, hrest⟩
    · exact hfound
    · exact ih hfound hrest

theorem propagate (hQ : Handed Q) (h : Q none sp) (hrun : sp.propagate = .ok (c?, sp')) :
    Q c? sp' :=
  hQ.drain (hQ.dispatch (hQ.phase .propagating h)) hrun

/-- Narrowings, each of which hands on what holds, and the propagation that follows. -/
theorem settle (hQ : Handed Q) {requests : List Narrowing}
    (hnarrow : ∀ request ∈ requests, ∀ {sp : Space P}, Q none sp →
      Q (if (request.apply sp.store).changed? = none then some .emptyDomain else none)
        { sp with store := (request.apply sp.store).store })
    (h : Q none sp) (hrun : sp.settle requests = .ok (c?, sp')) : Q c? sp' := by
  induction requests generalizing sp with
  | nil => exact hQ.propagate h hrun
  | cons request rest ih =>
    have hfirst := hnarrow request List.mem_cons_self h
    simp only [Space.settle, Narrowing.run, bind, Except.bind, pure, Except.pure] at hrun
    split at hrun
    · cases hrun
    next n hn =>
      split at hn
      · cases hn
      obtain rfl := Except.ok.inj hn
      split at hrun
      next hempty =>
        rw [if_pos hempty] at hfirst
        cases hrun
        exact hfirst
      next c hchanged =>
        rw [if_neg (by rw [hchanged]; exact Option.some_ne_none c)] at hfirst
        exact ih (fun r hr => hnarrow r (List.mem_cons_of_mem _ hr)) hfirst hrun

end Handed

/-! ### What propagation leads to -/

theorem handed_leads {origin : Space Filter} (hs : origin.store.Wf) :
    Handed fun _ sp => Leads origin sp where
  phase := fun _ h => h.trans ⟨.refl _, fun _ => rfl, rfl, rfl⟩
  dispatch := fun h => h.trans (leads_dispatch _)
  runNext := fun h hrun => h.trans (leads_runNext? (h.wf hs) hrun rfl)

theorem leads_propagate {sp sp' : Space Filter} {c? : Option Contradiction} (hs : sp.store.Wf)
    (h : sp.propagate = .ok (c?, sp')) : Leads sp sp' :=
  (handed_leads hs).propagate (.refl sp) h

theorem leads_settle {sp sp' : Space Filter} {requests : List Narrowing} {c? : Option Contradiction}
    (hs : sp.store.Wf) (h : sp.settle requests = .ok (c?, sp')) : Leads sp sp' := by
  refine (handed_leads hs).settle (fun request _ mid hmid => ?_) (.refl sp) h
  have hext : mid.store.Extends (request.apply mid.store).store :=
    Filter.narrowable_extends (hmid.wf hs) request mid.store (.refl _)
  exact hmid.trans ⟨hext, fun _ => rfl, rfl, rfl⟩

/-! ### Nobody waits in the end -/

/-- Whoever is to be told of something waits in the queue. -/
structure Alert (sp : Space P) : Prop where
  /-- There is a line for each priority. -/
  lines : sp.queue.lines.size = Priority.count
  /-- Who has pending events waits. -/
  waits : ∀ i p, sp.posted.get? i = some p → p.pending ≠ [] → ⟨i⟩ ∈ sp.queue.members

/-- Propagation has come to an end. -/
structure Settled (sp : Space P) : Prop where
  events : sp.store.events = EventSink.empty
  queue : sp.queue = Queue.empty
  pending : ∀ i p, sp.posted.get? i = some p → p.pending = []

omit [Propagator P] in
theorem Settled.alert (h : sp.Settled) : sp.Alert :=
  ⟨by rw [h.queue]; rfl, fun i p hp hne => absurd (h.pending i p hp) hne⟩

/-- The members of a queue stay when somebody joins, and who joins is a member. -/
theorem mem_enqueue {q : Queue} {id : PropagatorId} {priority : Priority}
    (hlines : q.lines.size = Priority.count) {other : PropagatorId} :
    other ∈ (q.enqueue id priority).members ↔ other = id ∨ other ∈ q.members := by
  rcases Queue.members_enqueue (hlines ▸ priority.level_lt_count) (p := id) with
    ⟨hwaits, hsame⟩ | ⟨-, hperm⟩
  · rw [hsame]
    refine ⟨Or.inr, ?_⟩
    rintro (rfl | h)
    · exact Queue.isWaiting_iff.mp hwaits
    · exact h
  · rw [hperm.mem_iff, List.mem_cons]

theorem alert_wake (h : sp.Alert) (e : Event) (position : ScopePosition) :
    (sp.wake e position).Alert := by
  unfold wake
  simp only
  split
  · exact h
  · split
    · exact h
    · refine ⟨by rw [← h.lines]; simp, fun i p hp hne => ?_⟩
      rw [mem_enqueue h.lines]
      simp only [Table.get?_modify] at hp
      split at hp
      next heq => exact Or.inl (congrArg PropagatorId.mk heq.symm)
      next => exact Or.inr (h.waits i p hp hne)

theorem store_wake (sp : Space P) (e : Event) (position : ScopePosition) :
    (sp.wake e position).store = sp.store := by
  unfold wake
  simp only
  split
  · rfl
  · split <;> rfl

theorem store_dispatch (sp : Space P) : sp.dispatch.store = sp.store.dropEvents :=
  dispatch_induction (I := fun t => t.store = sp.store.dropEvents) rfl
    fun t e position h => (store_wake t e position).trans h

theorem events_dispatch (sp : Space P) : sp.dispatch.store.events = EventSink.empty := by
  rw [store_dispatch]
  rfl

theorem alert_dispatch (h : sp.Alert) : sp.dispatch.Alert :=
  dispatch_induction ⟨h.lines, h.waits⟩ fun _ e position h => alert_wake h e position

omit [Propagator P] in
theorem alert_record (h : sp.Alert) (id : PropagatorId) (pass : Pass P) :
    (sp.record id pass).Alert := by
  refine ⟨h.lines, fun i p hp hne => ?_⟩
  simp only [record, Table.get?_modify] at hp
  split at hp
  next heq =>
    obtain ⟨q, hq, rfl⟩ := Option.map_eq_some_iff.mp hp
    exact h.waits i q hq hne
  next => exact h.waits i p hp hne

omit [Propagator P] in
theorem alert_popped (h : sp.Alert) {id : PropagatorId} {queue : Queue}
    (hpop : sp.queue.pop? = some (id, queue)) : (sp.popped id queue).Alert := by
  obtain ⟨hperm, hlines⟩ := Queue.members_pop? hpop
  refine ⟨hlines.trans h.lines, fun i p hp hne => ?_⟩
  simp only [popped, Table.get?_modify] at hp
  split at hp
  next heq =>
    obtain ⟨q, hq, rfl⟩ := Option.map_eq_some_iff.mp hp
    exact absurd rfl hne
  next hidx =>
    have hmem := hperm.mem_iff.mp (h.waits i p hp hne)
    rcases List.mem_cons.mp hmem with heq | hmem
    · exact absurd (congrArg PropagatorId.index heq).symm hidx
    · exact hmem

/-- A delivery that meets no contradiction leaves no event waiting. -/
theorem alert_deliver {id : PropagatorId} {f q : P} {pending : List (LocalId × Event)}
    (h : sp.Alert) (hevents : sp.store.events = EventSink.empty)
    (hrun : deliver id f pending sp = .ok (none, q, sp')) :
    sp'.Alert ∧ sp'.store.events = EventSink.empty := by
  induction pending generalizing sp f with
  | nil =>
    cases hrun
    exact ⟨h, hevents⟩
  | cons entry rest ih =>
    obtain ⟨pass, -, ⟨refusal, -, hc, -⟩ | ⟨-, hrest⟩⟩ := deliver_cons_cases hrun
    · cases hc
    · refine ih (alert_dispatch (alert_record h id pass)) ?_ hrest
      rw [store_dispatch]
      rfl

theorem alert_passivateIfEntailed {id : PropagatorId} {f : P} (h : sp.Alert)
    (hevents : sp.store.events = EventSink.empty)
    (hrun : sp.passivateIfEntailed id f = .ok sp') :
    sp'.Alert ∧ sp'.store.events = EventSink.empty := by
  rcases passivateIfEntailed_cases hrun with ⟨-, rfl⟩ | rfl
  · refine ⟨⟨h.lines, h.waits⟩, ?_⟩
    simp only [Store.passivate]
    split <;> exact hevents
  · exact ⟨h, hevents⟩

theorem settled_drain {fuel : Nat} (h : sp.Alert) (hevents : sp.store.events = EventSink.empty)
    (hrun : sp.drain fuel = .ok (none, sp')) : sp'.Settled := by
  induction fuel generalizing sp with
  | zero => cases hrun
  | succ fuel ih =>
    rcases drain_cases hrun with ⟨hnone, -, rfl⟩ | ⟨found?, next, hnext, ⟨c, -, hc, -⟩ | ⟨rfl, hrest⟩⟩
    · have hqueue := Queue.pop?_eq_none (pop?_eq_none_of_runNext? hnone)
      rw [h.lines] at hqueue
      refine ⟨hevents, hqueue, fun i p hp => ?_⟩
      by_contra hne
      have hmem := h.waits i p hp hne
      rw [hqueue, Queue.members_withLevels] at hmem
      exact List.not_mem_nil hmem
    · cases hc
    obtain ⟨id, queue, p, hpop, -, hcase⟩ := runNext?_cases hnext rfl
    have hpopped := alert_popped h hpop
    rcases hcase with ⟨-, -, rfl⟩ | ⟨-, q, after, hdeliver, ⟨c, hc, -⟩ | ⟨-, hpassivate⟩⟩
    · exact ih hpopped hevents hrest
    · cases hc
    · obtain ⟨halert, hquiet⟩ := alert_deliver hpopped hevents hdeliver
      obtain ⟨halert', hquiet'⟩ := alert_passivateIfEntailed halert hquiet hpassivate
      exact ih halert' hquiet' hrest

theorem settled_propagate (h : sp.Alert) (hrun : sp.propagate = .ok (none, sp')) :
    sp'.Settled := by
  have hphase : Alert { sp with phase := .propagating } := ⟨h.lines, h.waits⟩
  refine settled_drain (alert_dispatch hphase) ?_ hrun
  rw [store_dispatch]
  rfl

theorem settled_settle {requests : List Narrowing} (h : sp.Alert)
    (hrun : sp.settle requests = .ok (none, sp')) : sp'.Settled := by
  induction requests generalizing sp with
  | nil => exact settled_propagate h hrun
  | cons request rest ih =>
    simp only [settle, bind, Except.bind] at hrun
    split at hrun
    · cases hrun
    next n hn =>
      split at hrun
      · cases hrun
      · have hnarrowed : Alert { sp with store := n.store } := ⟨h.lines, h.waits⟩
        exact ih hnarrowed hrun

end Space

end FiniteDomain
