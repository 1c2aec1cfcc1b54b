import FiniteDomain.Proofs.Propagation.Pending
import FiniteDomain.Proofs.Propagation.WatchList
import FiniteDomain.Proofs.Store.Changes

/-! # No wake-up is lost

    This is about propagators of any kind that touch the store by narrowings only
    (`Narrowers`).  `propagateCalls` lists the calls that a propagation makes.

    A change that a position watches for is *owed* to it until the position is
    called for it: the event waits in the store, or it is pending at the position.
    Each part of propagation settles what is owed or hands it on, and so does a
    call for what was changed during the call (`Hands`).  Nothing is pending in
    the end, so by then everything owed has been settled
    (`called_of_propagate`). -/

namespace FiniteDomain

/-- A call of a propagator for an event. -/
structure Call where
  /-- The propagator. -/
  propagator : PropagatorId
  /-- The position in its scope. -/
  localId : LocalId
  /-- The event. -/
  event : Event
  /-- The store before the call. -/
  before : Store
  /-- The store after the call. -/
  after : Store

/-- The call is made to the position of the watch, for an event that it asks for. -/
def Call.Answers (c : Call) (id : PropagatorId) (w : Watch) : Prop :=
  c.propagator = id ∧ c.localId = w.position ∧ w.events.meets c.event.wakes = true

/-- During the call a narrowing made a change that the watch asks for. -/
def Call.Makes (c : Call) (w : Watch) : Prop :=
  ∃ (s : Store) (request : Narrowing), c.before.Narrowings s ∧ s.Asked (request.apply s).store w
    ∧ (request.apply s).store.Narrowings c.after

/-- The position is among the subscribers, for at least the given kinds of change. -/
def Subscription.Covers (subscriptions : List Subscription) (p : ScopePosition)
    (events : EventSet) : Prop :=
  ∃ sub ∈ subscriptions, sub.position = p ∧ ∀ k, events.contains k = true → sub.events.contains k = true

/-- The propagators touch the store by narrowings only. -/
def Narrowers (P : Type) [Propagator P] : Prop :=
  ∀ (p : P) (l : LocalId) (e : Event) (s : Store) (pass : Pass P),
    Propagator.propagate p l e s = .ok pass → s.Narrowings pass.store

namespace Space

variable {P : Type} {sp sp' : Space P} {id : PropagatorId} {w : Watch}

/-- The propagator is posted, and its position is subscribed to what the watch asks for. -/
structure Subscribes (sp : Space P) (id : PropagatorId) (w : Watch) : Prop where
  posted : id.index < sp.posted.size
  subscribed : Subscription.Covers (sp.watchList.subscriptions w.target) ⟨id, w.position⟩ w.events

theorem Subscribes.mem_affected (h : sp.Subscribes id w) {e : Event}
    (hmeets : w.events.meets e.wakes = true) :
    ⟨id, w.position⟩ ∈ sp.watchList.affected e w.target := by
  obtain ⟨sub, hmem, hposition, hevents⟩ := h.subscribed
  obtain ⟨k, hk, hwakes⟩ := EventSet.meets_iff.mp hmeets
  refine List.mem_map.mpr ⟨sub, List.mem_filter.mpr ⟨hmem, ?_⟩, hposition⟩
  exact EventSet.meets_iff.mpr ⟨k, hevents k hk, hwakes⟩

theorem Subscribes.of_eq (h : sp.Subscribes id w) (hwatch : sp'.watchList = sp.watchList)
    (hsize : sp'.posted.size = sp.posted.size) : sp'.Subscribes id w :=
  ⟨hsize ▸ h.posted, hwatch ▸ h.subscribed⟩

/-- The watch is owed a call: its propagator is not passive, and an event that the watch asks for
    is pending at the position or waits in the store. -/
def Owed (sp : Space P) (id : PropagatorId) (w : Watch) : Prop :=
  sp.store.isPassive id = true
    ∨ (∃ e, (w.position, e) ∈ sp.told id.index ∧ w.events.meets e.wakes = true)
    ∨ sp.store.Announces w

/-! ### Subscribing -/

theorem covers_add {subscriptions : List Subscription} {new : Subscription} {p : ScopePosition}
    {events : EventSet} (h : Subscription.Covers subscriptions p events
      ∨ Subscription.Covers [new] p events) :
    Subscription.Covers (Subscription.add subscriptions new) p events := by
  have hunion : ∀ s t : EventSet, ∀ k, (s.contains k = true → (s.union t).contains k = true)
      ∧ (t.contains k = true → (s.union t).contains k = true) := by
    intro s t k
    rw [EventSet.contains_union]
    exact ⟨fun hs => by rw [hs]; rfl, fun ht => by rw [ht, Bool.or_true]⟩
  -- along the list until the position is found; there the events are united
  induction subscriptions with
  | nil =>
    rcases h with ⟨sub, hmem, -⟩ | h
    · exact absurd hmem List.not_mem_nil
    · exact h
  | cons head rest ih =>
    unfold Subscription.add
    by_cases heq : head.position = new.position
    · rw [if_pos heq]
      rcases h with ⟨sub, hmem, hposition, hevents⟩ | ⟨sub, hmem, hposition, hevents⟩
      · rcases List.mem_cons.mp hmem with rfl | hmem
        · exact ⟨_, List.mem_cons_self, hposition, fun k hk => (hunion _ _ k).1 (hevents k hk)⟩
        · exact ⟨sub, List.mem_cons_of_mem _ hmem, hposition, hevents⟩
      · rw [List.mem_singleton.mp hmem] at hposition hevents
        exact ⟨_, List.mem_cons_self, heq.trans hposition,
          fun k hk => (hunion _ _ k).2 (hevents k hk)⟩
    · rw [if_neg heq]
      have hrest (h : Subscription.Covers rest p events ∨ Subscription.Covers [new] p events) :
          Subscription.Covers (head :: Subscription.add rest new) p events := by
        obtain ⟨sub, hmem, hsub⟩ := ih h
        exact ⟨sub, List.mem_cons_of_mem _ hmem, hsub⟩
      rcases h with ⟨sub, hmem, hposition, hevents⟩ | h
      · rcases List.mem_cons.mp hmem with rfl | hmem
        · exact ⟨sub, List.mem_cons_self, hposition, hevents⟩
        · exact hrest (Or.inl ⟨sub, hmem, hposition, hevents⟩)
      · exact hrest (Or.inr h)

theorem covers_subscribe {list : WatchList} {v v' : VariableId} {new : Subscription}
    {p : ScopePosition} {events : EventSet}
    (h : Subscription.Covers (list.subscriptions v') p events
      ∨ (v = v' ∧ Subscription.Covers [new] p events)) :
    Subscription.Covers ((list.subscribe v new).subscriptions v') p events := by
  rw [WatchList.subscriptions_subscribe]
  split
  next => exact covers_add (h.imp_right And.right)
  next hne => exact h.resolve_right fun h => hne h.1

/-- Subscriptions stay when others are added. -/
theorem covers_subscribeAll {list : WatchList} {v : VariableId} {p : ScopePosition}
    {events : EventSet} (watches : List Watch)
    (h : Subscription.Covers (list.subscriptions v) p events) :
    Subscription.Covers ((watches.foldl (fun l watch => l.subscribe watch.target
      ⟨⟨id, watch.position⟩, watch.events⟩) list).subscriptions v) p events := by
  induction watches generalizing list with
  | nil => exact h
  | cons watch rest ih => exact ih (covers_subscribe (Or.inl h))

/-- Posting a propagator subscribes it to what it watches. -/
theorem subscribes_entered [Propagator P] {p : P} (hw : w ∈ Propagator.watches p) :
    (sp.entered p).Subscribes ⟨sp.posted.nextKey⟩ w := by
  refine ⟨?_, ?_⟩
  · show sp.posted.size < (sp.posted.push _).size
    rw [Table.size_push]
    exact Nat.lt_succ_self _
  show Subscription.Covers (WatchList.subscriptions (List.foldl _ sp.watchList _) _) _ _
  generalize sp.watchList = list
  generalize Propagator.watches p = watches at hw
  induction watches generalizing list with
  | nil => exact absurd hw List.not_mem_nil
  | cons watch rest ih =>
    rcases List.mem_cons.mp hw with rfl | hw
    · exact covers_subscribeAll rest (covers_subscribe (Or.inr
        ⟨rfl, _, List.mem_singleton_self _, rfl, fun _ hk => hk⟩))
    · exact ih _ hw

/-- Whoever is subscribed stays so when a propagator is posted. -/
theorem Subscribes.entered [Propagator P] (h : sp.Subscribes id w) (p : P) :
    (sp.entered p).Subscribes id w := by
  refine ⟨?_, covers_subscribeAll _ h.subscribed⟩
  show id.index < (sp.posted.push _).size
  rw [Table.size_push]
  exact Nat.lt_succ_of_lt h.posted

/-- What is owed stays so when a propagator is posted. -/
theorem owed_entered [Propagator P] (h : sp.Owed id w) (p : P) : (sp.entered p).Owed id w := by
  unfold Owed
  rw [told_entered]
  exact h

/-! ### Handing on what is owed -/

/-- From the first space to the second by calls: what was owed or has been changed on the way has
    been answered by a later call or is owed still. -/
structure Hands (sp : Space P) (calls : List Call) (sp' : Space P) : Prop where
  wf : sp'.store.Wf
  watchList : sp'.watchList = sp.watchList
  size : sp'.posted.size = sp.posted.size
  /-- The counter counts the calls. -/
  counted : sp'.calls = sp.calls + calls.length
  owed : ∀ id w, sp.Subscribes id w → sp.Owed id w →
    (∃ c ∈ calls, c.Answers id w) ∨ sp'.Owed id w
  made : ∀ id w, sp.Subscribes id w → ∀ before c after, calls = before ++ c :: after →
    c.Makes w → (∃ c' ∈ after, c'.Answers id w) ∨ sp'.Owed id w

namespace Hands

variable {sp'' : Space P} {calls calls' : List Call}

theorem subscribes (h : Hands sp calls sp') (hsub : sp.Subscribes id w) : sp'.Subscribes id w :=
  hsub.of_eq h.watchList h.size

/-- Without a call. -/
theorem quiet (hwf : sp'.store.Wf) (hwatch : sp'.watchList = sp.watchList)
    (hsize : sp'.posted.size = sp.posted.size) (hcalls : sp'.calls = sp.calls)
    (howed : ∀ id w, sp.Subscribes id w → sp.Owed id w → sp'.Owed id w) : Hands sp [] sp' where
  wf := hwf
  watchList := hwatch
  size := hsize
  counted := hcalls
  owed := fun id w hsub h => Or.inr (howed id w hsub h)
  made := fun _ _ _ before c after h => by simp at h

theorem refl (hwf : sp.store.Wf) : Hands sp [] sp :=
  quiet hwf rfl rfl rfl fun _ _ _ h => h

theorem trans (h₁ : Hands sp calls sp') (h₂ : Hands sp' calls' sp'') :
    Hands sp (calls ++ calls') sp'' where
  wf := h₂.wf
  watchList := h₂.watchList.trans h₁.watchList
  size := h₂.size.trans h₁.size
  counted := by rw [h₂.counted, h₁.counted, List.length_append, Nat.add_assoc]
  owed := fun id w hsub h => by
    rcases h₁.owed id w hsub h with ⟨c, hc, hanswers⟩ | h
    · exact Or.inl ⟨c, List.mem_append_left _ hc, hanswers⟩
    rcases h₂.owed id w (h₁.subscribes hsub) h with ⟨c, hc, hanswers⟩ | h
    · exact Or.inl ⟨c, List.mem_append_right _ hc, hanswers⟩
    · exact Or.inr h
  made := fun id w hsub before c after hsplit hmakes => by
    rcases List.append_eq_append_iff.mp hsplit with ⟨mid, rfl, hrest⟩ | ⟨mid, hfirst, hrest⟩
    · -- a call of the second part
      exact h₂.made id w (h₁.subscribes hsub) mid c after hrest hmakes
    · cases mid with
      | nil =>
        exact h₂.made id w (h₁.subscribes hsub) [] c after hrest.symm hmakes
      | cons c' mid =>
        -- a call of the first part; what it hands on is answered in the rest or later
        obtain ⟨rfl, rfl⟩ := List.cons.inj hrest
        rcases h₁.made id w hsub before c mid hfirst hmakes with ⟨c', hc', hanswers⟩ | h
        · exact Or.inl ⟨c', List.mem_append_left _ hc', hanswers⟩
        rcases h₂.owed id w (h₁.subscribes hsub) h with ⟨c', hc', hanswers⟩ | h
        · exact Or.inl ⟨c', List.mem_append_right _ hc', hanswers⟩
        · exact Or.inr h

end Hands

/-- What narrowings announce is owed. -/
theorem owed_of_store (h : sp.Owed id w) (hst : sp.store.Steps sp'.store)
    (htold : sp'.told id.index = sp.told id.index) : sp'.Owed id w := by
  unfold Owed
  rw [htold]
  rcases h with hpassive | htold | hannounces
  · left
    rw [Store.isPassive, hst.passive_eq]
    exact hpassive
  · exact Or.inr (Or.inl htold)
  · exact Or.inr (Or.inr (hannounces.steps hst))

theorem told_record (sp : Space P) (id : PropagatorId) (pass : Pass P) (i : Nat) :
    (sp.record id pass).told i = sp.told i := by
  rw [told_modify sp rfl]
  split
  next heq =>
    subst heq
    rfl
  next => rfl

variable [Propagator P]

/-! ### Calls -/

/-- The calls that `deliver` makes. -/
def deliverCalls (id : PropagatorId) : P → List (LocalId × Event) → Space P → List Call
  | _, [], _ => []
  | p, (l, e) :: rest, sp =>
    match Propagator.propagate p l e sp.store with
    | .error _ => []
    | .ok pass =>
      ⟨id, l, e, sp.store, pass.store⟩ ::
        match pass.refusal? with
        | some _ => []
        | none => deliverCalls id pass.self rest (sp.record id pass).dispatch

/-- The calls that `runNext?` makes. -/
def runNextCalls (sp : Space P) : List Call :=
  match sp.queue.pop? with
  | none => []
  | some (id, queue) =>
    match sp.posted.get? id.index with
    | none => []
    | some p =>
      if sp.store.isPassive id then []
      else deliverCalls id p.propagator p.pending (sp.popped id queue)

/-- The calls that `drain` makes. -/
def drainCalls : (fuel : Nat) → Space P → List Call
  | 0, _ => []
  | fuel + 1, sp =>
    sp.runNextCalls ++
      match sp.runNext? with
      | some (.ok (none, next)) => drainCalls fuel next
      | _ => []

/-- The calls that `propagate` makes, in order. -/
def propagateCalls (sp : Space P) : List Call :=
  drainCalls sp.stepBound { sp with phase := .propagating }.dispatch

/-! ### The parts of propagation -/

theorem calls_dispatch (sp : Space P) : sp.dispatch.calls = sp.calls := by
  refine dispatch_induction (I := fun t => t.calls = sp.calls) rfl fun t e position h => ?_
  unfold wake
  simp only
  split
  · exact h
  · split <;> exact h

/-- Dispatching makes what waits in the store pending. -/
theorem hands_dispatch (hwf : sp.store.Wf) : Hands sp [] sp.dispatch := by
  have htells := tells_dispatch sp
  refine .quiet ?_ htells.watchList (size_dispatch sp) (calls_dispatch sp) fun id w hsub h => ?_
  · rw [store_dispatch]
    exact hwf.dropEvents
  unfold Owed
  rw [store_dispatch]
  rcases h with hpassive | ⟨e, he, hmeets⟩ | ⟨e, he, hmeets⟩
  · exact Or.inl hpassive
  · exact Or.inr (Or.inl ⟨e, (htells.told _ _).mpr (Or.inl he), hmeets⟩)
  · cases hpassive : sp.store.isPassive id with
    | true => exact Or.inl hpassive
    | false =>
      refine Or.inr (Or.inl ⟨e, (htells.told _ _).mpr (Or.inr ⟨?_, ?_⟩), hmeets⟩)
      · obtain ⟨p, hp⟩ := Option.isSome_iff_exists.mp
          ((Table.get?_isSome_iff _ _).mpr hsub.posted)
        exact ⟨p.propagator, filterAt?_eq hp, hpassive⟩
      · exact ⟨w.target, he, hsub.mem_affected hmeets⟩

/-- One call. -/
theorem hands_record (hP : Narrowers P) (hwf : sp.store.Wf) (id : PropagatorId) {p : P} {l : LocalId} {e : Event}
    {pass : Pass P} (hpass : Propagator.propagate p l e sp.store = .ok pass) :
    Hands sp [⟨id, l, e, sp.store, pass.store⟩] (sp.record id pass) := by
  have hsteps := (hP p l e sp.store pass hpass).steps hwf
  refine ⟨hsteps.wf hwf, rfl, Table.size_modify .., rfl, fun id w _ h => ?_,
    fun id w _ before c after hsplit hmakes => ?_⟩
  · exact Or.inr (owed_of_store h hsteps (told_record ..))
  · -- the change has been announced before the call was over
    obtain ⟨rfl, rfl⟩ : c = ⟨_, l, e, sp.store, pass.store⟩ ∧ after = [] := by
      cases before with
      | nil => exact ⟨(List.cons.inj hsplit).1.symm, (List.cons.inj hsplit).2.symm⟩
      | cons c' before => simp at hsplit
    obtain ⟨s, request, hbefore, hasked, hafter⟩ := hmakes
    have hs := (hbefore.steps hwf).wf hwf
    have hannounces := Store.announces_apply hs hasked
    exact Or.inr (Or.inr (Or.inr
      (hannounces.steps (hafter.steps ((Store.steps_apply hs request).wf hs)))))

/-- A delivery makes a call for every entry. -/
theorem hands_deliver (hP : Narrowers P) {p q : P} {pending : List (LocalId × Event)}
    (hwf : sp.store.Wf) (hrun : deliver id p pending sp = .ok (none, q, sp')) :
    Hands sp (deliverCalls id p pending sp) sp'
      ∧ ∀ entry ∈ pending, ∃ c ∈ deliverCalls id p pending sp,
        c.propagator = id ∧ c.localId = entry.1 ∧ c.event = entry.2 := by
  induction pending generalizing sp p with
  | nil =>
    cases hrun
    exact ⟨.refl hwf, fun entry hentry => absurd hentry List.not_mem_nil⟩
  | cons entry rest ih =>
    obtain ⟨pass, hpass, ⟨refusal, -, hc, -⟩ | ⟨hsuccess, hrest⟩⟩ := deliver_cons_cases hrun
    · cases hc
    have hcall := hands_record hP hwf id hpass
    have hdispatch := hcall.trans (hands_dispatch hcall.wf)
    obtain ⟨hafter, hcalls⟩ := ih hdispatch.wf hrest
    obtain ⟨l, e⟩ := entry
    simp only [deliverCalls, hpass, hsuccess]
    refine ⟨hdispatch.trans hafter, fun entry hentry => ?_⟩
    rcases List.mem_cons.mp hentry with rfl | hentry
    · exact ⟨_, List.mem_cons_self, rfl, rfl, rfl⟩
    · obtain ⟨c, hc, hanswers⟩ := hcalls entry hentry
      exact ⟨c, List.mem_cons_of_mem _ hc, hanswers⟩

omit [Propagator P] in
/-- Taking the head of the queue: what it was to be told of is owed no longer. -/
theorem owed_popped {queue : Queue} {head : PropagatorId} {p : Posted P}
    (hp : sp.posted.get? head.index = some p) (h : sp.Owed id w) :
    (sp.popped head queue).Owed id w ∨ (head = id ∧ ∃ e, (w.position, e) ∈ p.pending
      ∧ w.events.meets e.wakes = true) := by
  rcases h with hpassive | ⟨e, he, hmeets⟩ | hannounces
  · exact Or.inl (Or.inl hpassive)
  · by_cases heq : head = id
    · subst heq
      rw [told_eq hp] at he
      exact Or.inr ⟨rfl, e, he, hmeets⟩
    · refine Or.inl (Or.inr (Or.inl ⟨e, ?_, hmeets⟩))
      rw [told_modify sp rfl, if_neg fun hidx => heq (congrArg PropagatorId.mk hidx)]
      exact he
  · exact Or.inl (Or.inr (Or.inr hannounces))

theorem hands_passivateIfEntailed {p : P} (hwf : sp.store.Wf)
    (hrun : sp.passivateIfEntailed id p = .ok sp') : Hands sp [] sp' := by
  rcases passivateIfEntailed_cases hrun with ⟨-, rfl⟩ | rfl
  · refine .quiet ((Store.sameDomains_passivate _ id).wf hwf) rfl rfl rfl fun other w _ h => ?_
    rcases h with hpassive | htold | ⟨e, he, hmeets⟩
    · exact Or.inl (Store.isPassive_passivate.mpr (Or.inr hpassive))
    · exact Or.inr (Or.inl htold)
    · exact Or.inr (Or.inr ⟨e, (Store.events_passivate _ id).symm ▸ he, hmeets⟩)
  · exact .refl hwf

/-- Running the head of the queue. -/
theorem hands_runNext? (hP : Narrowers P) (hwf : sp.store.Wf)
    (hrun : sp.runNext? = some (.ok (none, sp'))) : Hands sp sp.runNextCalls sp' := by
  obtain ⟨head, queue, p, hpop, hp, hcase⟩ := runNext?_cases hrun rfl
  unfold runNextCalls
  rw [hpop]
  simp only
  rw [hp]
  simp only
  have hsize : (sp.popped head queue).posted.size = sp.posted.size := Table.size_modify ..
  rcases hcase with ⟨hpassive, -, rfl⟩ | ⟨hactive, q, after, hdeliver, hend⟩
  · -- a passive propagator is not called
    rw [if_pos hpassive]
    refine .quiet hwf rfl hsize rfl fun id w _ h => ?_
    rcases owed_popped hp h with h | ⟨rfl, -⟩
    · exact h
    · exact Or.inl hpassive
  · rw [if_neg (Bool.eq_false_iff.mp hactive)]
    rcases hend with ⟨c, hc, -⟩ | ⟨-, hpassivate⟩
    · cases hc
    -- an active one is called for all that it was to be told
    obtain ⟨hcalls, hanswered⟩ := hands_deliver hP
      (show (sp.popped head queue).store.Wf from hwf) hdeliver
    have hrest := hcalls.trans (hands_passivateIfEntailed hcalls.wf hpassivate)
    rw [List.append_nil] at hrest
    have hsub : ∀ {id w}, sp.Subscribes id w → (sp.popped head queue).Subscribes id w :=
      fun h => h.of_eq rfl hsize
    refine ⟨hrest.wf, hrest.watchList, hrest.size.trans hsize, hrest.counted,
      fun id w hw h => ?_, fun id w hw => hrest.made id w (hsub hw)⟩
    rcases owed_popped hp h with h | ⟨rfl, e, he, hmeets⟩
    · exact hrest.owed id w (hsub hw) h
    · obtain ⟨c, hc, hid, hposition, hevent⟩ := hanswered _ he
      exact Or.inl ⟨c, hc, hid, hposition, by rw [hevent]; exact hmeets⟩

theorem hands_drain (hP : Narrowers P) {fuel : Nat} (hwf : sp.store.Wf)
    (hrun : sp.drain fuel = .ok (none, sp')) : Hands sp (drainCalls fuel sp) sp' := by
  induction fuel generalizing sp with
  | zero => cases hrun
  | succ fuel ih =>
    unfold drainCalls
    rcases drain_cases hrun with ⟨hnone, -, rfl⟩ | ⟨found?, next, hnext, ⟨c, -, hc, -⟩ | ⟨rfl, hrest⟩⟩
    · have hcalls : sp.runNextCalls = [] := by
        unfold runNextCalls
        rw [pop?_eq_none_of_runNext? hnone]
      rw [hnone, hcalls]
      exact .quiet hwf rfl rfl rfl fun _ _ _ h => h
    · cases hc
    · rw [hnext]
      have hfirst := hands_runNext? hP hwf hnext
      exact hfirst.trans (ih hfirst.wf hrest)

theorem hands_propagate (hP : Narrowers P) (hwf : sp.store.Wf)
    (hrun : sp.propagate = .ok (none, sp')) : Hands sp sp.propagateCalls sp' := by
  have hphase : Hands sp [] { sp with phase := .propagating } :=
    .quiet hwf rfl rfl rfl fun _ _ _ h => h
  have hdispatch := hphase.trans (hands_dispatch hwf)
  exact hdispatch.trans (hands_drain hP hdispatch.wf hrun)

/-! ### The end of propagation -/

/-- What a propagation leaves behind: nothing is pending, and the phase says how it went. -/
def Ended (c? : Option Contradiction) (sp : Space P) : Prop :=
  sp.Settled ∧ sp.phase = if c?.isSome then .failed else .idle

omit [Propagator P] in
theorem ended_fail (h : sp.Alert) (c : Contradiction) : sp.fail.Ended (some c) := by
  refine ⟨⟨rfl, ?_, fun i p hp => ?_⟩, rfl⟩
  · show sp.queue.clear = Queue.empty
    rw [Queue.clear_eq, h.lines]
    rfl
  · simp only [fail, clearPending, dropEvents, Table.get?, Table.map, Array.getElem?_map,
      Option.map_eq_some_iff] at hp
    obtain ⟨q, -, rfl⟩ := hp
    rfl

theorem ended_deliver {p q : P} {pending : List (LocalId × Event)} {c : Contradiction}
    (h : sp.Alert) (hrun : deliver id p pending sp = .ok (some c, q, sp')) :
    sp'.Ended (some c) := by
  induction pending generalizing sp p with
  | nil => cases hrun
  | cons entry rest ih =>
    obtain ⟨pass, -, ⟨refusal, -, hc, -, rfl⟩ | ⟨-, hrest⟩⟩ := deliver_cons_cases hrun
    · rw [hc]
      exact ended_fail (alert_record h id pass) _
    · exact ih (alert_dispatch (alert_record h id pass)) hrest

theorem ended_drain {fuel : Nat} {c? : Option Contradiction} (h : sp.Alert)
    (hevents : sp.store.events = EventSink.empty) (hrun : sp.drain fuel = .ok (c?, sp')) :
    sp'.Ended c? := by
  induction fuel generalizing sp with
  | zero => cases hrun
  | succ fuel ih =>
    -- an end without contradiction is one with nothing waiting
    have hsettled : c? = none → sp'.Settled := by
      rintro rfl
      exact settled_drain h hevents hrun
    rcases drain_cases hrun with ⟨-, rfl, rfl⟩ | ⟨found?, next, hnext, hend⟩
    · exact ⟨hsettled rfl, rfl⟩
    obtain ⟨head, queue, p, hpop, -, hcase⟩ := runNext?_cases hnext rfl
    have hpopped := alert_popped h hpop
    rcases hend with ⟨c, rfl, rfl, rfl⟩ | ⟨rfl, hrest⟩
    · rcases hcase with ⟨-, hc, -⟩ | ⟨-, q, after, hdeliver, ⟨c', hc', rfl⟩ | ⟨hc, -⟩⟩
      · cases hc
      · exact ended_deliver hpopped hdeliver
      · cases hc
    · rcases hcase with ⟨-, -, rfl⟩ | ⟨-, q, after, hdeliver, ⟨c', hc', -⟩ | ⟨-, hpassivate⟩⟩
      · exact ih hpopped hevents hrest
      · cases hc'
      · obtain ⟨halert, hquiet⟩ := alert_deliver hpopped hevents hdeliver
        obtain ⟨halert', hquiet'⟩ := alert_passivateIfEntailed halert hquiet hpassivate
        exact ih halert' hquiet' hrest

theorem ended_propagate {c? : Option Contradiction} (h : sp.Alert)
    (hrun : sp.propagate = .ok (c?, sp')) : sp'.Ended c? := by
  have hphase : Alert { sp with phase := .propagating } := ⟨h.lines, h.waits⟩
  refine ended_drain (alert_dispatch hphase) ?_ hrun
  rw [store_dispatch]
  rfl

/-! ### Engines -/

/-- The spaces that there are between two requests to them; the store may be any. -/
inductive Engine : Space P → Prop where
  /-- In the beginning nothing is posted. -/
  | empty : Engine Space.empty
  /-- The store is not part of the engine. -/
  | store {sp : Space P} (h : Engine sp) (s : Store) : Engine { sp with store := s }
  /-- A propagator is posted. -/
  | post {sp sp' : Space P} (h : Engine sp) {p : P} {result : Except Contradiction PropagatorId}
      (hrun : sp.post p = .ok (result, sp')) : Engine sp'
  /-- Propagators are run. -/
  | propagate {sp sp' : Space P} (h : Engine sp) {c? : Option Contradiction}
      (hrun : sp.propagate = .ok (c?, sp')) : Engine sp'
  /-- The search has gone back. -/
  | backtrack {sp : Space P} (h : Engine sp) : Engine sp.notifyBacktrack

omit [Propagator P] in
theorem Ended.alert {c? : Option Contradiction} (h : sp.Ended c?) : sp.Alert := h.1.alert

theorem alert_post {p : P} {result : Except Contradiction PropagatorId} (h : sp.Alert)
    (hrun : sp.post p = .ok (result, sp')) : sp'.Alert := by
  obtain ⟨pass, -, hcase⟩ := post_cases hrun
  have hrecord := alert_record (alert_entered (f := p) h) ⟨sp.posted.nextKey⟩ pass
  rcases hcase with ⟨refusal, c, -, -, rfl⟩ | ⟨-, mid, c?, hmid, hpropagate, -⟩
  · exact (ended_fail hrecord c).alert
  · refine (ended_propagate ?_ hpropagate).alert
    rcases passivateIfEntailed_cases hmid with ⟨-, rfl⟩ | rfl
    · exact ⟨hrecord.lines, hrecord.waits⟩
    · exact hrecord

/-- Between two requests whoever has something pending waits. -/
theorem Engine.alert (h : Engine sp) : sp.Alert := by
  induction h with
  | empty => exact ⟨rfl, fun i p hp => by cases (Table.get?_empty i).symm.trans hp⟩
  | store h s ih => exact ⟨ih.lines, ih.waits⟩
  | post h hrun ih => exact alert_post ih hrun
  | propagate h hrun ih => exact (ended_propagate ih hrun).alert
  | backtrack h ih =>
    have hended := ended_fail ih .emptyDomain
    exact ⟨hended.alert.lines, hended.alert.waits⟩

/-- The watch is answered by one of the calls, unless its propagator has become passive. -/
def Answered (sp : Space P) (calls : List Call) (id : PropagatorId) (w : Watch) : Prop :=
  (∃ c ∈ calls, c.Answers id w) ∨ sp.store.isPassive id = true

omit [Propagator P] in
/-- A settled space owes nothing except to passive propagators. -/
theorem Settled.isPassive_of_owed (h : sp.Settled) (howed : sp.Owed id w) :
    sp.store.isPassive id = true := by
  rcases howed with hpassive | ⟨e, he, -⟩ | ⟨e, he, -⟩
  · exact hpassive
  · rw [told] at he
    cases hp : sp.posted.get? id.index with
    | none =>
      rw [hp] at he
      exact absurd he List.not_mem_nil
    | some p =>
      rw [hp] at he
      change _ ∈ p.pending at he
      rw [h.pending _ p hp] at he
      exact absurd he List.not_mem_nil
  · rw [h.events] at he
    exact absurd he List.not_mem_nil

/-- A propagation ends with nothing pending.  If it met no contradiction, every change since the
    sink was last drained has been answered by a call, and every change during a call by a later
    call, whenever the position of a propagator that is not passive had asked for it. -/
theorem called_of_propagate (hP : Narrowers P) (hengine : Engine sp) (hwf : sp.store.Wf)
    {c? : Option Contradiction} (hrun : sp.propagate = .ok (c?, sp')) :
    sp'.Ended c? ∧ (c? = none → ∀ id w, sp.Subscribes id w →
      (∀ (s : Store) (request : Narrowing), s.Wf → s.Asked (request.apply s).store w →
        (request.apply s).store.Undrained sp.store → sp'.Answered sp.propagateCalls id w)
      ∧ ∀ before c after, sp.propagateCalls = before ++ c :: after → c.Makes w →
        sp'.Answered after id w) := by
  have hended := ended_propagate hengine.alert hrun
  refine ⟨hended, ?_⟩
  rintro rfl id w hsub
  have hhands := hands_propagate hP hwf hrun
  refine ⟨fun s request hs hasked hundrained => ?_, fun before c after hsplit hmakes => ?_⟩
  · have hannounces := (Store.announces_apply hs hasked).undrained hundrained
      ((Store.steps_apply hs request).wf hs)
    exact (hhands.owed id w hsub (Or.inr (Or.inr hannounces))).imp_right
      hended.1.isPassive_of_owed
  · exact (hhands.made id w hsub before c after hsplit hmakes).imp_right
      hended.1.isPassive_of_owed

/-- The filters touch the store by narrowings only. -/
theorem narrowers_filter : Narrowers Filter := by
  intro f l e s pass hpass
  have hnarrowable : Narrowable s.Narrowings := fun request t h => .narrow request h
  exact (Filter.ofFilter_keeps (Filter.keeps_propagate hnarrowable f l) .refl hpass).2

/-- A variable that has to be at most its distance to 8. -/
def mirrored : Filter := .atMost (.plain ⟨0⟩) (.view (.plain ⟨0⟩) ⟨-1, 8, by decide⟩)

/-- The upper bound of the distance is watched through the lower bound of the variable, which is
    raised after posting. -/
theorem called_of_propagate_mirrored :
    ∃ (sp sp' : Space Filter) (w : Watch), Engine sp ∧ w ∈ mirrored.watches ∧ w.position = ⟨1⟩
      ∧ sp.propagate = .ok (none, sp') ∧ sp'.Answered sp.propagateCalls ⟨0⟩ w
      ∧ sp'.store.isPassive ⟨0⟩ = false := by
  let request : Narrowing := .tightenLower (.plain ⟨0⟩) 3
  let start : Space Filter := { Space.empty with store := Store.mixed }
  have hrun : ((start.post mirrored).bind fun r =>
      ({ r.2 with store := (request.apply r.2.store).store } : Space Filter).propagate.map fun out =>
        (out.1, out.2.store.isPassive ⟨0⟩, (r.2.store.int ⟨0⟩).lower,
          ((request.apply r.2.store).store.int ⟨0⟩).lower)).toOption
      = some (none, false, 1, 3) := by
    decide +kernel
  cases hpost : start.post mirrored with
  | error f => rw [hpost] at hrun; cases hrun
  | ok r =>
    obtain ⟨result, posted⟩ := r
    rw [hpost] at hrun
    simp only [Except.bind] at hrun
    cases hpropagate : ({ posted with store := (request.apply posted.store).store } :
        Space Filter).propagate with
    | error f => rw [hpropagate] at hrun; cases hrun
    | ok out =>
      obtain ⟨c?, sp'⟩ := out
      simp only [hpropagate, Except.map, Except.toOption, Option.some.injEq, Prod.mk.injEq] at hrun
      obtain ⟨rfl, hactive, hbefore, hafter⟩ := hrun
      have hleads := leads_post Store.mixed_reachable.traced.wf hpost
      have hwf := hleads.wf Store.mixed_reachable.traced.wf
      let w : Watch := (IntVar.view (.plain ⟨0⟩) ⟨-1, 8, by decide⟩).watch (.ofList [.upperBound]) ⟨1⟩
      have hw : w ∈ mirrored.watches := List.mem_cons_of_mem _ List.mem_cons_self
      have hentered : (start.entered mirrored).Subscribes ⟨0⟩ w := subscribes_entered hw
      have hsub : posted.Subscribes ⟨0⟩ w := hentered.of_eq hleads.watchList hleads.size_eq
      -- the image goes down as the variable goes up, so its upper bound has fallen
      have hasked : posted.store.Asked (request.apply posted.store).store w := by
        refine .int .upperBound rfl ?_
        show AffineMap.apply ⟨-1, 8, by decide⟩ ((request.apply posted.store).store.int ⟨0⟩).lower
          < AffineMap.apply ⟨-1, 8, by decide⟩ (posted.store.int ⟨0⟩).lower
        rw [hbefore, hafter]
        decide
      have hanswered := (called_of_propagate narrowers_filter
        ((Engine.post (.store .empty Store.mixed) hpost).store _)
        ((Store.steps_apply hwf request).wf hwf) hpropagate).2 rfl ⟨0⟩ w
          (hsub.of_eq rfl rfl)
      exact ⟨_, sp', w, (Engine.post (.store .empty Store.mixed) hpost).store _, hw, rfl,
        hpropagate, hanswered.1 posted.store request hwf hasked .refl, hactive⟩

end Space

end FiniteDomain
