import FiniteDomain.Proofs.Propagation.Space

/-! # What propagation depends on

    What a space has counted and noted so far does not influence how propagation
    goes on.  Two spaces that agree on the store, the propagators with their
    pending events, the subscriptions and the queue (`Space.Alike`) stay alike.

    A space that had come to rest can be left and come back to
    (`backtrackTo_leads`). -/

namespace FiniteDomain.Space

/-- The two spaces differ in counters and notes only. -/
structure Alike (sp sp' : Space Filter) : Prop where
  store : sp'.store = sp.store
  posted : sp'.posted = sp.posted
  watchList : sp'.watchList = sp.watchList
  queue : sp'.queue = sp.queue

namespace Alike

variable {sp sp' t : Space Filter}

theorem refl (sp : Space Filter) : Alike sp sp := ⟨rfl, rfl, rfl, rfl⟩

theorem symm (h : Alike sp sp') : Alike sp' sp :=
  ⟨h.store.symm, h.posted.symm, h.watchList.symm, h.queue.symm⟩

theorem trans (h₁ : Alike sp sp') (h₂ : Alike sp' t) : Alike sp t :=
  ⟨h₂.store.trans h₁.store, h₂.posted.trans h₁.posted, h₂.watchList.trans h₁.watchList,
    h₂.queue.trans h₁.queue⟩

theorem wake (h : Alike sp sp') (e : Event) (position : ScopePosition) :
    Alike (sp.wake e position) (sp'.wake e position) := by
  unfold Space.wake
  simp only [h.posted, h.store, h.queue]
  split
  · exact h
  · split
    · exact h
    · exact ⟨rfl, rfl, h.watchList, rfl⟩

theorem dropEvents (h : Alike sp sp') : Alike sp.dropEvents sp'.dropEvents :=
  ⟨congrArg Store.dropEvents h.store, h.posted, h.watchList, h.queue⟩

theorem dispatch (h : Alike sp sp') : Alike sp.dispatch sp'.dispatch := by
  unfold Space.dispatch
  rw [h.store]
  refine List.foldl_rel (r := Alike) h.dropEvents fun ev _ t t' ht => ?_
  obtain ⟨e, v⟩ := ev
  simp only [ht.watchList]
  exact List.foldl_rel (r := Alike) ht fun position _ t t' ht => ht.wake e position

theorem fail (h : Alike sp sp') : Alike sp.fail sp'.fail := by
  refine ⟨congrArg Store.dropEvents h.store, ?_, h.watchList, ?_⟩
  · simp only [Space.fail, Space.dropEvents, clearPending, h.posted]
  · simp only [Space.fail, Space.dropEvents, clearPending, h.queue]

theorem record (h : Alike sp sp') (id : PropagatorId) (pass : Pass Filter) :
    Alike (sp.record id pass) (sp'.record id pass) := by
  refine ⟨rfl, ?_, h.watchList, h.queue⟩
  simp only [Space.record, h.posted]

theorem deliver (h : Alike sp sp') {id : PropagatorId} {f q : Filter}
    {pending : List (LocalId × Event)} {c? : Option Contradiction}
    (hrun : Space.deliver id f pending sp = .ok (c?, q, t)) :
    ∃ t', Space.deliver id f pending sp' = .ok (c?, q, t') ∧ Alike t t' := by
  induction pending generalizing sp sp' f with
  | nil =>
    simp only [Space.deliver, pure, Except.pure, Except.ok.injEq, Prod.mk.injEq] at hrun
    obtain ⟨rfl, rfl, rfl⟩ := hrun
    exact ⟨sp', rfl, h⟩
  | cons entry rest ih =>
    obtain ⟨position, e⟩ := entry
    simp only [Space.deliver, bind, Except.bind] at hrun ⊢
    rw [h.store]
    split at hrun
    · cases hrun
    next pass hpass =>
      have hrecord := h.record id pass
      -- an event that is refused ends the delivery, whatever is pending still
      cases hrefusal : pass.refusal? with
      | some refusal =>
        rw [hrefusal] at hrun
        simp only [pure, Except.pure, Except.ok.injEq, Prod.mk.injEq] at hrun
        obtain ⟨rfl, rfl, rfl⟩ := hrun
        exact ⟨_, rfl, hrecord.fail⟩
      | none =>
        rw [hrefusal] at hrun
        exact ih hrecord.dispatch hrun

theorem passivateIfEntailed (h : Alike sp sp') {id : PropagatorId} {f : Filter}
    (hrun : sp.passivateIfEntailed id f = .ok t) :
    ∃ t', sp'.passivateIfEntailed id f = .ok t' ∧ Alike t t' := by
  simp only [Space.passivateIfEntailed, bind, Except.bind] at hrun ⊢
  rw [h.store]
  split at hrun
  · cases hrun
  next verdict hverdict =>
    cases verdict with
    | holds =>
      cases hrun
      exact ⟨_, rfl, ⟨rfl, h.posted, h.watchList, h.queue⟩⟩
    | fails =>
      cases hrun
      exact ⟨_, rfl, h⟩
    | undecided =>
      cases hrun
      exact ⟨_, rfl, h⟩

theorem popped (h : Alike sp sp') (id : PropagatorId) (queue : Queue) :
    Alike (sp.popped id queue) (sp'.popped id queue) := by
  refine ⟨h.store, ?_, h.watchList, rfl⟩
  simp only [Space.popped, h.posted]

theorem runNext? (h : Alike sp sp') {c? : Option Contradiction}
    (hrun : sp.runNext? = some (.ok (c?, t))) :
    ∃ t', sp'.runNext? = some (.ok (c?, t')) ∧ Alike t t' := by
  obtain ⟨id, queue, p, hpop, hp, hcase⟩ := runNext?_cases hrun rfl
  have hpopped := h.popped id queue
  unfold Space.runNext?
  simp only [h.queue, hpop, h.posted, hp, h.store]
  rcases hcase with ⟨hpassive, rfl, rfl⟩ | ⟨hactive, q, after, hdeliver, hend⟩
  · rw [if_pos hpassive]
    exact ⟨_, rfl, ⟨rfl, rfl, h.watchList, rfl⟩⟩
  · obtain ⟨after', hdeliver', halike⟩ := hpopped.deliver hdeliver
    simp only [Space.popped, h.posted, h.store] at hdeliver'
    rw [if_neg (by simp [hactive])]
    simp only [bind, Except.bind, hdeliver']
    rcases hend with ⟨c, rfl, rfl⟩ | ⟨rfl, hpassivate⟩
    · exact ⟨after', rfl, halike⟩
    · obtain ⟨t', ht', halike'⟩ := halike.passivateIfEntailed hpassivate
      simp only [ht', pure, Except.pure]
      exact ⟨t', rfl, halike'⟩

theorem runNext?_eq_none (h : Alike sp sp') (hrun : sp.runNext? = none) :
    sp'.runNext? = none := by
  unfold Space.runNext? at hrun ⊢
  rw [h.queue]
  cases hpop : sp.queue.pop? with
  | none => rfl
  | some r =>
    rw [hpop] at hrun
    simp only at hrun
    split at hrun
    · cases hrun
    · split at hrun <;> cases hrun

theorem drain {fuel : Nat} (h : Alike sp sp') {c? : Option Contradiction}
    (hrun : sp.drain fuel = .ok (c?, t)) : ∃ t', sp'.drain fuel = .ok (c?, t') ∧ Alike t t' := by
  induction fuel generalizing sp sp' with
  | zero => cases hrun
  | succ fuel ih =>
    unfold Space.drain at hrun ⊢
    cases hnext : sp.runNext? with
    | none =>
      rw [hnext] at hrun
      rw [h.runNext?_eq_none hnext]
      cases hrun
      exact ⟨_, rfl, ⟨h.store, h.posted, h.watchList, h.queue⟩⟩
    | some result =>
      rw [hnext] at hrun
      cases result with
      | error f => cases hrun
      | ok out =>
        obtain ⟨found?, next⟩ := out
        obtain ⟨next', hnext', halike⟩ := h.runNext? hnext
        rw [hnext']
        simp only [bind, Except.bind] at hrun ⊢
        cases found? with
        | some c =>
          cases hrun
          exact ⟨_, rfl, halike⟩
        | none => exact ih halike hrun

theorem propagate (h : Alike sp sp') {c? : Option Contradiction}
    (hrun : sp.propagate = .ok (c?, t)) : ∃ t', sp'.propagate = .ok (c?, t') ∧ Alike t t' := by
  have hphase : Alike { sp with phase := .propagating } { sp' with phase := .propagating } :=
    ⟨h.store, h.posted, h.watchList, h.queue⟩
  have hbound : stepBound { sp' with phase := .propagating }
      = stepBound { sp with phase := .propagating } := by
    simp only [stepBound, h.store, h.posted, h.queue]
  unfold Space.propagate at hrun ⊢
  simp only [hbound]
  exact hphase.dispatch.drain hrun

/-- Alike spaces react alike to requests. -/
theorem settle {requests : List Narrowing} (h : Alike sp sp') {c? : Option Contradiction}
    (hrun : sp.settle requests = .ok (c?, t)) :
    ∃ t', sp'.settle requests = .ok (c?, t') ∧ Alike t t' := by
  induction requests generalizing sp sp' with
  | nil => exact h.propagate hrun
  | cons request rest ih =>
    simp only [Space.settle, bind, Except.bind] at hrun ⊢
    rw [h.store]
    split at hrun
    · cases hrun
    next n hn =>
      cases hc : n.changed? with
      | none =>
        rw [hc] at hrun
        cases hrun
        exact ⟨_, rfl, ⟨rfl, h.posted, h.watchList, h.queue⟩⟩
      | some changed =>
        rw [hc] at hrun
        have hnarrowed : Alike { sp with store := n.store } { sp' with store := n.store } :=
          ⟨rfl, h.posted, h.watchList, h.queue⟩
        exact ih hnarrowed hrun

end Alike

/-! ### Leaving and coming back -/

/-- Alike spaces go back alike. -/
theorem Alike.backtrackTo {sp sp' t : Space Filter} {c : Checkpoint} (h : Alike sp sp')
    (hrun : sp.backtrackTo c = .ok t) : ∃ t', sp'.backtrackTo c = .ok t' ∧ Alike t t' := by
  simp only [Space.backtrackTo, bind, Except.bind] at hrun ⊢
  rw [h.store]
  split at hrun
  · cases hrun
  next store hundo =>
    cases hrun
    refine ⟨_, rfl, rfl, ?_, h.watchList, ?_⟩
    · simp only [notifyBacktrack, clearPending, h.posted]
    · simp only [notifyBacktrack, clearPending, h.queue]

variable {base sp t : Space Filter}

theorem Alike.leads (h : Alike sp t) : Leads sp t where
  store := .of_dropEvents_eq (congrArg Store.dropEvents h.store.symm)
  filterAt := fun i => by rw [filterAt?, filterAt?, h.posted]
  watchList := h.watchList
  lines := by rw [h.queue]

theorem Settled.alike (h : sp.Settled) (halike : Alike sp t) : t.Settled where
  events := by rw [halike.store, h.events]
  queue := halike.queue.trans h.queue
  pending := by
    rw [halike.posted]
    exact h.pending

/-- Nothing happens in a space that has come to rest. -/
theorem propagate_settled (h : sp.Settled) :
    sp.propagate = .ok (none, { sp with phase := .idle }) := by
  have hstore : sp.store.dropEvents = sp.store := Store.dropEvents_of_empty h.events
  have hdispatch : dispatch { sp with phase := .propagating } = { sp with phase := .propagating } := by
    simp only [dispatch, dropEvents, hstore, h.events]
    rfl
  have hrest : runNext? { sp with phase := .propagating } = none := by
    simp only [runNext?, h.queue, Queue.empty, Queue.pop?_withLevels]
  simp only [propagate, hdispatch, stepBound, drain, hrest]
  rfl

/-- Going back to the checkpoint of a space that had come to rest restores it. -/
theorem backtrackTo_leads (hbase : base.Settled) (hwf : base.store.Wf) (h : base.Leads t) :
    ∃ t', t.backtrackTo base.store.checkpoint = .ok t' ∧ Alike base t' := by
  have hundo := h.store.undoTo_checkpoint hwf
  rw [Store.dropEvents_of_empty hbase.events] at hundo
  refine ⟨notifyBacktrack { t with store := base.store },
    by simp only [backtrackTo, hundo, bind, Except.bind, pure, Except.pure], rfl, ?_,
    h.watchList, ?_⟩
  · -- the propagators are those of the base, and nothing is pending there
    simp only [notifyBacktrack, clearPending, Table.map]
    have hrows : t.posted.rows.map ({ · with pending := [] }) = base.posted.rows := by
      apply Array.ext_getElem?
      intro i
      have hsame : ((t.posted.get? i).map Posted.propagator)
          = (base.posted.get? i).map Posted.propagator := h.filterAt i
      rw [Array.getElem?_map]
      change (t.posted.get? i).map _ = base.posted.get? i
      -- a propagator of the base is still there, now with nothing pending
      cases ht : t.posted.get? i with
      | none =>
        rw [ht] at hsame
        exact (Option.map_eq_none_iff.mp hsame.symm).symm
      | some p =>
        rw [ht] at hsame
        obtain ⟨q, hq, hpq⟩ := Option.map_eq_some_iff.mp hsame.symm
        rw [hq, Option.map_some, Option.some.injEq]
        have hpending := hbase.pending i q hq
        obtain ⟨f, pending⟩ := q
        simp only at hpq hpending
        rw [← hpq, hpending]
    rw [hrows]
  · simp only [notifyBacktrack, clearPending, Queue.clear_eq, h.lines, hbase.queue]
    rfl

end FiniteDomain.Space
