import FiniteDomain.Proofs.Propagation.Pending
import FiniteDomain.Proofs.Propagation.Post
import FiniteDomain.Proofs.Store.Changes

/-! # Propagation terminates

    This is about propagators of any kind whose single calls come to an end and
    that touch the store by narrowings only (`Disciplined`).  A call that changes
    no domain raises no event, so nobody joins the queue; a change lowers the slack
    of the store, and between two changes nobody joins the queue twice.  So the
    length of the queue plus the slack of the store, counted once for every
    propagator, gets smaller with each propagator that is taken from the queue
    (`load`, `Progress.load_lt`).  The queue is empty before the steps that
    `stepBound` allows are used up (`drain_terminates`), whatever the state in
    which propagation begins. -/

namespace FiniteDomain

/-! ### Queues -/

namespace Queue

variable {q : Queue} {id : PropagatorId} {priority : Priority} {n : Nat}

/-- Who joins was not a member before; nobody joins twice, nor where there is no line. -/
theorem enqueue_cases (q : Queue) (id : PropagatorId) (priority : Priority) :
    q.enqueue id priority = q
      ∨ (id ∉ q.members ∧ (q.enqueue id priority).members.Perm (id :: q.members)) := by
  by_cases hlevel : priority.level < q.lines.size
  · exact (members_enqueue hlevel).imp_left And.right
  · left
    refine ext_roster (if_pos ?_)
    rw [decide_eq_true (Nat.le_of_not_lt hlevel), Bool.or_true]

/-- How many of the first propagators do not wait. -/
def absent (q : Queue) (n : Nat) : Nat :=
  ((Finset.range n).filter fun i => (⟨i⟩ : PropagatorId) ∉ q.members).card

theorem absent_le (q : Queue) (n : Nat) : q.absent n ≤ n := by
  have hle := Finset.card_filter_le (Finset.range n) fun i => (⟨i⟩ : PropagatorId) ∉ q.members
  rwa [Finset.card_range] at hle

/-- Who joins was absent before. -/
theorem length_add_absent_enqueue (h : id.index < n) :
    (q.enqueue id priority).length + (q.enqueue id priority).absent n ≤ q.length + q.absent n := by
  rcases enqueue_cases q id priority with hsame | ⟨hnew, hperm⟩
  · rw [hsame]
  · have hlt : (q.enqueue id priority).absent n < q.absent n := by
      refine Finset.card_lt_card ((Finset.ssubset_iff_of_subset fun i hi => ?_).mpr
        ⟨id.index, ?_, ?_⟩)
      · obtain ⟨hlt, hout⟩ := Finset.mem_filter.mp hi
        refine Finset.mem_filter.mpr ⟨hlt, fun hmem => hout ?_⟩
        exact hperm.mem_iff.mpr (List.mem_cons_of_mem _ hmem)
      · exact Finset.mem_filter.mpr ⟨Finset.mem_range.mpr h, hnew⟩
      · intro hin
        exact (Finset.mem_filter.mp hin).2 (hperm.mem_iff.mpr List.mem_cons_self)
    rw [length_eq, hperm.length_eq, List.length_cons, ← length_eq]
    omega

end Queue

/-! ### Propagators -/

/-- Single calls, on well-formed stores, end in none but the given faults, and they touch the store
    by narrowings only. -/
structure Disciplined (faults : Fault → Prop) (P : Type) [Propagator P] : Prop where
  /-- The first call ends. -/
  initial : ∀ (p : P) (s : Store), s.Wf → RaisesOnly faults (Propagator.initial p s)
  /-- Later calls end. -/
  propagate : ∀ (p : P) (l : LocalId) (e : Event) (s : Store), s.Wf →
    RaisesOnly faults (Propagator.propagate p l e s)
  /-- The question what is known about the contents that are left is answered. -/
  entailment : ∀ (p : P) (s : Store), s.Wf → RaisesOnly faults (Propagator.entailment p s)
  /-- The first call narrows. -/
  narrowsInitially : ∀ (p : P) (s : Store) (pass : Pass P),
    Propagator.initial p s = .ok pass → s.Narrowings pass.store
  /-- Later calls narrow. -/
  narrows : ∀ (p : P) (l : LocalId) (e : Event) (s : Store) (pass : Pass P),
    Propagator.propagate p l e s = .ok pass → s.Narrowings pass.store

namespace Space

variable {P : Type} {faults : Fault → Prop} {sp sp' : Space P} {id : PropagatorId}

/-- The store is well-formed, and whoever waits is posted, unless it may be a fault that somebody
    is not. -/
structure Runnable (faults : Fault → Prop) (sp : Space P) : Prop where
  /-- The store is well-formed. -/
  wf : sp.store.Wf
  /-- Whoever waits is posted. -/
  attended : faults .indexOutOfBounds ∨ ∀ id ∈ sp.queue.members, id.index < sp.posted.size

theorem Runnable.of_eq (h : sp.Runnable faults) (hwf : sp'.store.Wf) (hqueue : sp'.queue = sp.queue)
    (hsize : sp'.posted.size = sp.posted.size) : sp'.Runnable faults := by
  refine ⟨hwf, ?_⟩
  rw [hqueue, hsize]
  exact h.attended

theorem Runnable.popped {queue : Queue} (h : sp.Runnable faults)
    (hpop : sp.queue.pop? = some (id, queue)) : (sp.popped id queue).Runnable faults := by
  refine ⟨h.wf, h.attended.imp_right fun hall other hother => ?_⟩
  have hsize : (sp.popped id queue).posted.size = sp.posted.size := Table.size_modify ..
  rw [hsize]
  exact hall other ((Queue.members_pop? hpop).1.mem_iff.mpr (List.mem_cons_of_mem _ hother))

/-! ### The load -/

/-- What has to be done before propagation comes to rest: the queue gets longer only if a domain
    gets smaller, and then by no more than the number of propagators. -/
def load (sp : Space P) : Nat := sp.queue.length + sp.posted.size * sp.store.slack

/-- The length of the queue once everybody has joined it. -/
def weight (sp : Space P) : Nat := sp.queue.length + sp.queue.absent sp.posted.size

theorem weight_le (sp : Space P) : sp.weight ≤ sp.queue.length + sp.posted.size :=
  Nat.add_le_add_left (sp.queue.absent_le _) _

/-- Either nothing was changed and nobody has joined the queue, or a domain is smaller. -/
structure Progress (sp sp' : Space P) : Prop where
  /-- Nobody was posted. -/
  size : sp'.posted.size = sp.posted.size
  /-- Nobody has joined the queue twice. -/
  weight : sp'.weight ≤ sp.weight
  /-- Who has joined follows a change. -/
  paid : (sp'.queue = sp.queue ∧ sp'.store.slack = sp.store.slack)
    ∨ sp'.store.slack < sp.store.slack

namespace Progress

/-- Neither the queue nor a domain has changed. -/
theorem of_eq (hsize : sp'.posted.size = sp.posted.size) (hqueue : sp'.queue = sp.queue)
    (hslack : sp'.store.slack = sp.store.slack) : Progress sp sp' := by
  refine ⟨hsize, ?_, Or.inl ⟨hqueue, hslack⟩⟩
  unfold Space.weight
  rw [hqueue, hsize]

theorem refl (sp : Space P) : Progress sp sp := of_eq rfl rfl rfl

theorem trans {sp'' : Space P} (h₁ : Progress sp sp') (h₂ : Progress sp' sp'') :
    Progress sp sp'' := by
  refine ⟨h₂.size.trans h₁.size, Nat.le_trans h₂.weight h₁.weight, ?_⟩
  rcases h₁.paid with ⟨hqueue, hslack⟩ | hlt
  · rcases h₂.paid with ⟨hqueue', hslack'⟩ | hlt'
    · exact Or.inl ⟨hqueue'.trans hqueue, hslack'.trans hslack⟩
    · exact Or.inr (hslack ▸ hlt')
  · rcases h₂.paid with ⟨-, hslack'⟩ | hlt'
    · exact Or.inr (hslack' ▸ hlt)
    · exact Or.inr (hlt'.trans hlt)

/-- Once somebody has left the queue the load is smaller, whoever has joined since then. -/
theorem load_lt {queue : Queue} (hpop : sp.queue.pop? = some (id, queue))
    (h : Progress (sp.popped id queue) sp') : sp'.load < sp.load := by
  have hlength : queue.length < sp.queue.length := by
    rw [Queue.length_eq, Queue.length_eq, (Queue.members_pop? hpop).1.length_eq, List.length_cons]
    exact Nat.lt_succ_self _
  have hsize : (sp.popped id queue).posted.size = sp.posted.size := Table.size_modify ..
  unfold load
  rw [h.size, hsize]
  rcases h.paid with ⟨hqueue, hslack⟩ | hlt
  · rw [hqueue, hslack]
    exact Nat.add_lt_add_right hlength _
  · -- at worst all propagators have joined, which the slack that was lost pays for
    have hweight : sp'.queue.length ≤ queue.length + sp.posted.size :=
      calc sp'.queue.length ≤ sp'.weight := Nat.le_add_right _ _
        _ ≤ (sp.popped id queue).weight := h.weight
        _ ≤ queue.length + (sp.popped id queue).posted.size := weight_le _
        _ = queue.length + sp.posted.size := by rw [hsize]
    have hmul := Nat.mul_le_mul_left sp.posted.size (Nat.succ_le_of_lt hlt)
    rw [Nat.mul_succ] at hmul
    change sp.posted.size * sp'.store.slack + sp.posted.size
      ≤ sp.posted.size * sp.store.slack at hmul
    omega

end Progress

variable [Propagator P]

theorem weight_wake (sp : Space P) (e : Event) (position : ScopePosition) :
    (sp.wake e position).weight ≤ sp.weight := by
  have hsize := size_wake sp e position
  unfold weight
  rw [hsize]
  unfold wake
  simp only
  split
  · exact Nat.le_refl _
  next p hp =>
    split
    · exact Nat.le_refl _
    · exact Queue.length_add_absent_enqueue
        ((Table.get?_isSome_iff _ _).mp (Option.isSome_of_eq_some hp))

theorem weight_dispatch (sp : Space P) : sp.dispatch.weight ≤ sp.weight :=
  dispatch_induction (I := fun t => t.weight ≤ sp.weight) (Nat.le_refl _)
    fun t e position h => Nat.le_trans (weight_wake t e position) h

theorem Runnable.wake (h : sp.Runnable faults) (e : Event) (position : ScopePosition) :
    (sp.wake e position).Runnable faults := by
  refine ⟨store_wake sp e position ▸ h.wf, h.attended.imp_right fun hall other hother => ?_⟩
  rw [size_wake]
  unfold Space.wake at hother
  simp only at hother
  split at hother
  · exact hall other hother
  next p hp =>
    split at hother
    · exact hall other hother
    · change other ∈ (sp.queue.enqueue position.propagator _).members at hother
      have hcases := Queue.enqueue_cases sp.queue position.propagator
        (Propagator.priority p.propagator)
      rcases hcases with hsame | ⟨-, hperm⟩
      · rw [hsame] at hother
        exact hall other hother
      · rcases List.mem_cons.mp (hperm.mem_iff.mp hother) with rfl | hother
        · exact (Table.get?_isSome_iff _ _).mp (Option.isSome_of_eq_some hp)
        · exact hall other hother

theorem Runnable.dispatch (h : sp.Runnable faults) : sp.dispatch.Runnable faults :=
  dispatch_induction ⟨h.wf.dropEvents, h.attended⟩ fun _ e position h => h.wake e position

/-- A run that succeeds, and the dispatch after it. -/
theorem progress_record {pass : Pass P} (hwf : sp.store.Wf)
    (hevents : sp.store.events = EventSink.empty) (hsteps : sp.store.Steps pass.store) :
    Progress sp (sp.record id pass).dispatch := by
  have hsize : (sp.record id pass).posted.size = sp.posted.size := Table.size_modify ..
  have hslack : (sp.record id pass).dispatch.store.slack = pass.store.slack := by
    rw [store_dispatch]
    rfl
  refine ⟨(size_dispatch _).trans hsize, Nat.le_trans (weight_dispatch _) ?_, ?_⟩
  · unfold weight
    rw [hsize]
    exact Nat.le_refl _
  · rcases hsteps.eq_or_slack_lt hwf with hsame | hlt
    · refine Or.inl ⟨?_, by rw [hslack, hsame]⟩
      have hquiet : (sp.record id pass).store.events = EventSink.empty := by
        show pass.store.events = _
        rw [hsame, hevents]
      unfold Space.dispatch
      rw [hquiet]
      rfl
    · exact Or.inr (hslack ▸ hlt)

/-! ### Runs of propagators -/

theorem Runnable.record {pass : Pass P} (h : sp.Runnable faults)
    (hsteps : sp.store.Steps pass.store) : (sp.record id pass).dispatch.Runnable faults := by
  refine Runnable.dispatch (h.of_eq ?_ rfl (Table.size_modify ..))
  exact hsteps.wf h.wf

/-- Delivering events comes to an end. -/
theorem deliver_raises (hP : Disciplined faults P) {p : P} {pending : List (LocalId × Event)}
    (h : sp.Runnable faults) : RaisesOnly faults (deliver id p pending sp) := by
  induction pending generalizing sp p with
  | nil => exact .ok _
  | cons entry rest ih =>
    obtain ⟨l, e⟩ := entry
    refine RaisesOnly.bind (hP.propagate p l e sp.store h.wf) fun pass hpass => ?_
    have hsteps := (hP.narrows p l e sp.store pass hpass).steps h.wf
    cases hrefusal : pass.refusal? with
    | some refusal => exact .ok _
    | none => exact ih (h.record hsteps)

/-- Whoever joins the queue while events are delivered follows a change. -/
theorem deliver_progress (hP : Disciplined faults P) {p q : P} {pending : List (LocalId × Event)}
    (h : sp.Runnable faults) (hevents : sp.store.events = EventSink.empty)
    (hrun : deliver id p pending sp = .ok (none, q, sp')) :
    sp'.Runnable faults ∧ sp'.store.events = EventSink.empty ∧ Progress sp sp' := by
  induction pending generalizing sp p with
  | nil =>
    cases hrun
    exact ⟨h, hevents, .refl _⟩
  | cons entry rest ih =>
    obtain ⟨pass, hpass, ⟨refusal, -, hc, -⟩ | ⟨-, hrest⟩⟩ := deliver_cons_cases hrun
    · cases hc
    · have hsteps := (hP.narrows p _ _ sp.store pass hpass).steps h.wf
      obtain ⟨hafter, hquiet, hprogress⟩ := ih (h.record hsteps) (events_dispatch _) hrest
      exact ⟨hafter, hquiet, (progress_record h.wf hevents hsteps).trans hprogress⟩

theorem passivateIfEntailed_raises (hP : Disciplined faults P) {p : P} (hwf : sp.store.Wf) :
    RaisesOnly faults (sp.passivateIfEntailed id p) := by
  refine RaisesOnly.bind (hP.entailment p sp.store hwf) fun verdict _ => ?_
  cases verdict <;> exact .ok _

theorem passivateIfEntailed_progress {p : P} (h : sp.Runnable faults)
    (hrun : sp.passivateIfEntailed id p = .ok sp') :
    sp'.Runnable faults ∧ sp'.store.events = sp.store.events ∧ Progress sp sp' := by
  rcases passivateIfEntailed_cases hrun with ⟨-, rfl⟩ | rfl
  · have hsame := Store.sameDomains_passivate sp.store id
    exact ⟨h.of_eq (hsame.wf h.wf) rfl rfl, Store.events_passivate _ _, .of_eq rfl rfl hsame.slack⟩
  · exact ⟨h, rfl, .refl _⟩

/-- Running the head of the queue comes to an end. -/
theorem runNext?_raises (hP : Disciplined faults P) (h : sp.Runnable faults)
    (hevents : sp.store.events = EventSink.empty)
    {result : Except Fault (Option Contradiction × Space P)} (hrun : sp.runNext? = some result) :
    RaisesOnly faults result := by
  unfold runNext? at hrun
  split at hrun
  · cases hrun
  next id queue hpop =>
    simp only at hrun
    split at hrun
    next hmissing =>
      obtain rfl := Option.some.inj hrun
      refine .error (h.attended.resolve_right fun hall => ?_)
      -- who waits has been posted, unless faults for what is missing are tolerated
      have hmem : id ∈ sp.queue.members :=
        (Queue.members_pop? hpop).1.mem_iff.mpr List.mem_cons_self
      have hsome := (Table.get?_isSome_iff sp.posted id.index).mpr (hall id hmem)
      rw [hmissing] at hsome
      cases hsome
    next p hp =>
      have hpopped := h.popped hpop
      split at hrun
      · obtain rfl := Option.some.inj hrun
        exact .ok _
      · obtain rfl := Option.some.inj hrun
        refine RaisesOnly.bind (deliver_raises hP hpopped) fun out hdeliver => ?_
        obtain ⟨c?, q, after⟩ := out
        cases c? with
        | some c => exact .ok _
        | none =>
          obtain ⟨hafter, -, -⟩ := deliver_progress hP hpopped hevents hdeliver
          exact (passivateIfEntailed_raises hP hafter.wf).bind fun _ _ => .ok _

/-- Each run of a propagator that meets no contradiction lowers the load. -/
theorem runNext?_progress (hP : Disciplined faults P) (h : sp.Runnable faults)
    (hevents : sp.store.events = EventSink.empty) (hrun : sp.runNext? = some (.ok (none, sp'))) :
    sp'.Runnable faults ∧ sp'.store.events = EventSink.empty ∧ sp'.load < sp.load := by
  obtain ⟨id, queue, p, hpop, hp, hcase⟩ := runNext?_cases hrun rfl
  have hpopped := h.popped hpop
  rcases hcase with ⟨-, -, rfl⟩ | ⟨-, q, after, hdeliver, hend⟩
  · exact ⟨hpopped, hevents, Progress.load_lt hpop (.refl _)⟩
  · rcases hend with ⟨c, hc, -⟩ | ⟨-, hpassivate⟩
    · cases hc
    · obtain ⟨hafter, hquiet, hprogress⟩ := deliver_progress hP hpopped hevents hdeliver
      obtain ⟨hlast, hsame, hprogress'⟩ := passivateIfEntailed_progress hafter hpassivate
      exact ⟨hlast, hsame.trans hquiet, (hprogress.trans hprogress').load_lt hpop⟩

/-! ### The loop -/

/-- More steps than the load are enough, and further ones make no difference. -/
theorem drain_terminates (hP : Disciplined faults P) {fuel : Nat} (h : sp.Runnable faults)
    (hevents : sp.store.events = EventSink.empty) (hfuel : sp.load < fuel) :
    RaisesOnly faults (sp.drain fuel) ∧ ∀ more, sp.drain (fuel + more) = sp.drain fuel := by
  -- on the steps that are allowed; each run of a propagator lowers the load
  induction fuel generalizing sp with
  | zero => exact absurd hfuel (Nat.not_lt_zero _)
  | succ fuel ih =>
    have hmore : ∀ more, fuel + 1 + more = fuel + more + 1 := fun more => by omega
    simp only [hmore, drain]
    cases hnext : sp.runNext? with
    | none => exact ⟨.ok _, fun _ => rfl⟩
    | some result =>
      have hraises := runNext?_raises hP h hevents hnext
      cases result with
      | error f => exact ⟨.error (hraises f rfl), fun _ => rfl⟩
      | ok out =>
        obtain ⟨c?, next⟩ := out
        cases c? with
        | some c => exact ⟨.ok _, fun _ => rfl⟩
        | none =>
          obtain ⟨hrunnable, hquiet, hlt⟩ := runNext?_progress hP h hevents hnext
          exact ih hrunnable hquiet (Nat.lt_of_lt_of_le hlt (Nat.le_of_lt_succ hfuel))

/-- What is allowed for is more than the load. -/
theorem load_dispatch_lt (sp : Space P) : sp.dispatch.load < sp.stepBound := by
  have hslack : sp.dispatch.store.slack = sp.store.slack := by
    rw [store_dispatch]
    exact (Store.sameDomains_dropEvents _).slack
  have hlength : sp.dispatch.queue.length ≤ sp.queue.length + sp.posted.size :=
    calc sp.dispatch.queue.length ≤ sp.dispatch.weight := Nat.le_add_right _ _
      _ ≤ sp.weight := sp.weight_dispatch
      _ ≤ sp.queue.length + sp.posted.size := sp.weight_le
  unfold load stepBound
  rw [hslack, size_dispatch]
  calc _ ≤ sp.queue.length + sp.posted.size + sp.posted.size * sp.store.slack :=
        Nat.add_le_add_right hlength _
    _ = sp.queue.length + (sp.store.slack + 1) * sp.posted.size := by
        rw [Nat.succ_mul, Nat.mul_comm, Nat.add_assoc, Nat.add_comm sp.posted.size]
    _ ≤ sp.queue.length + (sp.store.events.raised.size + sp.store.slack + 1) * sp.posted.size :=
        Nat.add_le_add_left (Nat.mul_le_mul_right _ (by omega)) _
    _ < _ := Nat.lt_succ_self _

theorem propagate_terminates (hP : Disciplined faults P) (h : sp.Runnable faults) :
    RaisesOnly faults sp.propagate ∧ ∀ more,
      ({ sp with phase := .propagating } : Space P).dispatch.drain (sp.stepBound + more)
        = sp.propagate := by
  have hbegin : ({ sp with phase := .propagating } : Space P).Runnable faults := ⟨h.wf, h.attended⟩
  exact drain_terminates hP hbegin.dispatch (events_dispatch _) (load_dispatch_lt _)

theorem post_raises (hP : Disciplined faults P) (h : sp.Runnable faults) (p : P) :
    RaisesOnly faults (sp.post p) := by
  rw [post_eq]
  refine (hP.initial p sp.store h.wf).bind fun pass hpass => ?_
  have hsteps := (hP.narrowsInitially p sp.store pass hpass).steps h.wf
  simp only
  cases pass.refusal? with
  | some refusal => exact .ok _
  | none =>
    have hrecord : ((sp.entered p).record ⟨sp.posted.nextKey⟩ pass).Runnable faults := by
      refine ⟨hsteps.wf h.wf, h.attended.imp_right fun hall other hother => ?_⟩
      have hsize : ((sp.entered p).record ⟨sp.posted.nextKey⟩ pass).posted.size
          = sp.posted.size + 1 :=
        (Table.size_modify ..).trans (Table.size_push ..)
      rw [hsize]
      exact Nat.lt_succ_of_lt (hall other hother)
    refine (passivateIfEntailed_raises hP hrecord.wf).bind fun mid hmid => ?_
    obtain ⟨hmid', -, -⟩ := passivateIfEntailed_progress hrecord hmid
    refine (propagate_terminates hP hmid').1.bind fun out _ => ?_
    cases out.1 <;> exact .ok _

theorem settle_raises (hP : Disciplined faults P) {requests : List Narrowing}
    (hrequests : ∀ request ∈ requests, ∀ s, RaisesOnly faults (Narrowing.check s request))
    (h : sp.Runnable faults) : RaisesOnly faults (sp.settle requests) := by
  induction requests generalizing sp with
  | nil => exact (propagate_terminates hP h).1
  | cons request rest ih =>
    obtain ⟨hrequest, hrest⟩ := List.forall_mem_cons.mp hrequests
    refine RaisesOnly.bind ((hrequest sp.store).bind fun _ _ => .ok _) fun narrowed hrun => ?_
    have hstore : narrowed = request.apply sp.store := by
      simp only [Narrowing.run, bind, Except.bind, pure, Except.pure] at hrun
      split at hrun
      · cases hrun
      · exact (Except.ok.inj hrun).symm
    subst hstore
    simp only
    split
    · exact .ok _
    · exact ih hrest ⟨(Store.steps_apply h.wf request).wf h.wf, h.attended⟩

end Space

end FiniteDomain
