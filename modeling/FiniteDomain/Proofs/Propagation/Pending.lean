import FiniteDomain.Proofs.Propagation.Post
import Mathlib.Data.List.Nodup

/-! # Who is told of what

    `told` lists what a propagator has not been run for.  Dispatching adds to it
    exactly the waiting events that somebody active has subscribed to
    (`tells_dispatch`).  Who is told waits in the queue, once, so the queue is
    never longer than the list of propagators (`Orderly.length_le`). -/

namespace FiniteDomain.Space

variable {P : Type} {sp sp' : Space P} {f : P} {i : Nat}

/-! ### Pending events -/

/-- What the propagator with a number has not been run for. -/
def told (sp : Space P) (i : Nat) : List (LocalId × Event) :=
  ((sp.posted.get? i).map Posted.pending).getD []

/-- The propagator with the number is posted and not passive. -/
def ActiveAt (sp : Space P) (i : Nat) (f : P) : Prop :=
  sp.filterAt? i = some f ∧ sp.store.isPassive ⟨i⟩ = false

theorem told_eq {p : Posted P} (h : sp.posted.get? i = some p) : sp.told i = p.pending := by
  rw [told, h]
  rfl

theorem filterAt?_eq {p : Posted P} (h : sp.posted.get? i = some p) :
    sp.filterAt? i = some p.propagator := by
  rw [filterAt?, h]
  rfl

theorem exists_posted (h : sp.filterAt? i = some f) :
    ∃ p, sp.posted.get? i = some p ∧ p.propagator = f :=
  Option.map_eq_some_iff.mp h

theorem told_modify (sp : Space P) {change : Posted P → Posted P} {key : Nat} {sp' : Space P}
    (h : sp'.posted = sp.posted.modify key change) :
    sp'.told i = if key = i then ((sp.posted.get? i).map fun p => (change p).pending).getD []
      else sp.told i := by
  rw [told, h, Table.get?_modify]
  split
  next heq =>
    subst heq
    cases sp.posted.get? key <;> rfl
  next => rfl

/-- The second space comes from the first by telling positions of events. -/
structure Tells (sp sp' : Space P) (heard : ScopePosition → Event → Prop) : Prop where
  /-- The store is the same. -/
  store : sp'.store = sp.store
  /-- The subscriptions are the same. -/
  watchList : sp'.watchList = sp.watchList
  /-- The propagators are the same. -/
  filterAt : ∀ i, sp'.filterAt? i = sp.filterAt? i
  /-- Who is active gets what is heard at its positions. -/
  told : ∀ i entry, entry ∈ sp'.told i ↔
    entry ∈ sp.told i ∨ ((∃ f, sp.ActiveAt i f) ∧ heard ⟨⟨i⟩, entry.1⟩ entry.2)

namespace Tells

variable {heard heard' : ScopePosition → Event → Prop}

theorem refl (sp : Space P) : Tells sp sp fun _ _ => False :=
  ⟨rfl, rfl, fun _ => rfl, fun _ _ => ⟨Or.inl, fun h => h.elim id fun h => h.2.elim⟩⟩

theorem activeAt (h : Tells sp sp' heard) : sp'.ActiveAt i f ↔ sp.ActiveAt i f := by
  unfold ActiveAt
  rw [h.filterAt, h.store]

theorem trans {sp'' : Space P} (h₁ : Tells sp sp' heard) (h₂ : Tells sp' sp'' heard') :
    Tells sp sp'' fun p e => heard p e ∨ heard' p e := by
  refine ⟨h₂.store.trans h₁.store, h₂.watchList.trans h₁.watchList,
    fun i => (h₂.filterAt i).trans (h₁.filterAt i), fun i entry => ?_⟩
  rw [h₂.told, h₁.told]
  simp only [h₁.activeAt]
  constructor
  · rintro ((h | ⟨hactive, h⟩) | ⟨hactive, h⟩)
    · exact Or.inl h
    · exact Or.inr ⟨hactive, Or.inl h⟩
    · exact Or.inr ⟨hactive, Or.inr h⟩
  · rintro (h | ⟨hactive, h | h⟩)
    · exact Or.inl (Or.inl h)
    · exact Or.inl (Or.inr ⟨hactive, h⟩)
    · exact Or.inr ⟨hactive, h⟩

theorem congr (h : Tells sp sp' heard) (hiff : ∀ p e, heard' p e ↔ heard p e) :
    Tells sp sp' heard' := by
  refine ⟨h.store, h.watchList, h.filterAt, fun i entry => ?_⟩
  rw [h.told, hiff]

end Tells

/-- An event that is pending already is not added again. -/
theorem mem_pending_added (p : Posted P) (added entry : LocalId × Event) :
    entry ∈ (if p.pending.contains added = true then p
        else { p with pending := p.pending ++ [added] }).pending
      ↔ entry ∈ p.pending ∨ entry = added := by
  split
  next hin =>
    refine ⟨Or.inl, ?_⟩
    rintro (h | rfl)
    · exact h
    · exact List.contains_iff_mem.mp hin
  next => rw [List.mem_append, List.mem_singleton]

variable [Propagator P]

/-- Nobody is told anything by a propagator's being entered. -/
theorem told_entered (sp : Space P) (f : P) (i : Nat) : (sp.entered f).told i = sp.told i := by
  unfold told entered
  rw [Table.get?_push]
  by_cases heq : i = sp.posted.size
  · subst heq
    have hnone : sp.posted.get? sp.posted.size = none := by
      rw [← Option.not_isSome_iff_eq_none, Table.get?_isSome_iff]
      exact Nat.lt_irrefl _
    rw [if_pos rfl, hnone]
    rfl
  · rw [if_neg heq]

theorem tells_wake (sp : Space P) (e : Event) (position : ScopePosition) :
    Tells sp (sp.wake e position) fun p e' => p = position ∧ e' = e := by
  have hstore := store_wake sp e position
  have hleads := leads_wake sp e position
  refine ⟨hstore, hleads.watchList, hleads.filterAt, fun i entry => ?_⟩
  obtain ⟨⟨k⟩, l⟩ := position
  unfold wake
  simp only
  split
  next hnone =>
    -- nobody is there
    refine ⟨Or.inl, ?_⟩
    rintro (h | ⟨⟨f, hf, -⟩, hposition, -⟩)
    · exact h
    · obtain rfl : i = k := congrArg (fun p : ScopePosition => p.propagator.index) hposition
      rw [filterAt?, hnone] at hf
      cases hf
  next p hp =>
    split
    next hpassive =>
      -- a passive filter is not told
      refine ⟨Or.inl, ?_⟩
      rintro (h | ⟨⟨f, -, hactive⟩, hposition, -⟩)
      · exact h
      · obtain rfl : i = k := congrArg (fun p : ScopePosition => p.propagator.index) hposition
        rw [hpassive] at hactive
        cases hactive
    next hactive =>
      rw [told_modify sp rfl]
      by_cases hk : k = i
      · subst hk
        rw [if_pos rfl, hp, told_eq hp]
        simp only [Option.map_some, Option.getD_some]
        rw [mem_pending_added]
        refine or_congr_right ⟨?_, ?_⟩
        · rintro rfl
          exact ⟨⟨_, filterAt?_eq hp, Bool.eq_false_iff.mpr hactive⟩, rfl, rfl⟩
        · rintro ⟨-, hposition, he⟩
          exact Prod.ext (congrArg ScopePosition.localId hposition) he
      · rw [if_neg hk]
        refine ⟨Or.inl, ?_⟩
        rintro (h | ⟨-, hposition, -⟩)
        · exact h
        · exact absurd (congrArg (fun p : ScopePosition => p.propagator.index) hposition).symm hk

theorem tells_wakes (sp : Space P) (e : Event) (positions : List ScopePosition) :
    Tells sp (positions.foldl (fun sp position => sp.wake e position) sp)
      fun p e' => p ∈ positions ∧ e' = e := by
  induction positions generalizing sp with
  | nil => exact (Tells.refl sp).congr fun p e' => by simp
  | cons position rest ih =>
    refine ((tells_wake sp e position).trans (ih (sp.wake e position))).congr fun p e' => ?_
    rw [List.mem_cons, or_and_right]

/-- Dispatching tells whoever is active of every waiting event it has subscribed to. -/
theorem tells_dispatch (sp : Space P) :
    Tells sp.dropEvents sp.dispatch fun p e =>
      ∃ v, (e, v) ∈ sp.store.events.toList ∧ p ∈ sp.watchList.affected e v := by
  -- telling one event leaves the watch list as it is, which the next one is looked up in
  have hfold : ∀ (events : List (Event × VariableId)) (t : Space P),
      Tells t (events.foldl (fun sp event =>
        (sp.watchList.affected event.1 event.2).foldl
          (fun sp position => sp.wake event.1 position) sp) t)
        fun p e => ∃ v, (e, v) ∈ events ∧ p ∈ t.watchList.affected e v := by
    intro events
    induction events with
    | nil => exact fun t => (Tells.refl t).congr fun p e => by simp
    | cons event rest ih =>
      intro t
      obtain ⟨e, v⟩ := event
      have hfirst := tells_wakes t e (t.watchList.affected e v)
      refine (hfirst.trans (ih _)).congr fun p e' => ?_
      rw [hfirst.watchList]
      constructor
      · rintro ⟨w, hmem, hp⟩
        rcases List.mem_cons.mp hmem with heq | hmem
        · obtain ⟨rfl, rfl⟩ := Prod.mk.inj heq
          exact Or.inl ⟨hp, rfl⟩
        · exact Or.inr ⟨w, hmem, hp⟩
      · rintro (⟨hp, rfl⟩ | ⟨w, hmem, hp⟩)
        · exact ⟨v, List.mem_cons_self, hp⟩
        · exact ⟨w, List.mem_cons_of_mem _ hmem, hp⟩
  exact hfold sp.store.events.toList sp.dropEvents

/-! ### The length of the queue -/

/-- Whoever waits is posted and waits once. -/
structure Orderly (sp : Space P) : Prop extends Alert sp where
  /-- Nobody waits twice. -/
  nodup : sp.queue.members.Nodup
  /-- Who waits is posted. -/
  known : ∀ id ∈ sp.queue.members, id.index < sp.posted.size

omit [Propagator P] in
theorem Orderly.length_le (h : sp.Orderly) : sp.queue.length ≤ sp.posted.size := by
  have hnodup : (sp.queue.members.map PropagatorId.index).Nodup :=
    h.nodup.map fun a b hab => by
      cases a
      cases b
      exact congrArg PropagatorId.mk hab
  have hsubset : sp.queue.members.map PropagatorId.index ⊆ List.range sp.posted.size := by
    intro k hk
    obtain ⟨id, hid, rfl⟩ := List.mem_map.mp hk
    exact List.mem_range.mpr (h.known id hid)
  have hle := (hnodup.subperm hsubset).length_le
  rwa [List.length_map, List.length_range, ← Queue.length_eq] at hle

omit [Propagator P] in
theorem Settled.orderly (h : sp.Settled) : sp.Orderly where
  toAlert := h.alert
  nodup := by
    rw [h.queue]
    exact List.nodup_nil
  known := fun id hid => by
    rw [h.queue] at hid
    exact absurd hid List.not_mem_nil

theorem size_wake (sp : Space P) (e : Event) (position : ScopePosition) :
    (sp.wake e position).posted.size = sp.posted.size := by
  unfold wake
  simp only
  split
  · rfl
  · split
    · rfl
    · exact Table.size_modify ..

theorem size_dispatch (sp : Space P) : sp.dispatch.posted.size = sp.posted.size :=
  dispatch_induction (I := fun t => t.posted.size = sp.posted.size) rfl
    fun t e position h => (size_wake t e position).trans h

theorem orderly_wake (h : sp.Orderly) (e : Event) (position : ScopePosition) :
    (sp.wake e position).Orderly := by
  refine ⟨alert_wake h.toAlert e position, ?_, ?_⟩
  · unfold wake
    simp only
    split
    · exact h.nodup
    next p hp =>
      split
      · exact h.nodup
      · rcases Queue.members_enqueue (q := sp.queue) (p := position.propagator)
          (h.lines ▸ (Propagator.priority p.propagator).level_lt_count) with
          ⟨-, hsame⟩ | ⟨hnew, hperm⟩
        · show (sp.queue.enqueue _ _).members.Nodup
          rw [hsame]
          exact h.nodup
        · exact hperm.nodup_iff.mpr (List.nodup_cons.mpr ⟨hnew, h.nodup⟩)
  · rw [size_wake]
    unfold wake
    simp only
    split
    · exact h.known
    next p hp =>
      split
      · exact h.known
      · intro id hid
        rcases (mem_enqueue h.lines).mp hid with rfl | hid
        · exact (Table.get?_isSome_iff _ _).mp (Option.isSome_iff_exists.mpr ⟨p, hp⟩)
        · exact h.known id hid

theorem orderly_dispatch (h : sp.Orderly) : sp.dispatch.Orderly :=
  dispatch_induction ⟨⟨h.lines, h.waits⟩, h.nodup, h.known⟩ fun _ e position h =>
    orderly_wake h e position

omit [Propagator P] in
theorem orderly_record (h : sp.Orderly) (id : PropagatorId) (pass : Pass P) :
    (sp.record id pass).Orderly where
  toAlert := alert_record h.toAlert id pass
  nodup := h.nodup
  known := fun other hother => by
    show other.index < (sp.posted.modify _ _).size
    rw [Table.size_modify]
    exact h.known other hother

omit [Propagator P] in
theorem orderly_popped (h : sp.Orderly) {id : PropagatorId} {queue : Queue}
    (hpop : sp.queue.pop? = some (id, queue)) : (sp.popped id queue).Orderly := by
  obtain ⟨hperm, -⟩ := Queue.members_pop? hpop
  refine ⟨alert_popped h.toAlert hpop, ?_, fun other hother => ?_⟩
  · exact (List.nodup_cons.mp (hperm.nodup_iff.mp h.nodup)).2
  · show other.index < (sp.posted.modify _ _).size
    rw [Table.size_modify]
    exact h.known other (hperm.mem_iff.mpr (List.mem_cons_of_mem id hother))

theorem orderly_entered (h : sp.Orderly) : (sp.entered f).Orderly where
  toAlert := alert_entered h.toAlert
  nodup := h.nodup
  known := fun id hid => by
    show id.index < (sp.posted.push _).size
    rw [Table.size_push]
    exact Nat.lt_succ_of_lt (h.known id hid)

end FiniteDomain.Space
