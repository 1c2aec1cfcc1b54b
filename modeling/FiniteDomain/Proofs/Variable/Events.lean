import FiniteDomain.Propagation.Propagator
import FiniteDomain.Proofs.Variable.Narrowing

/-! # Events of views

    A view hears of its changes through the variable below it.  If the view
    reverses the order, the two bounds change places: who watches the lower bound
    of the view watches the upper bound below.

    `fixed_raises` and its kin say that a step that fixes a variable or moves one
    of its bounds raises an event that whoever watches for this is woken by. -/

namespace FiniteDomain.IntVar

variable {x : IntVar} {s t : Store}

/-- The events below are those of the view, with the bounds exchanged if the order is reversed. -/
theorem watchedEvents_eq (x : IntVar) (events : EventSet) :
    x.watchedEvents events = if x.reverses then events.reflect else events := by
  induction x generalizing events with
  | plain y => rfl
  | view inner map ih =>
    show inner.watchedEvents (if map.reverses then events.reflect else events)
      = if inner.reverses ^^ map.reverses then events.reflect else events
    rw [ih]
    cases map.reverses <;> cases inner.reverses <;> rfl

/-- The events are noticed when an event waits for the variable of the store below. -/
def Raised (x : IntVar) (events : EventSet) (t : Store) : Prop :=
  ∃ e, (e, VariableId.int x.base) ∈ t.events.toList
    ∧ (x.watchedEvents events).meets e.wakes = true

theorem assign_meets {events : EventSet} (x : IntVar) (h : events.meets Event.assign.wakes = true) :
    (x.watchedEvents events).meets Event.assign.wakes = true := by
  rw [watchedEvents_eq]
  cases x.reverses with
  | false => exact h
  | true =>
    obtain ⟨e, he, hwakes⟩ := EventSet.meets_iff.mp h
    refine EventSet.meets_iff.mpr ⟨e.reflect, ?_, ?_⟩
    · rw [if_pos rfl, EventSet.contains_reflect]
      cases e <;> exact he
    · cases e <;> first | rfl | exact hwakes

/-- A step that fixes a variable is noticed by whoever watches for assignments. -/
theorem fixed_raises (h : s.Step t) (hs : s.Wf) (hx : x.Ranges Width.value s) {events : EventSet}
    (hevents : events.meets Event.assign.wakes = true) (hfixed : x.isFixed t = true) :
    x.isFixed s = true ∨ x.Raised events t := by
  have hsteps := Store.Steps.single h
  rw [isFixed_eq (hsteps.wf hs) (hx.steps hsteps hs)] at hfixed
  rw [isFixed_eq hs hx]
  rcases h.reportsInt x.base with heq | ⟨e, he, hreports⟩
  · rw [heq] at hfixed
    exact Or.inl hfixed
  · right
    have hassign := hreports.fixed hfixed
    subst hassign
    exact ⟨_, he, assign_meets x hevents⟩

theorem meets_ofList {e : Event} {events : EventSet} (h : events.contains e = true) :
    (EventSet.ofList [e]).meets events = true :=
  EventSet.meets_iff.mpr ⟨e, by cases e <;> rfl, h⟩

/-- Who watches for more hears of more. -/
theorem meets_mono (x : IntVar) {events events' : EventSet} {e : Event}
    (hsub : ∀ e, events.contains e = true → events'.contains e = true)
    (h : (x.watchedEvents events).meets e.wakes = true) :
    (x.watchedEvents events').meets e.wakes = true := by
  obtain ⟨event, hevent, hwakes⟩ := EventSet.meets_iff.mp h
  refine EventSet.meets_iff.mpr ⟨event, ?_, hwakes⟩
  rw [watchedEvents_eq] at hevent ⊢
  cases hreverses : x.reverses with
  | false =>
    rw [hreverses] at hevent
    exact hsub event hevent
  | true =>
    rw [hreverses, if_pos rfl, EventSet.contains_reflect] at hevent
    rw [if_pos rfl, EventSet.contains_reflect]
    exact hsub event.reflect hevent

/-- Who watches for an event hears of it as one who watches for nothing else does. -/
theorem Raised.watched {events : EventSet} {e : Event} (h : x.Raised (.ofList [e]) t)
    (hevents : events.contains e = true) : x.Raised events t := by
  obtain ⟨e', he', hmeets⟩ := h
  refine ⟨e', he', meets_mono x (fun event hevent => ?_) hmeets⟩
  obtain rfl : event = e := by
    cases event <;> cases e <;> first | rfl | cases hevent
  exact hevents

/-- A step that raises a lower bound is noticed by whoever watches for that. -/
theorem lowerBound_raises (h : s.Step t) (hs : s.Wf) (hx : x.Ranges Width.value s)
    (hne : x.lowerBound t ≠ x.lowerBound s) : x.Raised (.ofList [.lowerBound]) t := by
  have hsteps := Store.Steps.single h
  rw [(bounds_eq hs hx).1, (bounds_eq (hsteps.wf hs) (hx.steps hsteps hs)).1] at hne
  rcases h.reportsInt x.base with heq | ⟨e, he, hreports⟩
  · rw [heq] at hne
    exact absurd rfl hne
  refine ⟨e, he, ?_⟩
  rw [watchedEvents_eq]
  cases hr : x.reverses with
  | false =>
    rw [hr] at hne
    exact meets_ofList (hreports.lower fun hsame => hne (congrArg x.image hsame))
  | true =>
    rw [hr] at hne
    exact meets_ofList (hreports.upper fun hsame => hne (congrArg x.image hsame))

theorem upperBound_raises (h : s.Step t) (hs : s.Wf) (hx : x.Ranges Width.value s)
    (hne : x.upperBound t ≠ x.upperBound s) : x.Raised (.ofList [.upperBound]) t := by
  have hsteps := Store.Steps.single h
  rw [(bounds_eq hs hx).2, (bounds_eq (hsteps.wf hs) (hx.steps hsteps hs)).2] at hne
  rcases h.reportsInt x.base with heq | ⟨e, he, hreports⟩
  · rw [heq] at hne
    exact absurd rfl hne
  refine ⟨e, he, ?_⟩
  rw [watchedEvents_eq]
  cases hr : x.reverses with
  | false =>
    rw [hr] at hne
    exact meets_ofList (hreports.upper fun hsame => hne (congrArg x.image hsame))
  | true =>
    rw [hr] at hne
    exact meets_ofList (hreports.lower fun hsame => hne (congrArg x.image hsame))

end FiniteDomain.IntVar
