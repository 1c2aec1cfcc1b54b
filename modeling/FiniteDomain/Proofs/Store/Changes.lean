import FiniteDomain.Proofs.Store.Undo
import FiniteDomain.Proofs.Variable.Events

/-! # Changes are announced

    A narrowing may raise a bound of a variable or view, lower one, take values
    away, fix the variable, or change envelope or kernel of a set or graph.
    `Asked s t w` says that the change from one store to the other is of a kind
    that the watch asks for.  Each narrowing that succeeds raises an event that
    the watch is woken by (`announces_apply`), and the event waits until the sink
    is drained. -/

namespace FiniteDomain

/-! ### Changes -/

/-- The narrowing from one store to the other made a change of the given kind to the variable. -/
def IntVar.Changed (x : IntVar) (s t : Store) : Event → Prop
  | .assign => (s.int x.base).isFixed = false ∧ (t.int x.base).isFixed = true
  | .lowerBound => x.lowerBound s < x.lowerBound t
  | .upperBound => x.upperBound t < x.upperBound s
  | .removal => ∃ k, x.contains s k = true ∧ x.contains t k = false
  | _ => False

/-- The change of a set is of the given kind. -/
def SetDomain.Changed (d d' : SetDomain) : Event → Prop
  | .envelopeRemoval => ∃ e, d.inEnvelope e = true ∧ d'.inEnvelope e = false
  | .kernelAddition => ∃ e, d.inKernel e = false ∧ d'.inKernel e = true
  | _ => False

/-- The graph has a node or an arc that the other one has not. -/
def Digraph.Exceeds (c c' : Digraph) : Prop :=
  (∃ n, c'.hasNode n = false ∧ c.hasNode n = true)
    ∨ ∃ m n, c'.hasArc m n = false ∧ c.hasArc m n = true

/-- The change of a graph is of the given kind. -/
def GraphDomain.Changed (d d' : GraphDomain) : Event → Prop
  | .envelopeRemoval => d.envelope.Exceeds d'.envelope
  | .kernelAddition => d'.kernel.Exceeds d.kernel
  | _ => False

namespace Store

variable {s t u : Store} {w : Watch}

/-- The change from one store to the other is of a kind that the watch asks for. -/
inductive Asked (s t : Store) : Watch → Prop where
  /-- An integer variable or view. -/
  | int {x : IntVar} {events : EventSet} {l : LocalId} (k : Event)
      (asks : events.contains k = true) (changed : x.Changed s t k) : Asked s t (x.watch events l)
  /-- A set. -/
  | set {y : SetId} {events : EventSet} {l : LocalId} (k : Event)
      (asks : events.contains k = true) (changed : (s.set y).Changed (t.set y) k) :
      Asked s t ⟨.set y, events, l⟩
  /-- A graph. -/
  | graph {g : GraphId} {events : EventSet} {l : LocalId} (k : Event)
      (asks : events.contains k = true) (changed : (s.graph g).Changed (t.graph g) k) :
      Asked s t ⟨.graph g, events, l⟩

/-- An event that the watch asks for waits. -/
def Announces (t : Store) (w : Watch) : Prop :=
  ∃ e, (e, w.target) ∈ t.events.toList ∧ w.events.meets e.wakes = true

/-- The store after some narrowings, successful or not. -/
inductive Narrowings (s : Store) : Store → Prop where
  /-- None. -/
  | refl : Narrowings s s
  /-- One more. -/
  | narrow {t : Store} (request : Narrowing) (before : Narrowings s t) :
      Narrowings s (request.apply t).store

/-- The store after events may have been added, but none was taken away: narrowings, passive
    propagators, new variables. -/
inductive Undrained (s : Store) : Store → Prop where
  /-- Nothing has happened. -/
  | refl : Undrained s s
  /-- A narrowing, successful or not. -/
  | narrow {t : Store} (request : Narrowing) (before : Undrained s t) :
      Undrained s (request.apply t).store
  /-- A propagator becomes passive. -/
  | passivate {t : Store} (p : PropagatorId) (before : Undrained s t) : Undrained s (t.passivate p)
  /-- A new integer variable. -/
  | addInt {t : Store} {d : IntegerDomain} (hd : d.Wf) (before : Undrained s t) :
      Undrained s (t.addInt d).2
  /-- A new set variable. -/
  | addSet {t : Store} {d : SetDomain} (hd : d.Wf) (before : Undrained s t) :
      Undrained s (t.addSet d).2
  /-- A new graph variable. -/
  | addGraph {t : Store} {d : GraphDomain} (hd : d.Wf) (before : Undrained s t) :
      Undrained s (t.addGraph d).2

/-! ### Every change is announced -/

theorem steps_apply (hs : s.Wf) (request : Narrowing) : s.Steps (request.apply s).store :=
  .of_narrowed (request.apply_steps hs)

theorem Narrowings.steps (h : s.Narrowings t) (hs : s.Wf) : s.Steps t := by
  induction h with
  | refl => exact .refl s
  | narrow request before ih => exact ih.trans (steps_apply (ih.wf hs) request)

theorem Announces.steps (h : s.Announces w) (hst : s.Steps t) : t.Announces w := by
  obtain ⟨e, he, hmeets⟩ := h
  exact ⟨e, hst.mem_events he, hmeets⟩

theorem Undrained.wf (h : s.Undrained t) (hs : s.Wf) : t.Wf := by
  induction h with
  | refl => exact hs
  | narrow request before ih => exact (steps_apply ih request).wf ih
  | passivate p before ih => exact (sameDomains_passivate _ p).wf ih
  | addInt hd before ih => exact ih.addInt hd
  | addSet hd before ih => exact ih.addSet hd
  | addGraph hd before ih => exact ih.addGraph hd

theorem Announces.undrained (h : s.Announces w) (hst : s.Undrained t) (hs : s.Wf) :
    t.Announces w := by
  induction hst with
  | refl => exact h
  | narrow request before ih => exact ih.steps (steps_apply (before.wf hs) request)
  | passivate p before ih =>
    obtain ⟨e, he, hmeets⟩ := ih
    exact ⟨e, (events_passivate _ p).symm ▸ he, hmeets⟩
  | addInt hd before ih => exact ih
  | addSet hd before ih => exact ih
  | addGraph hd before ih => exact ih

end Store

namespace IntVar

variable {x : IntVar} {s t : Store}

/-- Each bound of a view follows from one of the bounds below it. -/
theorem bounds_congr (x : IntVar) :
    ((if x.reverses then (t.int x.base).upper = (s.int x.base).upper
        else (t.int x.base).lower = (s.int x.base).lower) → x.lowerBound t = x.lowerBound s)
      ∧ ((if x.reverses then (t.int x.base).lower = (s.int x.base).lower
        else (t.int x.base).upper = (s.int x.base).upper) → x.upperBound t = x.upperBound s) := by
  induction x with
  | plain y => exact ⟨id, id⟩
  | view inner map ih =>
    obtain ⟨hlower, hupper⟩ := ih
    show ((if inner.reverses ^^ map.reverses then _ else _) →
        map.apply (if map.reverses then inner.upperBound t else inner.lowerBound t)
          = map.apply (if map.reverses then inner.upperBound s else inner.lowerBound s))
      ∧ ((if inner.reverses ^^ map.reverses then _ else _) →
        map.apply (if map.reverses then inner.lowerBound t else inner.upperBound t)
          = map.apply (if map.reverses then inner.lowerBound s else inner.upperBound s))
    cases hinner : inner.reverses <;> cases map.reverses <;> rw [hinner] at hlower hupper
    · exact ⟨fun h => congrArg map.apply (hlower h), fun h => congrArg map.apply (hupper h)⟩
    · exact ⟨fun h => congrArg map.apply (hupper h), fun h => congrArg map.apply (hlower h)⟩
    · exact ⟨fun h => congrArg map.apply (hlower h), fun h => congrArg map.apply (hupper h)⟩
    · exact ⟨fun h => congrArg map.apply (hupper h), fun h => congrArg map.apply (hlower h)⟩

theorem contains_congr (x : IntVar) (h : t.int x.base = s.int x.base) (k : Int) :
    x.contains t k = x.contains s k := by
  induction x generalizing k with
  | plain y => exact congrArg (·.contains k) h
  | view inner map ih =>
    show (map.preimage? k).any (inner.contains t) = (map.preimage? k).any (inner.contains s)
    rw [funext (ih h)]

/-- Nothing has changed if the variable below has not. -/
theorem not_changed (x : IntVar) (h : t.int x.base = s.int x.base) (k : Event) :
    ¬ x.Changed s t k := by
  obtain ⟨hlower, hupper⟩ := bounds_of_base h
  cases k with
  | assign =>
    rintro ⟨hbefore, hafter⟩
    rw [h, hbefore] at hafter
    cases hafter
  | lowerBound => exact fun hlt => absurd hlower (ne_of_gt hlt)
  | upperBound => exact fun hlt => absurd hupper (ne_of_lt hlt)
  | removal =>
    rintro ⟨k, hbefore, hafter⟩
    rw [contains_congr x h, hbefore] at hafter
    cases hafter
  | envelopeRemoval => exact id
  | kernelAddition => exact id

/-- The event below that a change of the view comes with. -/
theorem below_of_changed {e : Event} (hreports : IntegerDomain.Reports (s.int x.base) (t.int x.base) e)
    {k : Event} (h : x.Changed s t k) :
    e.wakes.contains (if x.reverses then k.reflect else k) = true := by
  cases k with
  | assign =>
    rw [hreports.fixed h.2]
    split <;> rfl
  | lowerBound =>
    -- a view that reverses the order shows the other bound of what is below it
    have hne : x.lowerBound t ≠ x.lowerBound s := ne_of_gt h
    have hbound := mt (bounds_congr x).1 hne
    cases hr : x.reverses <;> rw [hr] at hbound
    · exact hreports.lower hbound
    · exact hreports.upper hbound
  | upperBound =>
    have hne : x.upperBound t ≠ x.upperBound s := ne_of_lt h
    have hbound := mt (bounds_congr x).2 hne
    cases hr : x.reverses <;> rw [hr] at hbound
    · exact hreports.upper hbound
    · exact hreports.lower hbound
  | removal => split <;> exact hreports.removal
  | envelopeRemoval => exact h.elim
  | kernelAddition => exact h.elim

/-- Whoever watches a view for a kind of change watches for it below. -/
theorem contains_watchedEvents (x : IntVar) {events : EventSet} {k : Event}
    (h : events.contains k = true) :
    (x.watchedEvents events).contains (if x.reverses then k.reflect else k) = true := by
  rw [watchedEvents_eq]
  split
  · rw [EventSet.contains_reflect]
    cases k <;> exact h
  · exact h

end IntVar

namespace SetDomain

variable {d d' : SetDomain} {k e : Event}

theorem Changed.ne (h : d.Changed d' k) : d' ≠ d := by
  rintro rfl
  cases k with
  | envelopeRemoval =>
    obtain ⟨x, hbefore, hafter⟩ := h
    rw [hbefore] at hafter
    cases hafter
  | kernelAddition =>
    obtain ⟨x, hbefore, hafter⟩ := h
    rw [hbefore] at hafter
    cases hafter
  | _ => exact h

theorem Changed.event_eq (h : d.Changed d' k) (hreports : Reports d d' e) : e = k := by
  cases k with
  | envelopeRemoval =>
    obtain ⟨x, hbefore, hafter⟩ := h
    exact hreports.envelope x hbefore (Bool.eq_false_iff.mp hafter)
  | kernelAddition =>
    obtain ⟨x, hbefore, hafter⟩ := h
    exact hreports.kernel x (Bool.eq_false_iff.mp hbefore) hafter
  | _ => exact h.elim

end SetDomain

theorem Digraph.Exceeds.ne {c c' : Digraph} (h : c'.Exceeds c) : c' ≠ c := by
  rintro rfl
  rcases h with ⟨n, hbefore, hafter⟩ | ⟨m, n, hbefore, hafter⟩
  · rw [hbefore] at hafter
    cases hafter
  · rw [hbefore] at hafter
    cases hafter

namespace GraphDomain

variable {d d' : GraphDomain} {k e : Event}

theorem Changed.ne (h : d.Changed d' k) : d' ≠ d := by
  rintro rfl
  cases k with
  | envelopeRemoval => exact Digraph.Exceeds.ne h rfl
  | kernelAddition => exact Digraph.Exceeds.ne h rfl
  | _ => exact h

theorem Changed.event_eq (h : d.Changed d' k) (hreports : Reports d d' e) : e = k := by
  cases k with
  | envelopeRemoval => exact hreports.envelope (Digraph.Exceeds.ne h).symm
  | kernelAddition => exact hreports.kernel (Digraph.Exceeds.ne h)
  | _ => exact h.elim

end GraphDomain

namespace Store

variable {s t : Store} {w : Watch}

theorem meets_wakes {events : EventSet} {k : Event} (h : events.contains k = true) :
    events.meets k.wakes = true :=
  EventSet.meets_iff.mpr ⟨k, h, by cases k <;> rfl⟩

theorem Asked.ne (h : s.Asked t w) : t ≠ s := by
  rintro rfl
  cases h with
  | int k asks changed => exact IntVar.not_changed _ rfl k changed
  | set k asks changed => exact changed.ne rfl
  | graph k asks changed => exact changed.ne rfl

/-- A step that changes what a watch asks for announces it. -/
theorem Step.announces (h : s.Step t) (hasked : s.Asked t w) : t.Announces w := by
  cases hasked with
  | @int x events l k asks changed =>
    rcases h.reportsInt x.base with heq | ⟨e, he, hreports⟩
    · exact absurd changed (x.not_changed heq k)
    · exact ⟨e, he, EventSet.meets_iff.mpr
        ⟨_, x.contains_watchedEvents asks, IntVar.below_of_changed hreports changed⟩⟩
  | @set y events l k asks changed =>
    rcases h.reportsSet y with heq | ⟨e, he, hreports⟩
    · exact absurd heq changed.ne
    · obtain rfl := changed.event_eq hreports
      exact ⟨e, he, meets_wakes asks⟩
  | @graph g events l k asks changed =>
    rcases h.reportsGraph g with heq | ⟨e, he, hreports⟩
    · exact absurd heq changed.ne
    · obtain rfl := changed.event_eq hreports
      exact ⟨e, he, meets_wakes asks⟩

/-- A narrowing announces what it changes. -/
theorem announces_apply (hs : s.Wf) {request : Narrowing}
    (hasked : s.Asked (request.apply s).store w) : (request.apply s).store.Announces w := by
  have hsteps := request.apply_steps hs
  by_cases hchanged : (request.apply s).changed? = some true
  · exact (hsteps.step hchanged).announces hasked
  · exact absurd (hsteps.same hchanged) hasked.ne

end Store

end FiniteDomain
