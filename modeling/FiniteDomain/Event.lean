import FiniteDomain.Identifier

/-! # Events

    An event is a kind of change of a domain.  One narrowing raises one event,
    the strongest that describes it: raising the lower bound onto the upper one
    is `assign`.  A subscriber names the kinds of change it wants to hear of; an
    event wakes every subscription to a kind that it implies (`Event.wakes`), so
    a subscriber to lower bounds also hears of assignments.

    The sink collects the events raised since it was last emptied, each pair of
    event and variable once, in the order of their first occurrence. -/

namespace FiniteDomain

/-- A kind of change of a domain. -/
inductive Event where
  /-- An integer variable got a single value. -/
  | assign
  /-- The lower bound of an integer variable rose. -/
  | lowerBound
  /-- The upper bound of an integer variable fell. -/
  | upperBound
  /-- Values between the bounds of an integer variable were removed. -/
  | removal
  /-- Something optional left the envelope of a set or graph. -/
  | envelopeRemoval
  /-- Something entered the kernel of a set or graph. -/
  | kernelAddition
deriving DecidableEq, Repr, Inhabited

/-- All kinds of change. -/
def Event.all : List Event :=
  [.assign, .lowerBound, .upperBound, .removal, .envelopeRemoval, .kernelAddition]

theorem Event.mem_all (e : Event) : e ∈ Event.all := by
  cases e <;> simp [Event.all]

/-- The name of a kind of change. -/
def Event.name : Event → String
  | .assign => "Assign"
  | .lowerBound => "LowerBound"
  | .upperBound => "UpperBound"
  | .removal => "Removal"
  | .envelopeRemoval => "EnvelopeRemoval"
  | .kernelAddition => "KernelAddition"

instance : ToString Event := ⟨fun e => s!"[Event:{e.name}]"⟩

/-- The event seen through a decreasing map: the bounds change places. -/
def Event.reflect : Event → Event
  | .lowerBound => .upperBound
  | .upperBound => .lowerBound
  | e => e

/-! ### Sets of events -/

/-- A set of kinds of change. -/
structure EventSet where
  /-- Whether `assign` is a member. -/
  assign : Bool
  /-- Whether `lowerBound` is a member. -/
  lowerBound : Bool
  /-- Whether `upperBound` is a member. -/
  upperBound : Bool
  /-- Whether `removal` is a member. -/
  removal : Bool
  /-- Whether `envelopeRemoval` is a member. -/
  envelopeRemoval : Bool
  /-- Whether `kernelAddition` is a member. -/
  kernelAddition : Bool
deriving DecidableEq, Repr

namespace EventSet

/-- The set without members. -/
def empty : EventSet := ⟨false, false, false, false, false, false⟩

instance : Inhabited EventSet := ⟨empty⟩

/-- The event is a member. -/
def contains (s : EventSet) : Event → Bool
  | .assign => s.assign
  | .lowerBound => s.lowerBound
  | .upperBound => s.upperBound
  | .removal => s.removal
  | .envelopeRemoval => s.envelopeRemoval
  | .kernelAddition => s.kernelAddition

/-- The set with one more member. -/
def insert (s : EventSet) : Event → EventSet
  | .assign => { s with assign := true }
  | .lowerBound => { s with lowerBound := true }
  | .upperBound => { s with upperBound := true }
  | .removal => { s with removal := true }
  | .envelopeRemoval => { s with envelopeRemoval := true }
  | .kernelAddition => { s with kernelAddition := true }

/-- The set of the listed events. -/
def ofList (events : List Event) : EventSet := events.foldl insert empty

/-- The members of either set. -/
def union (s t : EventSet) : EventSet :=
  ⟨s.assign || t.assign, s.lowerBound || t.lowerBound, s.upperBound || t.upperBound,
   s.removal || t.removal, s.envelopeRemoval || t.envelopeRemoval,
   s.kernelAddition || t.kernelAddition⟩

/-- The two sets have a member in common. -/
def meets (s t : EventSet) : Bool := Event.all.any fun e => s.contains e && t.contains e

/-- The members in the order of `Event.all`. -/
def toList (s : EventSet) : List Event := Event.all.filter s.contains

/-- The set seen through a decreasing map: the bounds change places. -/
def reflect (s : EventSet) : EventSet :=
  { s with lowerBound := s.upperBound, upperBound := s.lowerBound }

/-- Both bounds. -/
def bounds : EventSet := ofList [.lowerBound, .upperBound]

/-- Every change of an integer variable. -/
def anyInteger : EventSet := ofList [.assign, .lowerBound, .upperBound, .removal]

/-- Every change of a set or graph variable. -/
def anyStructure : EventSet := ofList [.envelopeRemoval, .kernelAddition]

@[simp] theorem contains_reflect (s : EventSet) (e : Event) :
    s.reflect.contains e = s.contains e.reflect := by
  cases e <;> rfl

@[simp] theorem contains_union (s t : EventSet) (e : Event) :
    (s.union t).contains e = (s.contains e || t.contains e) := by
  cases e <;> rfl

theorem meets_iff {s t : EventSet} :
    s.meets t = true ↔ ∃ e, s.contains e = true ∧ t.contains e = true := by
  simp only [meets, List.any_eq_true, Bool.and_eq_true]
  exact ⟨fun ⟨e, _, h⟩ => ⟨e, h⟩, fun ⟨e, h⟩ => ⟨e, e.mem_all, h⟩⟩

end EventSet

/-- The kinds of change that an event implies: an assignment may have moved either bound and
    removed values, a moved bound removes values. -/
def Event.wakes : Event → EventSet
  | .assign => .ofList [.assign, .lowerBound, .upperBound, .removal]
  | .lowerBound => .ofList [.lowerBound, .removal]
  | .upperBound => .ofList [.upperBound, .removal]
  | e => .ofList [e]

/-! ### The sink -/

/-- The events raised since the sink was last emptied. -/
structure EventSink where
  /-- Each pair once, in the order of first occurrence. -/
  raised : Array (Event × VariableId)
deriving DecidableEq, Repr, Inhabited

namespace EventSink

/-- The sink without events. -/
def empty : EventSink := ⟨#[]⟩

/-- Nothing has been raised. -/
def isEmpty (s : EventSink) : Bool := s.raised.isEmpty

/-- The sink after the event happened to the variable. -/
def raise (s : EventSink) (e : Event) (v : VariableId) : EventSink :=
  if s.raised.contains (e, v) then s else ⟨s.raised.push (e, v)⟩

/-- The events in the order in which they were first raised. -/
def toList (s : EventSink) : List (Event × VariableId) := s.raised.toList

theorem mem_toList_raise {s : EventSink} {e : Event} {v : VariableId} {p : Event × VariableId} :
    p ∈ (s.raise e v).toList ↔ p ∈ s.toList ∨ p = (e, v) := by
  unfold raise
  split
  next h =>
    have hmem : (e, v) ∈ s.raised := Array.contains_iff_mem.mp h
    constructor
    · exact Or.inl
    · rintro (hp | rfl)
      · exact hp
      · exact Array.mem_toList_iff.mpr hmem
  next => simp [toList]

end EventSink

end FiniteDomain
