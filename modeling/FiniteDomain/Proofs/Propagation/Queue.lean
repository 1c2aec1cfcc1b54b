import FiniteDomain.Propagation.Queue

/-! # The members of a queue

    `Roster.members` lists who waits, line after line.  Joining adds one member,
    leaving removes one, and who leaves is a matter of priorities only. -/

namespace FiniteDomain

/-! ### Rosters -/

namespace Roster

variable {r : Roster}

/-- Nobody can be taken from a roster only if its lines are empty. -/
theorem Agrees.eq_withLevels (h : r.Agrees) (hpop : r.pop? = none) :
    r = withLevels r.lines.size := by
  have hpresent : r.present = [] := by
    cases hlevels : r.present with
    | nil => rfl
    | cons level levels =>
      have hline := (h.present level).mp (hlevels ▸ List.mem_cons_self)
      obtain ⟨p, rest, hhead⟩ := Fifo.pop?_isSome hline
      simp [Roster.pop?, hlevels, hhead] at hpop
  have hlines : r.lines = Array.replicate r.lines.size Fifo.empty := by
    have hclear := congrArg Roster.lines h.clear_eq
    rwa [Roster.clear, hpresent] at hclear
  have hmembers : r.members = [] := by
    have hnone := members_withLevels r.lines.size
    rwa [members, withLevels, ← hlines] at hnone
  have hraised : r.raised = [] := (hmembers ▸ h.raised).eq_nil
  have hcount : r.count = 0 := by rw [h.count, hmembers, List.length_nil]
  obtain ⟨lines, raised, count, present⟩ := r
  simp only [withLevels, mk.injEq]
  exact ⟨hlines, hraised, hcount, hpresent⟩

@[simp] theorem pop?_withLevels (levels : Nat) : (withLevels levels).pop? = none := rfl

end Roster

/-! ### Queues -/

namespace Queue

theorem isWaiting_iff {q : Queue} {p : PropagatorId} :
    q.isWaiting p = true ↔ p ∈ q.members :=
  q.agrees.isWaiting_iff

theorem length_eq (q : Queue) : q.length = q.members.length := q.agrees.count

@[simp] theorem members_withLevels (levels : Nat) : (withLevels levels).members = [] :=
  Roster.members_withLevels levels

/-- A queue is known by its roster. -/
theorem ext_roster {q q' : Queue} (h : q.toRoster = q'.toRoster) : q = q' := by
  cases q
  cases q'
  cases h
  rfl

/-- Clearing leaves the empty queue with as many levels. -/
theorem clear_eq (q : Queue) : q.clear = withLevels q.lines.size :=
  ext_roster q.agrees.clear_eq

@[simp] theorem members_clear (q : Queue) : q.clear.members = [] := by
  rw [clear_eq, members_withLevels]

@[simp] theorem isWaiting_clear (q : Queue) (p : PropagatorId) : q.clear.isWaiting p = false :=
  rfl

/-- Who joins is added to the members. -/
theorem members_enqueue {q : Queue} {p : PropagatorId} {priority : Priority}
    (hlevel : priority.level < q.lines.size) :
    (q.isWaiting p = true ∧ q.enqueue p priority = q)
      ∨ (p ∉ q.members ∧ (q.enqueue p priority).members.Perm (p :: q.members)) := by
  cases hwaits : q.isWaiting p with
  | true => exact Or.inl ⟨rfl, ext_roster (if_pos (by rw [hwaits]; rfl))⟩
  | false =>
    refine Or.inr ⟨fun hmem => ?_, Roster.members_enqueue hlevel hwaits⟩
    rw [isWaiting_iff.mpr hmem] at hwaits
    cases hwaits

@[simp] theorem size_enqueue (q : Queue) (p : PropagatorId) (priority : Priority) :
    (q.enqueue p priority).lines.size = q.lines.size := by
  unfold enqueue Roster.enqueue
  dsimp only
  split <;> simp

/-- Nobody leaves an empty queue only. -/
theorem pop?_eq_none {q : Queue} (h : q.pop? = none) : q = withLevels q.lines.size := by
  unfold pop? at h
  split at h
  next hpop => exact ext_roster (q.agrees.eq_withLevels hpop)
  next => cases h

/-- Taking somebody from a queue is taking somebody from its roster. -/
theorem pop?_roster {q rest : Queue} {p : PropagatorId} (h : q.pop? = some (p, rest)) :
    q.toRoster.pop? = some (p, rest.toRoster) := by
  unfold pop? at h
  split at h
  next => cases h
  next hpop =>
    cases h
    exact hpop

/-- Who leaves was a member; the others stay. -/
theorem members_pop? {q rest : Queue} {p : PropagatorId} (h : q.pop? = some (p, rest)) :
    q.members.Perm (p :: rest.members) ∧ rest.lines.size = q.lines.size := by
  have hpop := pop?_roster h
  refine ⟨q.agrees.members_pop? hpop, ?_⟩
  obtain ⟨level, levels, line, -, -, hrest⟩ := Roster.pop?_eq_some hpop
  rw [hrest]
  exact Array.size_modify ..

@[simp] theorem pop?_withLevels (levels : Nat) : (withLevels levels).pop? = none := rfl

end Queue

end FiniteDomain
