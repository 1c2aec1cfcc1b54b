import FiniteDomain.Store
import FiniteDomain.Proofs.Domain.Chain
import FiniteDomain.Proofs.Domain.Graph
import FiniteDomain.Proofs.Domain.Integer.Narrowing
import FiniteDomain.Proofs.Domain.Set
import FiniteDomain.Proofs.Table

/-! # Stores and their trails

    Whatever happens to a store between two moments is a chain of ticks: changes
    of one domain by one entry, and passivations.  `Store.Extends s t` says that
    `t` comes from `s` by such a chain, waiting events aside.  Undoing is right
    because each tick is taken back exactly by its own entry. -/

namespace FiniteDomain

namespace Store

/-! ### Well-formed stores -/

/-- All domains are well-formed. -/
structure Wf (s : Store) : Prop where
  ints : ∀ d ∈ s.ints.rows, d.Wf
  sets : ∀ d ∈ s.sets.rows, d.Wf
  graphs : ∀ d ∈ s.graphs.rows, d.Wf

variable {s t : Store}

theorem Wf.int (hs : s.Wf) (x : IntId) : (s.int x).Wf := by
  rcases Nat.lt_or_ge x.index s.ints.size with h | h
  · exact hs.ints _ (Table.getD_mem h _)
  · rw [Store.int, Table.getD_of_size_le h]
    exact IntegerDomain.default_wf

theorem Wf.set (hs : s.Wf) (y : SetId) : (s.set y).Wf := by
  rcases Nat.lt_or_ge y.index s.sets.size with h | h
  · exact hs.sets _ (Table.getD_mem h _)
  · rw [Store.set, Table.getD_of_size_le h]
    exact SetDomain.default_wf

theorem Wf.graph (hs : s.Wf) (g : GraphId) : (s.graph g).Wf := by
  rcases Nat.lt_or_ge g.index s.graphs.size with h | h
  · exact hs.graphs _ (Table.getD_mem h _)
  · rw [Store.graph, Table.getD_of_size_le h]
    exact GraphDomain.default_wf

theorem wf_empty : Store.empty.Wf := by
  constructor <;> intro d hd <;> simp [Store.empty, Table.empty] at hd

theorem Wf.addInt (hs : s.Wf) {d : IntegerDomain} (hd : d.Wf) : (s.addInt d).2.Wf := by
  refine ⟨fun d' h => ?_, hs.sets, hs.graphs⟩
  rcases Array.mem_push.mp h with h | rfl
  · exact hs.ints d' h
  · exact hd

theorem Wf.addSet (hs : s.Wf) {d : SetDomain} (hd : d.Wf) : (s.addSet d).2.Wf := by
  refine ⟨hs.ints, fun d' h => ?_, hs.graphs⟩
  rcases Array.mem_push.mp h with h | rfl
  · exact hs.sets d' h
  · exact hd

theorem Wf.addGraph (hs : s.Wf) {d : GraphDomain} (hd : d.Wf) : (s.addGraph d).2.Wf := by
  refine ⟨hs.ints, hs.sets, fun d' h => ?_⟩
  rcases Array.mem_push.mp h with h | rfl
  · exact hs.graphs d' h
  · exact hd

/-! ### Ticks -/

/-- An elementary change of a store, with the entry that records it. -/
inductive Tick : Store → StoreEntry → Store → Prop where
  /-- A tick of an integer domain. -/
  | int {s : Store} (x : IntId) {d : IntegerDomain} {entry : IntegerDomain.Entry}
      (known : x.index < s.ints.size) (tick : IntegerDomain.Tick (s.int x) entry d) :
      Tick s (.int x entry)
        { s with ints := s.ints.modify x.index fun _ => d
                 trail := s.trail.push (.int x entry) }
  /-- A tick of a set domain. -/
  | set {s : Store} (y : SetId) {d : SetDomain} {entry : SetDomain.Entry}
      (known : y.index < s.sets.size) (tick : SetDomain.Tick (s.set y) entry d) :
      Tick s (.set y entry)
        { s with sets := s.sets.modify y.index fun _ => d
                 trail := s.trail.push (.set y entry) }
  /-- A tick of a graph domain. -/
  | graph {s : Store} (g : GraphId) {d : GraphDomain} {entry : GraphDomain.Entry}
      (known : g.index < s.graphs.size) (tick : GraphDomain.Tick (s.graph g) entry d) :
      Tick s (.graph g entry)
        { s with graphs := s.graphs.modify g.index fun _ => d
                 trail := s.trail.push (.graph g entry) }
  /-- A propagator becomes passive. -/
  | passivation {s : Store} (p : PropagatorId) (active : s.isPassive p = false) :
      Tick s (.passivation p)
        { s with passive := p :: s.passive
                 trail := s.trail.push (.passivation p) }

namespace Tick

variable {entry : StoreEntry}

theorem wf (h : Tick s entry t) (hs : s.Wf) : t.Wf := by
  cases h with
  | int x known tick =>
    refine ⟨fun d' h => ?_, hs.sets, hs.graphs⟩
    rcases Table.mem_modify h with h | rfl
    · exact hs.ints d' h
    · exact tick.wf (hs.int x)
  | set y known tick =>
    refine ⟨hs.ints, fun d' h => ?_, hs.graphs⟩
    rcases Table.mem_modify h with h | rfl
    · exact hs.sets d' h
    · exact tick.wf (hs.set y)
  | graph g known tick =>
    refine ⟨hs.ints, hs.sets, fun d' h => ?_⟩
    rcases Table.mem_modify h with h | rfl
    · exact hs.graphs d' h
    · exact tick.wf (hs.graph g)
  | passivation p active => exact ⟨hs.ints, hs.sets, hs.graphs⟩

theorem trail_eq (h : Tick s entry t) : t.trail = s.trail.push entry := by
  cases h <;> rfl

theorem events_eq (h : Tick s entry t) : t.events = s.events := by
  cases h <;> rfl

/-- The entry of a tick takes it back exactly. -/
theorem revert (h : Tick s entry t) (hs : s.Wf) :
    t.revert entry = { s with trail := t.trail } := by
  cases h with
  | int x known tick =>
    simp only [Store.revert, Table.modify_modify]
    rw [Table.modify_self default (tick.undo (hs.int x))]
  | set y known tick =>
    simp only [Store.revert, Table.modify_modify]
    rw [Table.modify_self default (tick.undo (hs.set y))]
  | graph g known tick =>
    simp only [Store.revert, Table.modify_modify]
    rw [Table.modify_self default (tick.undo (hs.graph g))]
  | passivation p active => simp [Store.revert]

end Tick

/-! ### Taking back -/

theorem foldl_revert_dropEvents (entries : List StoreEntry) (s : Store) :
    entries.foldl revert s.dropEvents = (entries.foldl revert s).dropEvents := by
  induction entries generalizing s with
  | nil => rfl
  | cons entry rest ih =>
    have h : s.dropEvents.revert entry = (s.revert entry).dropEvents := by
      cases entry <;> rfl
    rw [List.foldl_cons, h, ih, List.foldl_cons]

/-- Waiting events do not matter for undoing. -/
theorem undoTo_dropEvents (s : Store) (c : Checkpoint) :
    s.dropEvents.undoTo c = s.undoTo c := by
  simp only [undoTo]
  have htrail : s.dropEvents.trail = s.trail := rfl
  rw [htrail]
  cases s.trail.undo c with
  | error f => rfl
  | ok r =>
    have h := foldl_revert_dropEvents r.1 { s with trail := r.2 }
    exact congrArg Except.ok ((congrArg dropEvents h).trans rfl)

theorem undoTo_checkpoint (s : Store) : s.undoTo s.checkpoint = .ok s.dropEvents := by
  simp [undoTo, Trail.undo, checkpoint, Trail.checkpoint, Trail.newestSince, Trail.truncate,
    bind, Except.bind, pure, Except.pure]

/-- Undoing past a tick is undoing from before it. -/
theorem Tick.undoTo {entry : StoreEntry} (h : Tick s entry t) (hs : s.Wf) {c : Checkpoint}
    (hc : c.trailLength ≤ s.trail.length) : t.undoTo c = s.undoTo c := by
  have hlen : t.trail.length - c.trailLength = s.trail.length - c.trailLength + 1 := by
    rw [h.trail_eq, Trail.length_push]
    omega
  have hsince : t.trail.newestSince c = entry :: s.trail.newestSince c := by
    rw [Trail.newestSince, hlen, h.trail_eq]
    rfl
  have htruncate : t.trail.truncate c = s.trail.truncate c := by
    rw [Trail.truncate, hlen, h.trail_eq]
    rfl
  have hle : c.trailLength ≤ t.trail.length := by omega
  have hrevert : ({ t with trail := s.trail.truncate c } : Store).revert entry
      = { s with trail := s.trail.truncate c } := by
    have hone : ({ t with trail := s.trail.truncate c } : Store).revert entry
        = { t.revert entry with trail := s.trail.truncate c } := by
      cases entry <;> rfl
    rw [hone, h.revert hs]
  simp only [Store.undoTo, Trail.undo, if_pos hc, if_pos hle, hsince, htruncate,
    bind, Except.bind, pure, Except.pure, List.foldl_cons, hrevert]

theorem Chain.wf {entries : List StoreEntry} (h : Chain Tick s entries t) (hs : s.Wf) : t.Wf :=
  FiniteDomain.Chain.invariant h (fun htick hwf => htick.wf hwf) hs

theorem Chain.trail_length {entries : List StoreEntry} (h : Chain Tick s entries t) :
    t.trail.length = s.trail.length + entries.length := by
  induction h with
  | nil s => rfl
  | cons first _ ih =>
    rw [ih, first.trail_eq, Trail.length_push, List.length_cons]
    omega

theorem Chain.undoTo {entries : List StoreEntry} (h : Chain Tick s entries t) (hs : s.Wf)
    {c : Checkpoint} (hc : c.trailLength ≤ s.trail.length) : t.undoTo c = s.undoTo c := by
  induction h with
  | nil s => rfl
  | cons first _ ih =>
    have hlonger := Nat.le_succ_of_le hc
    rw [← Nat.add_one, ← Trail.length_push, ← first.trail_eq] at hlonger
    rw [ih (first.wf hs) hlonger, first.undoTo hs hc]

/-- The second store comes from the first by recorded changes. -/
def Extends (s t : Store) : Prop := ∃ entries, Chain Tick s.dropEvents entries t.dropEvents

theorem Wf.dropEvents (hs : s.Wf) : s.dropEvents.Wf := ⟨hs.ints, hs.sets, hs.graphs⟩

theorem dropEvents_of_empty (h : s.events = EventSink.empty) : s.dropEvents = s := by
  cases s
  simp_all [Store.dropEvents]

namespace Extends

variable {u : Store}

theorem refl (s : Store) : Extends s s := ⟨[], .nil _⟩

theorem trans (h₁ : Extends s t) (h₂ : Extends t u) : Extends s u := by
  obtain ⟨first, h₁⟩ := h₁
  obtain ⟨second, h₂⟩ := h₂
  exact ⟨first ++ second, h₁.append h₂⟩

theorem of_dropEvents_eq (h : s.dropEvents = t.dropEvents) : Extends s t :=
  ⟨[], h ▸ .nil _⟩

theorem wf (h : Extends s t) (hs : s.Wf) : t.Wf := by
  obtain ⟨entries, h⟩ := h
  have ht := Chain.wf h hs.dropEvents
  exact ⟨ht.ints, ht.sets, ht.graphs⟩

/-- Undoing to a moment in between leads to a store in between. -/
theorem undoTo (h : Extends s t) (hs : s.Wf) {c : Checkpoint}
    (hlow : s.trail.length ≤ c.trailLength) (hhigh : c.trailLength ≤ t.trail.length) :
    ∃ u, t.undoTo c = .ok u ∧ Extends s u ∧ u.trail.length = c.trailLength
      ∧ u.events = EventSink.empty := by
  obtain ⟨entries, h⟩ := h
  have hlen : t.trail.length = s.trail.length + entries.length :=
    Chain.trail_length (s := s.dropEvents) (t := t.dropEvents) h
  obtain ⟨mid, hbefore, hafter⟩ := h.split (c.trailLength - s.trail.length)
  have hmid : mid.trail.length = c.trailLength := by
    have hcount : mid.trail.length = s.trail.length + _ :=
      Chain.trail_length (s := s.dropEvents) hbefore
    rw [hcount, List.length_take]
    omega
  have hwf := Chain.wf hbefore hs.dropEvents
  have hundo : t.undoTo c = .ok mid.dropEvents := by
    rw [← undoTo_dropEvents, Chain.undoTo hafter hwf (Nat.le_of_eq hmid.symm)]
    -- a checkpoint is the length of the trail
    have hc : c = mid.checkpoint := by
      cases c
      exact congrArg Checkpoint.mk hmid.symm
    rw [hc]
    exact undoTo_checkpoint mid
  refine ⟨mid.dropEvents, hundo, ?_, hmid, rfl⟩
  have hsame : mid.dropEvents = mid := by
    apply dropEvents_of_empty
    exact hbefore.invariant (P := fun u => u.events = EventSink.empty)
      (fun htick hu => htick.events_eq.trans hu) rfl
  rw [hsame]
  exact ⟨entries.take (c.trailLength - s.trail.length), hsame.symm ▸ hbefore⟩

/-- Undoing to the start leads to the start. -/
theorem undoTo_checkpoint (h : Extends s t) (hs : s.Wf) :
    t.undoTo s.checkpoint = .ok s.dropEvents := by
  obtain ⟨entries, h⟩ := h
  have hlow : s.checkpoint.trailLength ≤ s.dropEvents.trail.length := Nat.le_refl _
  rw [← undoTo_dropEvents, Chain.undoTo h hs.dropEvents hlow]
  exact Store.undoTo_checkpoint s.dropEvents

end Extends

end Store

end FiniteDomain
