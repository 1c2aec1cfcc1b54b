import FiniteDomain.Narrowing
import FiniteDomain.Proofs.Store.Narrowing

/-! # Undoing is exact

    A store is built by adding variables and from then on it is narrowed, it
    takes note of passive propagators, and it goes back to earlier checkpoints.
    Whatever happens after a checkpoint, going back to it restores the store of
    that moment: every domain as it was represented, the passive propagators and
    the trail; no event is waiting. -/

namespace FiniteDomain

open Store

/-! ### Every narrowing is a step -/

namespace IntVar

variable {s : Store}

theorem tighten_steps (x : IntVar) (hs : s.Wf) :
    ∀ k, (x.tightenLower s k).Steps s ∧ (x.tightenUpper s k).Steps s := by
  induction x with
  | plain y =>
    intro k
    have hlower := (IntegerDomain.tightenLower_narrows (hs.int y) k).1
    have hupper := (IntegerDomain.tightenUpper_narrows (hs.int y) k).1
    exact ⟨(commitInt_obeys hs hlower).toSteps, (commitInt_obeys hs hupper).toSteps⟩
  | view inner map ih =>
    intro k
    -- a bound that cannot be pulled back leaves the store alone
    have hnone : (⟨none, s⟩ : Narrowed).Steps s := Narrowed.steps_unchanged s (by simp)
    have hlower : ((map.pullLower? k).elim ⟨none, s⟩ (inner.tightenLower s)).Steps s := by
      cases map.pullLower? k with
      | none => exact hnone
      | some w => exact (ih w).1
    have hupper : ((map.pullUpper? k).elim ⟨none, s⟩ (inner.tightenUpper s)).Steps s := by
      cases map.pullUpper? k with
      | none => exact hnone
      | some w => exact (ih w).2
    simp only [tightenLower, tightenUpper]
    cases map.reverses with
    | true => exact ⟨hupper, hlower⟩
    | false => exact ⟨hlower, hupper⟩

theorem removeValue_steps (x : IntVar) (hs : s.Wf) (k : Int) : (x.removeValue s k).Steps s := by
  induction x generalizing k with
  | plain y =>
    exact (commitInt_obeys hs (IntegerDomain.remove_narrows (hs.int y) k).1).toSteps
  | view inner map ih =>
    simp only [removeValue]
    cases map.preimage? k with
    | none => exact Narrowed.steps_unchanged s (by simp)
    | some w => exact ih w

theorem instantiate_steps (x : IntVar) (hs : s.Wf) (k : Int) : (x.instantiate s k).Steps s := by
  induction x generalizing k with
  | plain y =>
    exact (commitInt_obeys hs (IntegerDomain.instantiate_narrows (s.int y) k).1).toSteps
  | view inner map ih =>
    simp only [instantiate]
    cases map.preimage? k with
    | none => exact Narrowed.steps_unchanged s (by simp)
    | some w => exact ih w

theorem removeInterval_steps (x : IntVar) (hs : s.Wf) (lower upper : Int) :
    (x.removeInterval s lower upper).Steps s := by
  unfold removeInterval
  cases x.pullInterval? lower upper with
  | none => exact Narrowed.steps_unchanged s (by simp)
  | some r =>
    exact (commitInt_obeys hs
      (IntegerDomain.removeInterval_narrows (hs.int x.base) r.1 r.2).1).toSteps

end IntVar

namespace Store

variable {s t : Store}

theorem impose_steps (hs : s.Wf) (p : Predicate) : (s.impose p).Steps s := by
  cases p with
  | atLeast x k => exact ((IntVar.plain x).tighten_steps hs k).1
  | atMost x k => exact ((IntVar.plain x).tighten_steps hs k).2
  | differs x k => exact (IntVar.plain x).removeValue_steps hs k
  | equals x k => exact (IntVar.plain x).instantiate_steps hs k
  | always => exact Narrowed.steps_unchanged s (by simp)
  | never => exact Narrowed.steps_unchanged s (by simp)

end Store

/-- Whatever the request, the store is left alone or makes one step. -/
theorem Narrowing.apply_steps {s : Store} (hs : s.Wf) (request : Narrowing) :
    (request.apply s).Steps s := by
  cases request with
  | tightenLower x k => exact (x.tighten_steps hs k).1
  | tightenUpper x k => exact (x.tighten_steps hs k).2
  | removeValue x k => exact x.removeValue_steps hs k
  | removeInterval x lower upper => exact x.removeInterval_steps hs lower upper
  | instantiate x k => exact x.instantiate_steps hs k
  | impose p => exact impose_steps hs p
  | excludeElement y e =>
    exact (commitSet_obeys hs (SetDomain.excludeElement_narrows (hs.set y) e)).toSteps
  | includeElement y e =>
    exact (commitSet_obeys hs (SetDomain.includeElement_narrows (hs.set y) e)).toSteps
  | excludeNode g n =>
    exact (commitGraph_obeys hs (GraphDomain.excludeNode_narrows (hs.graph g) n)).toSteps
  | includeNode g n =>
    exact (commitGraph_obeys hs (GraphDomain.includeNode_narrows (hs.graph g) n)).toSteps
  | excludeArc g tail head =>
    exact (commitGraph_obeys hs (GraphDomain.excludeArc_narrows (s.graph g) tail head)).toSteps
  | includeArc g tail head =>
    exact (commitGraph_obeys hs (GraphDomain.includeArc_narrows (hs.graph g) tail head)).toSteps

namespace Store

/-! ### Runs -/

/-- What can be done with a store once its variables are there. -/
inductive Move where
  /-- A domain is narrowed, or the attempt fails. -/
  | narrow (request : Narrowing)
  /-- A propagator is noted as passive. -/
  | passivate (p : PropagatorId)
  /-- The waiting events are fetched. -/
  | fetch
  /-- The store goes back to a checkpoint. -/
  | undo (c : Checkpoint)

/-- Carries out a move. -/
def Move.perform (s : Store) : Move → Except Fault Store
  | .narrow request => do return (← request.run s).store
  | .passivate p => return s.passivate p
  | .fetch => return s.dropEvents
  | .undo c => s.undoTo c

/-- The move does not go back behind the checkpoint. -/
def Move.Since (c : Checkpoint) : Move → Prop
  | .undo c' => c.trailLength ≤ c'.trailLength
  | _ => True

instance (c : Checkpoint) (m : Move) : Decidable (m.Since c) := by
  cases m <;> unfold Move.Since <;> infer_instance

/-- Carries out moves one after the other. -/
def perform (s : Store) : List Move → Except Fault Store
  | [] => return s
  | m :: rest => do (← m.perform s).perform rest

variable {s t u : Store}

/-- A move that does not go back behind a moment leads to a store that extends the one of that
    moment. -/
theorem Move.extends {m : Move} (hs : s.Wf) (hext : s.Extends t)
    (hsince : m.Since s.checkpoint) (h : m.perform t = .ok u) : s.Extends u := by
  cases m with
  | narrow request =>
    simp only [Move.perform, Narrowing.run, bind, Except.bind, pure, Except.pure] at h
    split at h
    · cases h
    next n hn =>
      obtain rfl := Except.ok.inj h
      split at hn
      · cases hn
      obtain rfl := Except.ok.inj hn
      have hsteps := Narrowing.apply_steps (hext.wf hs) request
      -- a narrowing is a step of the store, or it changes nothing
      by_cases hc : (request.apply t).changed? = some true
      · exact hext.trans (hsteps.step hc).extends
      · rw [hsteps.same hc]
        exact hext
  | passivate p =>
    obtain rfl := Except.ok.inj h
    exact hext.trans (extends_passivate t p)
  | fetch =>
    obtain rfl := Except.ok.inj h
    exact hext.trans (.of_dropEvents_eq rfl)
  | undo c =>
    have hhigh : c.trailLength ≤ t.trail.length := by
      by_contra hlt
      simp [Move.perform, undoTo, Trail.undo, hlt, bind, Except.bind] at h
    -- it goes back to a moment after the checkpoint, which the store still extends
    obtain ⟨v, hv, hsv, -⟩ := hext.undoTo hs hsince hhigh
    obtain rfl : v = u := Except.ok.inj (hv.symm.trans h)
    exact hsv

theorem perform_extends {moves : List Move} (hs : s.Wf) (hext : s.Extends t)
    (hsince : ∀ m ∈ moves, m.Since s.checkpoint) (h : t.perform moves = .ok u) :
    s.Extends u := by
  induction moves generalizing t with
  | nil =>
    obtain rfl := Except.ok.inj h
    exact hext
  | cons m rest ih =>
    simp only [perform, bind, Except.bind] at h
    split at h
    · cases h
    next v hv =>
      exact ih (m.extends hs hext (hsince m (List.mem_cons_self ..)) hv)
        (fun m' hm' => hsince m' (List.mem_cons_of_mem _ hm')) h

/-! ### Adding variables -/

theorem Tick.addInt {entry : StoreEntry} (h : Tick s entry t) (d : IntegerDomain) :
    Tick (s.addInt d).2 entry (t.addInt d).2 := by
  cases h with
  | int x known tick =>
    have hread : (s.addInt d).2.int x = s.int x := Table.getD_push_of_lt known _ _
    have htick := Tick.int (s := (s.addInt d).2) x
      (by simpa [Store.addInt] using Nat.lt_succ_of_lt known) (hread.symm ▸ tick)
    simpa only [Store.addInt, Table.modify_push known] using htick
  | set y known tick => exact .set (s := (s.addInt d).2) y known tick
  | graph g known tick => exact .graph (s := (s.addInt d).2) g known tick
  | passivation p active => exact .passivation (s := (s.addInt d).2) p active

theorem Tick.addSet {entry : StoreEntry} (h : Tick s entry t) (d : SetDomain) :
    Tick (s.addSet d).2 entry (t.addSet d).2 := by
  cases h with
  | int x known tick => exact .int (s := (s.addSet d).2) x known tick
  | set y known tick =>
    have hread : (s.addSet d).2.set y = s.set y := Table.getD_push_of_lt known _ _
    have htick := Tick.set (s := (s.addSet d).2) y
      (by simpa [Store.addSet] using Nat.lt_succ_of_lt known) (hread.symm ▸ tick)
    simpa only [Store.addSet, Table.modify_push known] using htick
  | graph g known tick => exact .graph (s := (s.addSet d).2) g known tick
  | passivation p active => exact .passivation (s := (s.addSet d).2) p active

theorem Tick.addGraph {entry : StoreEntry} (h : Tick s entry t) (d : GraphDomain) :
    Tick (s.addGraph d).2 entry (t.addGraph d).2 := by
  cases h with
  | int x known tick => exact .int (s := (s.addGraph d).2) x known tick
  | set y known tick => exact .set (s := (s.addGraph d).2) y known tick
  | graph g known tick =>
    have hread : (s.addGraph d).2.graph g = s.graph g := Table.getD_push_of_lt known _ _
    have htick := Tick.graph (s := (s.addGraph d).2) g
      (by simpa [Store.addGraph] using Nat.lt_succ_of_lt known) (hread.symm ▸ tick)
    simpa only [Store.addGraph, Table.modify_push known] using htick
  | passivation p active => exact .passivation (s := (s.addGraph d).2) p active

/-- A change of stores that goes along with ticks and events goes along with extending. -/
theorem Extends.map {f : Store → Store}
    (htick : ∀ {s entry t}, Tick s entry t → Tick (f s) entry (f t))
    (hevents : ∀ s, (f s).dropEvents = f s.dropEvents) (h : s.Extends t) :
    (f s).Extends (f t) := by
  obtain ⟨entries, h⟩ := h
  refine ⟨entries, ?_⟩
  rw [hevents, hevents]
  exact h.map (R := Tick) (fun ht => htick ht)

/-! ### Reachable stores -/

/-- The store extends a well-formed one without trail. -/
def Traced (s : Store) : Prop := ∃ root : Store, root.Wf ∧ root.trail = Trail.empty ∧ root.Extends s

theorem Traced.wf (h : Traced s) : s.Wf := by
  obtain ⟨root, hroot, -, hext⟩ := h
  exact hext.wf hroot

theorem Traced.perform {m : Move} (hs : Traced s) (h : m.perform s = .ok t) : Traced t := by
  obtain ⟨root, hroot, hempty, hext⟩ := hs
  refine ⟨root, hroot, hempty, m.extends hroot hext ?_ h⟩
  have hzero : root.checkpoint.trailLength = 0 := by
    simp [checkpoint, Trail.checkpoint, Trail.length, hempty, Trail.empty]
  cases m with
  | undo c => exact hzero.le.trans (Nat.zero_le _)
  | narrow request => trivial
  | passivate p => trivial
  | fetch => trivial

/-- The stores that can be built: variables are added and moves are made, in any order.  Listed
    values and elements are in ascending order, and bounds are values. -/
inductive Reachable : Store → Prop where
  /-- No variables. -/
  | empty : Reachable Store.empty
  /-- An interval of values. -/
  | addBounded {s : Store} (hs : Reachable s) {lower upper : Int} (h : lower ≤ upper)
      (hlower : Width.value.Fits lower) (hupper : Width.value.Fits upper) :
      Reachable (s.addInt (IntegerDomain.bounded lower upper)).2
  /-- Listed values. -/
  | addEnumerated {s : Store} (hs : Reachable s) {values : List Int} {d : IntegerDomain}
      (hsorted : values.Pairwise (· < ·)) (h : IntegerDomain.enumerated values = .ok d) :
      Reachable (s.addInt d).2
  /-- Subsets of the listed elements. -/
  | addSet {s : Store} (hs : Reachable s) {elements : List Int}
      (hsorted : elements.Pairwise (· < ·)) :
      Reachable (s.addSet (SetDomain.subsetsOf elements)).2
  /-- Graphs with arcs among the listed ones. -/
  | addGraph {s : Store} (hs : Reachable s) {order : Nat} {arcs : List (Nat × Nat)}
      {d : GraphDomain} (h : GraphDomain.subgraphsOf order arcs = .ok d) :
      Reachable (s.addGraph d).2
  /-- Any move that does not end in a fault. -/
  | move {s t : Store} (hs : Reachable s) (m : Move) (h : m.perform s = .ok t) : Reachable t

theorem Reachable.traced (h : Reachable s) : Traced s := by
  induction h with
  | empty => exact ⟨Store.empty, wf_empty, rfl, .refl _⟩
  | addBounded hs h hlower hupper ih =>
    obtain ⟨root, hroot, hempty, hext⟩ := ih
    have hspan := IntegerDomain.bounded_wf h (by
      obtain ⟨h₁, h₂⟩ := hlower
      obtain ⟨h₃, h₄⟩ := hupper
      simp only [Width.value] at h₁ h₂ h₃ h₄
      omega)
    exact ⟨_, hroot.addInt hspan, hempty,
      hext.map (f := fun s => (s.addInt _).2) (fun h => h.addInt _) fun _ => rfl⟩
  | addEnumerated hs hsorted h ih =>
    obtain ⟨root, hroot, hempty, hext⟩ := ih
    exact ⟨_, hroot.addInt (IntegerDomain.enumerated_wf hsorted h), hempty,
      hext.map (f := fun s => (s.addInt _).2) (fun h => h.addInt _) fun _ => rfl⟩
  | addSet hs hsorted ih =>
    obtain ⟨root, hroot, hempty, hext⟩ := ih
    exact ⟨_, hroot.addSet (SetDomain.subsetsOf_wf hsorted), hempty,
      hext.map (f := fun s => (s.addSet _).2) (fun h => h.addSet _) fun _ => rfl⟩
  | addGraph hs h ih =>
    obtain ⟨root, hroot, hempty, hext⟩ := ih
    exact ⟨_, hroot.addGraph (GraphDomain.subgraphsOf_spec h).1, hempty,
      hext.map (f := fun s => (s.addGraph _).2) (fun h => h.addGraph _) fun _ => rfl⟩
  | move hs m h ih => exact ih.perform h

/-- Going back to a checkpoint restores the store of that moment, whatever was done since. -/
theorem undoTo_perform {moves : List Move} (hs : Reachable s)
    (hsince : ∀ m ∈ moves, m.Since s.checkpoint) (h : s.perform moves = .ok t) :
    ∃ u, t.undoTo s.checkpoint = .ok u ∧ u.ints = s.ints ∧ u.sets = s.sets
      ∧ u.graphs = s.graphs ∧ (∀ p, u.isPassive p = s.isPassive p)
      ∧ u.trail.length = s.checkpoint.trailLength ∧ u.events = EventSink.empty := by
  have hwf := hs.traced.wf
  have hext := perform_extends hwf (.refl s) hsince h
  exact ⟨s.dropEvents, hext.undoTo_checkpoint hwf, rfl, rfl, rfl, fun _ => rfl, rfl, rfl⟩

/-- An interval, a set and a graph, with the interval narrowed. -/
def mixed : Store :=
  let s := (Store.empty.addInt (IntegerDomain.bounded 0 5)).2
  let s := (s.addSet (SetDomain.subsetsOf [1, 2, 4])).2
  let s := (s.addGraph ⟨2, (Digraph.discrete 2).insertArcs [(0, 1), (1, 0)], Digraph.empty 2⟩).2
  (s.tightenLower ⟨0⟩ 1).store

theorem mixed_reachable : Reachable mixed :=
  .move (.addGraph (.addSet (.addBounded .empty (by decide) (by decide) (by decide))
    (by decide)) (show GraphDomain.subgraphsOf 2 [(0, 1), (1, 0)] = .ok _ from rfl))
    (.narrow (.tightenLower (.plain ⟨0⟩) 1)) rfl

theorem undoTo_perform_mixed :
    ∃ t u, mixed.perform [.narrow (.tightenUpper (.plain ⟨0⟩) 3), .narrow (.excludeNode ⟨0⟩ 1),
        .passivate ⟨0⟩, .undo ⟨2⟩, .narrow (.includeElement ⟨0⟩ 4), .fetch,
        .narrow (.instantiate (.plain ⟨0⟩) 9)] = .ok t
      ∧ t.undoTo mixed.checkpoint = .ok u ∧ u.ints = mixed.ints ∧ u.sets = mixed.sets
      ∧ u.graphs = mixed.graphs ∧ u.trail.length = 1 ∧ u.events = EventSink.empty := by
  have hsince : ∀ m ∈ ([.narrow (.tightenUpper (.plain ⟨0⟩) 3), .narrow (.excludeNode ⟨0⟩ 1),
      .passivate ⟨0⟩, .undo ⟨2⟩, .narrow (.includeElement ⟨0⟩ 4), .fetch,
      .narrow (.instantiate (.plain ⟨0⟩) 9)] : List Move), m.Since mixed.checkpoint := by decide
  obtain ⟨u, hundo, hints, hsets, hgraphs, -, hlength, hevents⟩ :=
    undoTo_perform mixed_reachable hsince rfl
  exact ⟨_, u, rfl, hundo, hints, hsets, hgraphs, hlength, hevents⟩

end Store

end FiniteDomain
