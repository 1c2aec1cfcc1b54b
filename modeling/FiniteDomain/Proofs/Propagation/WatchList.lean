import FiniteDomain.Propagation.Propagator
import FiniteDomain.Proofs.Table
import Mathlib.Logic.Basic

/-! # Who an event wakes

    A subscription adds one position to those that the events it asks for wake,
    whether the position is new to the variable or asks for more. -/

namespace FiniteDomain

theorem EventSet.meets_union {s t u : EventSet} :
    (s.union t).meets u = true ↔ s.meets u = true ∨ t.meets u = true := by
  simp only [EventSet.meets_iff, EventSet.contains_union, Bool.or_eq_true, or_and_right, exists_or]

/-- The positions whose subscription meets the events. -/
def Subscription.woken (subscriptions : List Subscription) (events : EventSet) :
    List ScopePosition :=
  (subscriptions.filter fun s => s.events.meets events).map (·.position)

theorem Subscription.mem_woken {subscriptions : List Subscription} {events : EventSet}
    {p : ScopePosition} : p ∈ woken subscriptions events ↔
      ∃ s ∈ subscriptions, s.events.meets events = true ∧ s.position = p := by
  simp only [woken, List.mem_map, List.mem_filter, and_assoc]

theorem Subscription.mem_woken_add {subscriptions : List Subscription} {new : Subscription}
    {events : EventSet} {p : ScopePosition} : p ∈ woken (add subscriptions new) events ↔
      p ∈ woken subscriptions events ∨ (p = new.position ∧ new.events.meets events = true) := by
  simp only [mem_woken]
  induction subscriptions with
  | nil =>
    unfold add
    simp only [List.mem_singleton, exists_eq_left, List.not_mem_nil, false_and, exists_false,
      false_or]
    rw [and_comm, eq_comm]
  | cons s rest ih =>
    unfold add
    by_cases heq : s.position = new.position
    · -- the position is there already and gets the union
      rw [if_pos heq]
      simp only [List.mem_cons, exists_eq_or_imp, EventSet.meets_union]
      constructor
      · rintro (⟨hmeets | hmeets, hp⟩ | hrest)
        · exact Or.inl (Or.inl ⟨hmeets, hp⟩)
        · exact Or.inr ⟨(hp.symm.trans heq), hmeets⟩
        · exact Or.inl (Or.inr hrest)
      · rintro ((⟨hmeets, hp⟩ | hrest) | ⟨hp, hmeets⟩)
        · exact Or.inl ⟨Or.inl hmeets, hp⟩
        · exact Or.inr hrest
        · exact Or.inl ⟨Or.inr hmeets, heq.trans hp.symm⟩
    · rw [if_neg heq]
      simp only [List.mem_cons, exists_eq_or_imp]
      rw [ih, or_assoc]

/-- The subscriptions of one kind of variable after one more. -/
theorem getD_subscribe (t : Table (List Subscription)) (key other : Nat) (new : Subscription) :
    ((t.reserve key []).modify key fun subscriptions =>
      Subscription.add subscriptions new).getD other []
      = if key = other then Subscription.add (t.getD other []) new else t.getD other [] := by
  by_cases h : key = other
  · subst h
    rw [if_pos rfl, Table.getD_modify_self (Table.lt_size_reserve ..), Table.getD_reserve]
  · rw [if_neg h, Table.getD_modify_of_ne h, Table.getD_reserve]

namespace WatchList

theorem subscriptions_subscribe (w : WatchList) (v v' : VariableId) (new : Subscription) :
    (w.subscribe v new).subscriptions v' = if v = v' then Subscription.add (w.subscriptions v') new
      else w.subscriptions v' := by
  -- variables of different kinds are in different tables
  cases v with
  | int x =>
    cases v' with
    | int y =>
      refine (getD_subscribe w.ints x.index y.index new).trans (if_congr ?_ rfl rfl)
      exact ⟨fun h => congrArg (fun n => VariableId.int ⟨n⟩) h, fun h => by cases h; rfl⟩
    | set y => rfl
    | graph y => rfl
  | set x =>
    cases v' with
    | int y => rfl
    | set y =>
      refine (getD_subscribe w.sets x.index y.index new).trans (if_congr ?_ rfl rfl)
      exact ⟨fun h => congrArg (fun n => VariableId.set ⟨n⟩) h, fun h => by cases h; rfl⟩
    | graph y => rfl
  | graph x =>
    cases v' with
    | int y => rfl
    | set y => rfl
    | graph y =>
      refine (getD_subscribe w.graphs x.index y.index new).trans (if_congr ?_ rfl rfl)
      exact ⟨fun h => congrArg (fun n => VariableId.graph ⟨n⟩) h, fun h => by cases h; rfl⟩

theorem mem_affected_subscribe {w : WatchList} {v v' : VariableId} {new : Subscription} {e : Event}
    {p : ScopePosition} : p ∈ (w.subscribe v new).affected e v' ↔
      p ∈ w.affected e v'
        ∨ (v = v' ∧ p = new.position ∧ new.events.meets e.wakes = true) := by
  show p ∈ Subscription.woken _ _ ↔ p ∈ Subscription.woken _ _ ∨ _
  rw [subscriptions_subscribe]
  by_cases h : v = v'
  · rw [if_pos h, Subscription.mem_woken_add]
    simp only [h, true_and]
  · rw [if_neg h]
    simp only [h, false_and, or_false]

/-- Subscribing for a list of watches of one propagator. -/
theorem mem_affected_subscribeAll {id : PropagatorId} {watches : List Watch} {w : WatchList}
    {v : VariableId} {e : Event} {p : ScopePosition} :
    p ∈ (watches.foldl (fun w watch => w.subscribe watch.target
        ⟨⟨id, watch.position⟩, watch.events⟩) w).affected e v ↔
      p ∈ w.affected e v ∨ ∃ watch ∈ watches, watch.target = v ∧ p = ⟨id, watch.position⟩
        ∧ watch.events.meets e.wakes = true := by
  induction watches generalizing w with
  | nil => simp
  | cons watch rest ih =>
    rw [List.foldl_cons, ih, mem_affected_subscribe, or_assoc]
    simp only [List.mem_cons, exists_eq_or_imp]

end WatchList

end FiniteDomain
