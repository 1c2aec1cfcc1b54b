import FiniteDomain.Proofs.Store.Steps

/-! # Exact narrowings

    Most narrowings keep exactly the valuations that obey their request: none is
    lost and only they are left (`Narrowed.Keeps`).  The exception is to take a
    value out of the middle of a bounded domain, which keeps the domain as it is. -/

namespace FiniteDomain

namespace Narrowed

variable {s : Store} {request request' : Valuation → Prop} {n : Narrowed}

theorem Steps.admits (h : Steps s n) (hs : s.Wf) {a : Valuation} (ha : n.store.Admits a) :
    s.Admits a := by
  by_cases hchanged : n.changed? = some true
  · exact (h.step hchanged).admits hs ha
  · rw [← h.same hchanged]
    exact ha

/-- The valuations that obey the request are kept, and only they are left. -/
structure Keeps (s : Store) (request : Valuation → Prop) (n : Narrowed) : Prop
    extends Obeys s request n where
  /-- What is left obeys the request. -/
  exactly : Exact request n

theorem Keeps.congr (h : Keeps s request n) (hs : s.Wf)
    (hiff : ∀ a, s.Admits a → (request' a ↔ request a)) : Keeps s request' n := by
  refine ⟨h.toObeys.congr hiff, fun hne a ha => ?_⟩
  exact (hiff a (h.admits hs ha)).mpr (h.exactly hne a ha)

theorem keeps_never (h : ∀ a, s.Admits a → ¬ request a) : Keeps s request ⟨none, s⟩ :=
  ⟨obeys_never h, fun hne => absurd rfl hne⟩

/-- A request that is pulled back to another one, or to none if nobody obeys it. -/
theorem keeps_elim {o : Option Int} {narrow : Int → Narrowed} (obeys : Int → Valuation → Prop)
    (hs : s.Wf) (hnarrow : ∀ w, (narrow w).Keeps s (obeys w))
    (hiff : ∀ a, s.Admits a → (o.elim False (obeys · a) ↔ request a)) :
    (o.elim ⟨none, s⟩ narrow).Keeps s request := by
  cases o with
  | none => exact keeps_never fun a ha hr => (hiff a ha).mpr hr
  | some w => exact (hnarrow w).congr hs fun a ha => (hiff a ha).symm

theorem keeps_always (h : ∀ a, s.Admits a → request a) : Keeps s request ⟨some false, s⟩ :=
  ⟨obeys_unchanged s request, fun _ => h⟩

end Narrowed

/-! ### Variables of the store -/

namespace Store

variable {s : Store}

theorem commitInt_keeps (hs : s.Wf) {x : IntId} {request : Int → Prop}
    {o : Outcome IntegerDomain IntegerDomain.Entry}
    (h : IntegerDomain.Narrows (s.int x) request o)
    (hexact : IntegerDomain.ExactFor (s.int x) request o) :
    (s.commitInt x o).Keeps s fun a => request (a.int x) :=
  ⟨commitInt_obeys hs h, commitInt_exact hs h hexact⟩

theorem tightenLower_keeps (hs : s.Wf) (x : IntId) (k : Int) :
    (s.tightenLower x k).Keeps s fun a => k ≤ a.int x :=
  have h := IntegerDomain.tightenLower_narrows (hs.int x) k
  commitInt_keeps hs h.1 h.2

theorem tightenUpper_keeps (hs : s.Wf) (x : IntId) (k : Int) :
    (s.tightenUpper x k).Keeps s fun a => a.int x ≤ k :=
  have h := IntegerDomain.tightenUpper_narrows (hs.int x) k
  commitInt_keeps hs h.1 h.2

theorem instantiate_keeps (hs : s.Wf) (x : IntId) (k : Int) :
    (s.instantiate x k).Keeps s fun a => a.int x = k :=
  have h := IntegerDomain.instantiate_narrows (s.int x) k
  commitInt_keeps hs h.1 h.2

theorem removeValue_obeys (hs : s.Wf) (x : IntId) (k : Int) :
    (s.removeValue x k).Obeys s fun a => a.int x ≠ k :=
  commitInt_obeys hs (IntegerDomain.remove_narrows (hs.int x) k).1

/-- Removing a value is exact unless it lies between the bounds of a bounded domain. -/
theorem removeValue_keeps (hs : s.Wf) {x : IntId} {k : Int}
    (hk : (s.int x).isEnumerated = true ∨ ¬ ((s.int x).lower < k ∧ k < (s.int x).upper)) :
    (s.removeValue x k).Keeps s fun a => a.int x ≠ k :=
  have h := IntegerDomain.remove_narrows (hs.int x) k
  commitInt_keeps hs h.1 (h.2 hk)

theorem removeInterval_obeys (hs : s.Wf) (x : IntId) (lower upper : Int) :
    (s.removeInterval x lower upper).Obeys s fun a => a.int x < lower ∨ upper < a.int x :=
  commitInt_obeys hs (IntegerDomain.removeInterval_narrows (hs.int x) lower upper).1

/-! ### Sets and graphs -/

theorem excludeElement_keeps (hs : s.Wf) (y : SetId) (e : Int) :
    (s.excludeElement y e).Keeps s fun a => e ∉ a.set y :=
  have h := SetDomain.excludeElement_narrows (hs.set y) e
  ⟨commitSet_obeys hs h, commitSet_exact hs h⟩

theorem includeElement_keeps (hs : s.Wf) (y : SetId) (e : Int) :
    (s.includeElement y e).Keeps s fun a => e ∈ a.set y :=
  have h := SetDomain.includeElement_narrows (hs.set y) e
  ⟨commitSet_obeys hs h, commitSet_exact hs h⟩

theorem excludeNode_keeps (hs : s.Wf) (g : GraphId) (n : Nat) :
    (s.excludeNode g n).Keeps s fun a => n ∉ (a.graph g).nodes :=
  have h := GraphDomain.excludeNode_narrows (hs.graph g) n
  ⟨commitGraph_obeys hs h, commitGraph_exact hs h⟩

theorem includeNode_keeps (hs : s.Wf) (g : GraphId) (n : Nat) :
    (s.includeNode g n).Keeps s fun a => n ∈ (a.graph g).nodes :=
  have h := GraphDomain.includeNode_narrows (hs.graph g) n
  ⟨commitGraph_obeys hs h, commitGraph_exact hs h⟩

theorem excludeArc_keeps (hs : s.Wf) (g : GraphId) (m n : Nat) :
    (s.excludeArc g m n).Keeps s fun a => (m, n) ∉ (a.graph g).arcs :=
  have h := GraphDomain.excludeArc_narrows (s.graph g) m n
  ⟨commitGraph_obeys hs h, commitGraph_exact hs h⟩

theorem includeArc_keeps (hs : s.Wf) (g : GraphId) (m n : Nat) :
    (s.includeArc g m n).Keeps s fun a => (m, n) ∈ (a.graph g).arcs :=
  have h := GraphDomain.includeArc_narrows (hs.graph g) m n
  ⟨commitGraph_obeys hs h, commitGraph_exact hs h⟩

end Store

end FiniteDomain
