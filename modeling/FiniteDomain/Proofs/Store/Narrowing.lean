import FiniteDomain.Proofs.Store.Step

/-! # Narrowings of a store

    `Narrowed.Steps` says what the answer to a narrowing can be: the store is left
    alone unless something changed, and then it made one step.  `Narrowed.Obeys`
    adds the meaning: the valuations that obey the request are kept, and if a
    domain would become empty there are none. -/

namespace FiniteDomain

namespace Narrowed

/-- The store is left alone unless something changed; a change is a step. -/
structure Steps (s : Store) (n : Narrowed) : Prop where
  step : n.changed? = some true → s.Step n.store
  same : n.changed? ≠ some true → n.store = s

/-- The valuations that obey the request are kept. -/
structure Obeys (s : Store) (request : Valuation → Prop) (n : Narrowed) : Prop
    extends Steps s n where
  /-- A domain becomes empty only if no valuation obeys the request. -/
  empty : n.changed? = none → ∀ a, s.Admits a → ¬ request a
  /-- No valuation that obeys the request is lost. -/
  kept : ∀ a, s.Admits a → request a → n.store.Admits a

/-- Only valuations that obey the request are left. -/
def Exact (request : Valuation → Prop) (n : Narrowed) : Prop :=
  n.changed? ≠ none → ∀ a, n.store.Admits a → request a

variable {s : Store} {request request' : Valuation → Prop} {n : Narrowed}

theorem steps_unchanged (s : Store) {c : Option Bool} (h : c ≠ some true) :
    Steps s ⟨c, s⟩ :=
  ⟨fun h' => absurd h' h, fun _ => rfl⟩

/-- A request can be replaced by one that agrees with it on the valuations of the store. -/
theorem Obeys.congr (h : Obeys s request n) (hiff : ∀ a, s.Admits a → (request' a ↔ request a)) :
    Obeys s request' n where
  step := h.step
  same := h.same
  empty := fun hn a ha hr => h.empty hn a ha ((hiff a ha).mp hr)
  kept := fun a ha hr => h.kept a ha ((hiff a ha).mp hr)

/-- Nobody obeys the request. -/
theorem obeys_never (h : ∀ a, s.Admits a → ¬ request a) : Obeys s request ⟨none, s⟩ where
  step := fun h' => by cases h'
  same := fun _ => rfl
  empty := fun _ => h
  kept := fun _ ha _ => ha

/-- Everybody may stay. -/
theorem obeys_unchanged (s : Store) (request : Valuation → Prop) :
    Obeys s request ⟨some false, s⟩ where
  step := fun h' => by cases h'
  same := fun _ => rfl
  empty := fun h' => by cases h'
  kept := fun _ ha _ => ha

end Narrowed

namespace Store

variable {s t : Store}

/-! ### Changes and what is admitted -/

theorem admits_changeInt {x : IntId} (known : x.index < s.ints.size) {d : IntegerDomain}
    {entries : List IntegerDomain.Entry} {a : Valuation} :
    (s.changeInt x d entries).Admits a
      ↔ d.contains (a.int x) = true ∧ (∀ z, z ≠ x → (s.int z).contains (a.int z) = true)
        ∧ (∀ y, (s.set y).Admits (a.set y)) ∧ ∀ g, (s.graph g).Admits (a.graph g) := by
  constructor
  · intro h
    refine ⟨?_, fun z hz => ?_, h.set, h.graph⟩
    · rw [← int_changeInt known d entries]
      exact h.int x
    · rw [← int_changeInt_of_ne hz d entries]
      exact h.int z
  · rintro ⟨hx, hz, hset, hgraph⟩
    refine ⟨fun z => ?_, hset, hgraph⟩
    by_cases heq : z = x
    · subst heq
      rw [int_changeInt known]
      exact hx
    · rw [int_changeInt_of_ne heq]
      exact hz z heq

theorem admits_changeSet {y : SetId} (known : y.index < s.sets.size) {d : SetDomain}
    {entries : List SetDomain.Entry} {a : Valuation} :
    (s.changeSet y d entries).Admits a
      ↔ (∀ x, (s.int x).contains (a.int x) = true) ∧ d.Admits (a.set y)
        ∧ (∀ z, z ≠ y → (s.set z).Admits (a.set z)) ∧ ∀ g, (s.graph g).Admits (a.graph g) := by
  constructor
  · intro h
    refine ⟨h.int, ?_, fun z hz => ?_, h.graph⟩
    · rw [← set_changeSet known d entries]
      exact h.set y
    · rw [← set_changeSet_of_ne hz d entries]
      exact h.set z
  · rintro ⟨hint, hy, hz, hgraph⟩
    refine ⟨hint, fun z => ?_, hgraph⟩
    by_cases heq : z = y
    · subst heq
      rw [set_changeSet known]
      exact hy
    · rw [set_changeSet_of_ne heq]
      exact hz z heq

theorem admits_changeGraph {g : GraphId} (known : g.index < s.graphs.size) {d : GraphDomain}
    {entries : List GraphDomain.Entry} {a : Valuation} :
    (s.changeGraph g d entries).Admits a
      ↔ (∀ x, (s.int x).contains (a.int x) = true) ∧ (∀ y, (s.set y).Admits (a.set y))
        ∧ d.Admits (a.graph g) ∧ ∀ z, z ≠ g → (s.graph z).Admits (a.graph z) := by
  constructor
  · intro h
    refine ⟨h.int, h.set, ?_, fun z hz => ?_⟩
    · rw [← graph_changeGraph known d entries]
      exact h.graph g
    · rw [← graph_changeGraph_of_ne hz d entries]
      exact h.graph z
  · rintro ⟨hint, hset, hg, hz⟩
    refine ⟨hint, hset, fun z => ?_⟩
    by_cases heq : z = g
    · subst heq
      rw [graph_changeGraph known]
      exact hg
    · rw [graph_changeGraph_of_ne heq]
      exact hz z heq

theorem admits_raised {e : Event} {v : VariableId} {a : Valuation} :
    (s.raised e v).Admits a ↔ s.Admits a :=
  ⟨fun h => ⟨h.int, h.set, h.graph⟩, fun h => ⟨h.int, h.set, h.graph⟩⟩

/-- A change that removes values only removes valuations. -/
theorem Admits.of_changeInt {x : IntId} {d : IntegerDomain} {entries : List IntegerDomain.Entry}
    {a : Valuation} (ha : (s.changeInt x d entries).Admits a) (known : x.index < s.ints.size)
    (hd : ∀ v, d.contains v = true → (s.int x).contains v = true) : s.Admits a := by
  obtain ⟨hx, hz, hset, hgraph⟩ := (admits_changeInt known).mp ha
  refine ⟨fun z => ?_, hset, hgraph⟩
  by_cases heq : z = x
  · exact heq ▸ hd _ hx
  · exact hz z heq

theorem Admits.of_changeSet {y : SetId} {d : SetDomain} {entries : List SetDomain.Entry}
    {a : Valuation} (ha : (s.changeSet y d entries).Admits a) (known : y.index < s.sets.size)
    (hd : ∀ c, d.Admits c → (s.set y).Admits c) : s.Admits a := by
  obtain ⟨hint, hy, hz, hgraph⟩ := (admits_changeSet known).mp ha
  refine ⟨hint, fun z => ?_, hgraph⟩
  by_cases heq : z = y
  · exact heq ▸ hd _ hy
  · exact hz z heq

theorem Admits.of_changeGraph {g : GraphId} {d : GraphDomain} {entries : List GraphDomain.Entry}
    {a : Valuation} (ha : (s.changeGraph g d entries).Admits a) (known : g.index < s.graphs.size)
    (hd : ∀ c, d.Admits c → (s.graph g).Admits c) : s.Admits a := by
  obtain ⟨hint, hset, hg, hz⟩ := (admits_changeGraph known).mp ha
  refine ⟨hint, hset, fun z => ?_⟩
  by_cases heq : z = g
  · exact heq ▸ hd _ hg
  · exact hz z heq

/-- A step only removes valuations. -/
theorem Step.admits (h : Step s t) (hs : s.Wf) {a : Valuation} (ha : t.Admits a) :
    s.Admits a := by
  cases h with
  | int x known chain changes reports =>
    exact (admits_raised.mp ha).of_changeInt known fun v hv => chain.narrows IntegerDomain.decreasing (hs.int x) hv
  | set y known chain changes reports =>
    exact (admits_raised.mp ha).of_changeSet known fun c hc => chain.narrows SetDomain.decreasing (hs.set y) hc
  | graph g known chain changes reports =>
    exact (admits_raised.mp ha).of_changeGraph known fun c hc =>
      chain.narrows GraphDomain.decreasing (hs.graph g) hc

/-! ### Changes lower the slack -/

theorem Chain.size_lt {d d' : IntegerDomain} {entries : List IntegerDomain.Entry}
    (h : Chain IntegerDomain.Tick d entries d') (hd : d.Wf) (hne : entries ≠ []) :
    d'.size < d.size := by
  have hle := h.measure_le (P := IntegerDomain.Wf) (m := IntegerDomain.size)
    (fun ht hd => ⟨ht.wf hd, ht.size_lt hd⟩) hd
  have hpos := List.length_pos_of_ne_nil hne
  omega

theorem Chain.optional_lt {d d' : SetDomain} {entries : List SetDomain.Entry}
    (h : Chain SetDomain.Tick d entries d') (hd : d.Wf) (hne : entries ≠ []) :
    d'.slack < d.slack := by
  have hle := h.measure_le (P := SetDomain.Wf) (m := SetDomain.slack)
    (fun ht hd => ⟨ht.wf hd, ht.optional_lt hd⟩) hd
  have hpos := List.length_pos_of_ne_nil hne
  omega

theorem Chain.slack_lt {d d' : GraphDomain} {entries : List GraphDomain.Entry}
    (h : Chain GraphDomain.Tick d entries d') (hd : d.Wf) (hne : entries ≠ []) :
    d'.slack < d.slack := by
  have hle := h.measure_le (P := GraphDomain.Wf) (m := GraphDomain.slack)
    (fun ht hd => ⟨ht.wf hd, ht.slack_lt hd⟩) hd
  have hpos := List.length_pos_of_ne_nil hne
  omega

/-- Every change lowers the slack. -/
theorem Step.slack_lt (h : Step s t) (hs : s.Wf) : t.slack < s.slack := by
  cases h with
  | @int x d entries e known chain changes reports =>
    have hlt := Table.total_modify_lt known IntegerDomain.size default
      (Chain.size_lt chain (hs.int x) changes)
    exact Nat.add_lt_add_right (Nat.add_lt_add_right hlt _) _
  | @set y d entries e known chain changes reports =>
    have hlt := Table.total_modify_lt known SetDomain.slack default
      (Chain.optional_lt chain (hs.set y) changes)
    exact Nat.add_lt_add_right (Nat.add_lt_add_left hlt _) _
  | @graph g d entries e known chain changes reports =>
    have hlt := Table.total_modify_lt known GraphDomain.slack default
      (Chain.slack_lt chain (hs.graph g) changes)
    exact Nat.add_lt_add_left hlt _

/-! ### Carrying out an outcome -/

/-- A variable that does not exist has one content, which cannot be taken away. -/
theorem known_of_chain_int {x : IntId} {d : IntegerDomain} {entries : List IntegerDomain.Entry}
    (h : Chain IntegerDomain.Tick (s.int x) entries d) (hne : entries ≠ []) (hs : s.Wf) :
    x.index < s.ints.size := by
  by_contra hge
  have hdefault : s.int x = default := Table.getD_of_size_le (Nat.le_of_not_lt hge) _
  have hlt := Chain.size_lt h (hs.int x) hne
  have hpos := (FiniteDomain.Chain.invariant h (fun ht hd => ht.wf hd) (hs.int x)).size_pos
  rw [hdefault] at hlt
  have hone : (default : IntegerDomain).size = 1 := rfl
  omega

theorem known_of_chain_set {y : SetId} {d : SetDomain} {entries : List SetDomain.Entry}
    (h : Chain SetDomain.Tick (s.set y) entries d) (hne : entries ≠ []) (hs : s.Wf) :
    y.index < s.sets.size := by
  by_contra hge
  have hdefault : s.set y = default := Table.getD_of_size_le (Nat.le_of_not_lt hge) _
  have hlt := Chain.optional_lt h (hs.set y) hne
  rw [hdefault] at hlt
  exact Nat.not_lt_zero _ hlt

theorem known_of_chain_graph {g : GraphId} {d : GraphDomain} {entries : List GraphDomain.Entry}
    (h : Chain GraphDomain.Tick (s.graph g) entries d) (hne : entries ≠ []) (hs : s.Wf) :
    g.index < s.graphs.size := by
  by_contra hge
  have hdefault : s.graph g = default := Table.getD_of_size_le (Nat.le_of_not_lt hge) _
  have hlt := Chain.slack_lt h (hs.graph g) hne
  rw [hdefault] at hlt
  exact Nat.not_lt_zero _ hlt

theorem commitInt_obeys (hs : s.Wf) {x : IntId} {request : Int → Prop}
    {o : Outcome IntegerDomain IntegerDomain.Entry}
    (h : IntegerDomain.Narrows (s.int x) request o) :
    (s.commitInt x o).Obeys s fun a => request (a.int x) := by
  cases o with
  | empty => exact Narrowed.obeys_never fun a ha hr => h.obeys _ (ha.int x) hr
  | unchanged => exact Narrowed.obeys_unchanged s _
  | changed d entries e =>
    obtain ⟨chain, hne, hkept⟩ := h.obeys
    have known := known_of_chain_int chain hne hs
    refine ⟨⟨fun _ => .int x known chain hne h.reports, fun h' => absurd rfl h'⟩,
      nofun, fun a ha hr => ?_⟩
    exact admits_raised.mpr ((admits_changeInt known).mpr
      ⟨hkept _ (ha.int x) hr, fun z _ => ha.int z, ha.set, ha.graph⟩)

theorem commitSet_obeys (hs : s.Wf) {y : SetId} {request : Set Int → Prop}
    {o : Outcome SetDomain SetDomain.Entry} (h : SetDomain.Narrows (s.set y) request o) :
    (s.commitSet y o).Obeys s fun a => request (a.set y) := by
  cases o with
  | empty => exact Narrowed.obeys_never fun a ha hr => h.obeys _ (ha.set y) hr
  | unchanged => exact Narrowed.obeys_unchanged s _
  | changed d entries e =>
    obtain ⟨chain, hne, hkept⟩ := h.obeys
    have known := known_of_chain_set chain hne hs
    refine ⟨⟨fun _ => .set y known chain hne h.reports, fun h' => absurd rfl h'⟩,
      nofun, fun a ha hr => ?_⟩
    exact admits_raised.mpr ((admits_changeSet known).mpr
      ⟨ha.int, hkept _ (ha.set y) hr, fun z _ => ha.set z, ha.graph⟩)

theorem commitGraph_obeys (hs : s.Wf) {g : GraphId} {request : Subgraph → Prop}
    {o : Outcome GraphDomain GraphDomain.Entry}
    (h : GraphDomain.Narrows (s.graph g) request o) :
    (s.commitGraph g o).Obeys s fun a => request (a.graph g) := by
  cases o with
  | empty => exact Narrowed.obeys_never fun a ha hr => h.obeys _ (ha.graph g) hr
  | unchanged => exact Narrowed.obeys_unchanged s _
  | changed d entries e =>
    obtain ⟨chain, hne, hkept⟩ := h.obeys
    have known := known_of_chain_graph chain hne hs
    refine ⟨⟨fun _ => .graph g known chain hne h.reports, fun h' => absurd rfl h'⟩,
      nofun, fun a ha hr => ?_⟩
    exact admits_raised.mpr ((admits_changeGraph known).mpr
      ⟨ha.int, ha.set, hkept _ (ha.graph g) hr, fun z _ => ha.graph z⟩)

theorem commitInt_exact (hs : s.Wf) {x : IntId} {request : Int → Prop}
    {o : Outcome IntegerDomain IntegerDomain.Entry}
    (h : IntegerDomain.Narrows (s.int x) request o)
    (hexact : IntegerDomain.ExactFor (s.int x) request o) :
    (s.commitInt x o).Exact fun a => request (a.int x) := by
  cases o with
  | empty => exact fun h' => absurd rfl h'
  | unchanged => exact fun _ a ha => hexact _ (ha.int x)
  | changed d entries e =>
    obtain ⟨chain, hne, -⟩ := h.obeys
    have known := known_of_chain_int chain hne hs
    exact fun _ a ha => hexact _ ((admits_changeInt known).mp (admits_raised.mp ha)).1

theorem commitSet_exact (hs : s.Wf) {y : SetId} {request : Set Int → Prop}
    {o : Outcome SetDomain SetDomain.Entry} (h : SetDomain.Narrows (s.set y) request o) :
    (s.commitSet y o).Exact fun a => request (a.set y) := by
  cases o with
  | empty => exact fun h' => absurd rfl h'
  | unchanged => exact fun _ a ha => h.exactly _ (ha.set y)
  | changed d entries e =>
    obtain ⟨chain, hne, -⟩ := h.obeys
    have known := known_of_chain_set chain hne hs
    exact fun _ a ha => h.exactly _ ((admits_changeSet known).mp (admits_raised.mp ha)).2.1

theorem commitGraph_exact (hs : s.Wf) {g : GraphId} {request : Subgraph → Prop}
    {o : Outcome GraphDomain GraphDomain.Entry}
    (h : GraphDomain.Narrows (s.graph g) request o) :
    (s.commitGraph g o).Exact fun a => request (a.graph g) := by
  cases o with
  | empty => exact fun h' => absurd rfl h'
  | unchanged => exact fun _ a ha => h.exactly _ (ha.graph g)
  | changed d entries e =>
    obtain ⟨chain, hne, -⟩ := h.obeys
    have known := known_of_chain_graph chain hne hs
    exact fun _ a ha => h.exactly _ ((admits_changeGraph known).mp (admits_raised.mp ha)).2.2.1

end Store

end FiniteDomain
