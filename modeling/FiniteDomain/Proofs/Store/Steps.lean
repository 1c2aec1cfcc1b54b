import FiniteDomain.Proofs.Store.Narrowing
import Mathlib.Logic.Relation

/-! # Runs of steps

    While filters run, the store makes one step after the other.  Along such a
    run it admits fewer and fewer valuations, so every domain shrinks: values
    leave, kernels grow, envelopes get smaller.  What a domain says about its
    contents can be read off the valuations, since every well-formed store admits
    a valuation that takes a given content at one variable (`Admits.withInt` and
    its kin). -/

namespace FiniteDomain

/-! ### Valuations changed at one variable -/

namespace Valuation

/-- The valuation with another value at an integer variable. -/
def withInt (a : Valuation) (x : IntId) (v : Int) : Valuation :=
  { a with int := fun z => if z = x then v else a.int z }

/-- The valuation with another content at a set variable. -/
def withSet (a : Valuation) (y : SetId) (c : Set Int) : Valuation :=
  { a with set := fun z => if z = y then c else a.set z }

/-- The valuation with another content at a graph variable. -/
def withGraph (a : Valuation) (g : GraphId) (c : Subgraph) : Valuation :=
  { a with graph := fun z => if z = g then c else a.graph z }

variable {a : Valuation}

@[simp] theorem int_withInt_self (x : IntId) (v : Int) : (a.withInt x v).int x = v := if_pos rfl

@[simp] theorem set_withSet_self (y : SetId) (c : Set Int) : (a.withSet y c).set y = c := if_pos rfl

@[simp] theorem graph_withGraph_self (g : GraphId) (c : Subgraph) :
    (a.withGraph g c).graph g = c := if_pos rfl

end Valuation

namespace Store

variable {s t u : Store} {a : Valuation}

theorem Admits.withInt (ha : s.Admits a) {x : IntId} {v : Int}
    (hv : (s.int x).contains v = true) : s.Admits (a.withInt x v) := by
  refine ⟨fun z => ?_, ha.set, ha.graph⟩
  show (s.int z).contains (if z = x then v else a.int z) = true
  by_cases heq : z = x
  · rw [if_pos heq, heq]
    exact hv
  · rw [if_neg heq]
    exact ha.int z

theorem Admits.withSet (ha : s.Admits a) {y : SetId} {c : Set Int} (hc : (s.set y).Admits c) :
    s.Admits (a.withSet y c) := by
  refine ⟨ha.int, fun z => ?_, ha.graph⟩
  show (s.set z).Admits (if z = y then c else a.set z)
  by_cases heq : z = y
  · rw [if_pos heq, heq]
    exact hc
  · rw [if_neg heq]
    exact ha.set z

theorem Admits.withGraph (ha : s.Admits a) {g : GraphId} {c : Subgraph}
    (hc : (s.graph g).Admits c) : s.Admits (a.withGraph g c) := by
  refine ⟨ha.int, ha.set, fun z => ?_⟩
  show (s.graph z).Admits (if z = g then c else a.graph z)
  by_cases heq : z = g
  · rw [if_pos heq, heq]
    exact hc
  · rw [if_neg heq]
    exact ha.graph z

/-- A well-formed store admits some valuation: lower bounds and kernels. -/
theorem Wf.exists_admits (hs : s.Wf) : ∃ a, s.Admits a :=
  ⟨⟨fun x => (s.int x).lower, fun y => {e | (s.set y).inKernel e = true},
      fun g => GraphDomain.content (hs.graph g).kernel⟩,
    fun x => (hs.int x).lower_mem, fun y => SetDomain.admits_kernel (hs.set y),
    fun g => GraphDomain.admits_kernel (hs.graph g)⟩

/-- Values of some variables are part of a valuation of the store. -/
theorem Wf.exists_admits_int (hs : s.Wf) (value : IntId → Int) :
    ∃ a, s.Admits a ∧ ∀ x, (s.int x).contains (value x) = true → a.int x = value x := by
  obtain ⟨rest, hrest⟩ := hs.exists_admits
  refine ⟨{ rest with
    int := fun x => if (s.int x).contains (value x) = true then value x else rest.int x },
    ⟨fun x => ?_, hrest.set, hrest.graph⟩, fun x hx => if_pos hx⟩
  show (s.int x).contains (if (s.int x).contains (value x) = true then value x else rest.int x)
    = true
  split
  next hx => exact hx
  next => exact hrest.int x

/-! ### Narrower stores -/

theorem isFixed_iff_contains {d : IntegerDomain} (hd : d.Wf) :
    d.isFixed = true ↔ ∀ v, d.contains v = true → v = d.lower := by
  rw [IntegerDomain.isFixed, beq_iff_eq]
  constructor
  · intro heq v hv
    obtain ⟨hlower, hupper, -⟩ := IntegerDomain.contains_iff.mp hv
    omega
  · intro hall
    exact (hall _ hd.upper_mem).symm

/-- The second store admits fewer valuations of the same variables. -/
structure Narrower (s t : Store) : Prop where
  wf : t.Wf
  knows : ∀ v, t.knows v = s.knows v
  order : ∀ g, (t.graph g).order = (s.graph g).order
  admits : ∀ a, t.Admits a → s.Admits a

namespace Narrower

theorem refl (hs : s.Wf) : Narrower s s := ⟨hs, fun _ => rfl, fun _ => rfl, fun _ ha => ha⟩

theorem trans (h₁ : Narrower s t) (h₂ : Narrower t u) : Narrower s u :=
  ⟨h₂.wf, fun v => (h₂.knows v).trans (h₁.knows v), fun g => (h₂.order g).trans (h₁.order g),
    fun a ha => h₁.admits a (h₂.admits a ha)⟩

/-- A store lies between one that it is narrower than and one whose valuations it keeps. -/
theorem between (hst : Narrower s t) (hsu : Narrower s u) (hkept : ∀ a, u.Admits a → t.Admits a) :
    Narrower t u :=
  ⟨hsu.wf, fun v => (hsu.knows v).trans (hst.knows v).symm,
    fun g => (hsu.order g).trans (hst.order g).symm, hkept⟩

theorem contains (h : Narrower s t) {x : IntId} {v : Int} (hv : (t.int x).contains v = true) :
    (s.int x).contains v = true := by
  obtain ⟨a, ha⟩ := h.wf.exists_admits
  have hback := (h.admits _ (ha.withInt hv)).int x
  rwa [Valuation.int_withInt_self] at hback

theorem setAdmits (h : Narrower s t) {y : SetId} {c : Set Int} (hc : (t.set y).Admits c) :
    (s.set y).Admits c := by
  obtain ⟨a, ha⟩ := h.wf.exists_admits
  have hback := (h.admits _ (ha.withSet hc)).set y
  rwa [Valuation.set_withSet_self] at hback

theorem graphAdmits (h : Narrower s t) {g : GraphId} {c : Subgraph}
    (hc : (t.graph g).Admits c) : (s.graph g).Admits c := by
  obtain ⟨a, ha⟩ := h.wf.exists_admits
  have hback := (h.admits _ (ha.withGraph hc)).graph g
  rwa [Valuation.graph_withGraph_self] at hback

theorem inKernel (h : Narrower s t) {y : SetId} {e : Int} (he : (s.set y).inKernel e = true) :
    (t.set y).inKernel e = true :=
  ((h.setAdmits (SetDomain.admits_kernel (h.wf.set y))) e).1 he

theorem inEnvelope (h : Narrower s t) {y : SetId} {e : Int} (he : (t.set y).inEnvelope e = true) :
    (s.set y).inEnvelope e = true :=
  ((h.setAdmits (SetDomain.admits_envelope (h.wf.set y))) e).2 he

theorem kernelNode (h : Narrower s t) {g : GraphId} {n : Nat}
    (hn : (s.graph g).kernel.hasNode n = true) : (t.graph g).kernel.hasNode n = true :=
  (h.graphAdmits (GraphDomain.admits_kernel (h.wf.graph g))).kernelNodes n hn

theorem envelopeNode (h : Narrower s t) {g : GraphId} {n : Nat}
    (hn : (t.graph g).envelope.hasNode n = true) : (s.graph g).envelope.hasNode n = true :=
  (h.graphAdmits (GraphDomain.admits_envelope (h.wf.graph g))).envelopeNodes n hn

theorem kernelArc (h : Narrower s t) {g : GraphId} {m n : Nat}
    (hn : (s.graph g).kernel.hasArc m n = true) : (t.graph g).kernel.hasArc m n = true :=
  (h.graphAdmits (GraphDomain.admits_kernel (h.wf.graph g))).kernelArcs m n hn

theorem envelopeArc (h : Narrower s t) {g : GraphId} {m n : Nat}
    (hn : (t.graph g).envelope.hasArc m n = true) : (s.graph g).envelope.hasArc m n = true :=
  (h.graphAdmits (GraphDomain.admits_envelope (h.wf.graph g))).envelopeArcs m n hn

/-- A fixed variable keeps its value. -/
theorem intFixed (h : Narrower s t) (hs : s.Wf) {x : IntId} (hfixed : (s.int x).isFixed = true) :
    (t.int x).isFixed = true ∧ (t.int x).lower = (s.int x).lower := by
  have honly := (isFixed_iff_contains (hs.int x)).mp hfixed
  have ht := h.wf.int x
  have hlower := honly _ (h.contains ht.lower_mem)
  refine ⟨(isFixed_iff_contains ht).mpr fun v hv => ?_, hlower⟩
  rw [hlower]
  exact honly v (h.contains hv)

theorem setFixed (h : Narrower s t) (hs : s.Wf) {y : SetId} (hfixed : (s.set y).isFixed = true) :
    (t.set y).isFixed = true := by
  refine (SetDomain.isFixed_iff (h.wf.set y)).mpr fun e he => ?_
  exact h.inKernel ((SetDomain.isFixed_iff (hs.set y)).mp hfixed e (h.inEnvelope he))

theorem graphFixed (h : Narrower s t) (hs : s.Wf) {g : GraphId}
    (hfixed : (s.graph g).isFixed = true) : (t.graph g).isFixed = true := by
  obtain ⟨hnodes, harcs⟩ := (GraphDomain.isFixed_iff (hs.graph g)).mp hfixed
  refine (GraphDomain.isFixed_iff (h.wf.graph g)).mpr ⟨fun n hn => ?_, fun m n hn => ?_⟩
  · exact h.kernelNode (hnodes n (h.envelopeNode hn))
  · exact h.kernelArc (harcs m n (h.envelopeArc hn))

end Narrower

/-- The variable has one content left. -/
def Settles (s : Store) : VariableId → Prop
  | .int x => (s.int x).isFixed = true
  | .set y => (s.set y).isFixed = true
  | .graph g => (s.graph g).isFixed = true

theorem Narrower.settles (h : Narrower s t) (hs : s.Wf) {v : VariableId} (hv : s.Settles v) :
    t.Settles v := by
  cases v with
  | int x => exact (h.intFixed hs hv).1
  | set y => exact h.setFixed hs hv
  | graph g => exact h.graphFixed hs hv

/-! ### Runs -/

/-- The second store comes from the first by steps. -/
def Steps : Store → Store → Prop := Relation.ReflTransGen Step

namespace Steps

theorem refl (s : Store) : Steps s s := Relation.ReflTransGen.refl

theorem trans (h₁ : Steps s t) (h₂ : Steps t u) : Steps s u := Relation.ReflTransGen.trans h₁ h₂

theorem single (h : Step s t) : Steps s t := Relation.ReflTransGen.single h

theorem of_narrowed {n : Narrowed} (h : n.Steps s) : Steps s n.store := by
  by_cases hchanged : n.changed? = some true
  · exact single (h.step hchanged)
  · rw [h.same hchanged]
    exact refl s

theorem toExtends (h : Steps s t) : Extends s t := by
  induction h with
  | refl => exact .refl s
  | tail _ step ih => exact ih.trans step.extends

theorem wf (h : Steps s t) (hs : s.Wf) : t.Wf := h.toExtends.wf hs

theorem admits (h : Steps s t) (hs : s.Wf) (ha : t.Admits a) : s.Admits a := by
  induction h with
  | refl => exact ha
  | tail before step ih => exact ih (step.admits ((toExtends before).wf hs) ha)

theorem slack_le (h : Steps s t) (hs : s.Wf) : t.slack ≤ s.slack := by
  induction h with
  | refl => exact Nat.le_refl _
  | tail before step ih =>
    exact Nat.le_trans (Nat.le_of_lt (step.slack_lt ((toExtends before).wf hs))) ih

/-- A run that leads to less slack or stays where it is. -/
theorem eq_or_slack_lt (h : Steps s t) (hs : s.Wf) : t = s ∨ t.slack < s.slack := by
  induction h with
  | refl => exact Or.inl rfl
  | tail before step ih =>
    right
    have hlt := step.slack_lt ((toExtends before).wf hs)
    exact Nat.lt_of_lt_of_le hlt (slack_le before hs)

end Steps

/-! ### What a run leaves alone -/

theorem Chain.order_eq {d d' : GraphDomain} {entries : List GraphDomain.Entry}
    (h : Chain GraphDomain.Tick d entries d') : d'.order = d.order :=
  FiniteDomain.Chain.invariant (P := fun x => x.order = d.order) h
    (fun ht hx => ht.order_eq.trans hx) rfl

theorem Step.knows (h : Step s t) (v : VariableId) : t.knows v = s.knows v := by
  cases h with
  | int x known chain changes reports =>
    cases v with
    | int z => exact congrArg (fun n => decide (z.index < n)) (Table.size_modify ..)
    | set z => rfl
    | graph z => rfl
  | set y known chain changes reports =>
    cases v with
    | int z => rfl
    | set z => exact congrArg (fun n => decide (z.index < n)) (Table.size_modify ..)
    | graph z => rfl
  | graph g known chain changes reports =>
    cases v with
    | int z => rfl
    | set z => rfl
    | graph z => exact congrArg (fun n => decide (z.index < n)) (Table.size_modify ..)

theorem Step.order (h : Step s t) (z : GraphId) : (t.graph z).order = (s.graph z).order := by
  cases h with
  | int x known chain changes reports => rfl
  | set y known chain changes reports => rfl
  | @graph g d entries e known chain changes reports =>
    show ((s.changeGraph g d entries).graph z).order = _
    by_cases heq : z = g
    · subst heq
      rw [graph_changeGraph known]
      exact Chain.order_eq chain
    · rw [graph_changeGraph_of_ne heq]

theorem Step.passive_eq (h : Step s t) : t.passive = s.passive := by
  cases h <;> rfl

/-- A step raises one event and keeps those that wait. -/
theorem Step.mem_events (h : Step s t) {p : Event × VariableId} (hp : p ∈ s.events.toList) :
    p ∈ t.events.toList := by
  cases h <;> exact EventSink.mem_toList_raise.mpr (Or.inl hp)

/-! ### Reports -/

/-- A domain that a step changes is reported by a waiting event. -/
theorem Step.reportsInt (h : Step s t) (x : IntId) :
    t.int x = s.int x ∨ ∃ e, (e, VariableId.int x) ∈ t.events.toList
      ∧ IntegerDomain.Reports (s.int x) (t.int x) e := by
  cases h with
  | @int z d entries e known chain changes reports =>
    by_cases heq : x = z
    · subst heq
      have hafter : ((s.changeInt x d entries).raised e (.int x)).int x = d :=
        int_changeInt known d entries
      rw [hafter]
      exact Or.inr ⟨e, EventSink.mem_toList_raise.mpr (Or.inr rfl), reports⟩
    · exact Or.inl (int_changeInt_of_ne heq d entries)
  | set y known chain changes reports => exact Or.inl rfl
  | graph g known chain changes reports => exact Or.inl rfl

theorem Step.reportsSet (h : Step s t) (y : SetId) :
    t.set y = s.set y ∨ ∃ e, (e, VariableId.set y) ∈ t.events.toList
      ∧ SetDomain.Reports (s.set y) (t.set y) e := by
  cases h with
  | int x known chain changes reports => exact Or.inl rfl
  | @set z d entries e known chain changes reports =>
    by_cases heq : y = z
    · subst heq
      have hafter : ((s.changeSet y d entries).raised e (.set y)).set y = d :=
        set_changeSet known d entries
      rw [hafter]
      exact Or.inr ⟨e, EventSink.mem_toList_raise.mpr (Or.inr rfl), reports⟩
    · exact Or.inl (set_changeSet_of_ne heq d entries)
  | graph g known chain changes reports => exact Or.inl rfl

theorem Step.reportsGraph (h : Step s t) (g : GraphId) :
    t.graph g = s.graph g ∨ ∃ e, (e, VariableId.graph g) ∈ t.events.toList
      ∧ GraphDomain.Reports (s.graph g) (t.graph g) e := by
  cases h with
  | int x known chain changes reports => exact Or.inl rfl
  | set y known chain changes reports => exact Or.inl rfl
  | @graph z d entries e known chain changes reports =>
    by_cases heq : g = z
    · subst heq
      have hafter : ((s.changeGraph g d entries).raised e (.graph g)).graph g = d :=
        graph_changeGraph known d entries
      rw [hafter]
      exact Or.inr ⟨e, EventSink.mem_toList_raise.mpr (Or.inr rfl), reports⟩
    · exact Or.inl (graph_changeGraph_of_ne heq d entries)

namespace Steps

theorem knows (h : Steps s t) (v : VariableId) : t.knows v = s.knows v := by
  induction h with
  | refl => rfl
  | tail _ step ih => exact (step.knows v).trans ih

theorem order (h : Steps s t) (g : GraphId) : (t.graph g).order = (s.graph g).order := by
  induction h with
  | refl => rfl
  | tail _ step ih => exact (step.order g).trans ih

theorem passive_eq (h : Steps s t) : t.passive = s.passive := by
  induction h with
  | refl => rfl
  | tail _ step ih => exact step.passive_eq.trans ih

theorem mem_events (h : Steps s t) {p : Event × VariableId} (hp : p ∈ s.events.toList) :
    p ∈ t.events.toList := by
  induction h with
  | refl => exact hp
  | tail _ step ih => exact step.mem_events ih

/-- A run leads to a narrower store. -/
theorem narrower (h : Steps s t) (hs : s.Wf) : Narrower s t :=
  ⟨h.wf hs, h.knows, h.order, fun _ ha => h.admits hs ha⟩

end Steps

/-! ### Announced assignments -/

/-- Every variable whose assignment is announced is fixed. -/
def Assigned (s : Store) : Prop :=
  ∀ x, (Event.assign, VariableId.int x) ∈ s.events.toList → (s.int x).isFixed = true

theorem Step.assigned (h : Step s t) (hs : s.Wf) (ha : s.Assigned) : t.Assigned := by
  have hkeep : ∀ x, (Event.assign, VariableId.int x) ∈ s.events.toList →
      (t.int x).isFixed = true := fun x hx => (((Steps.single h).narrower hs).intFixed hs (ha x hx)).1
  intro x hx
  cases h with
  | @int z d entries e known chain changes reports =>
    rcases EventSink.mem_toList_raise.mp hx with hold | hnew
    · exact hkeep x hold
    · obtain ⟨rfl, hz⟩ := Prod.mk.inj hnew
      obtain rfl : x = z := VariableId.int.inj hz
      show ((s.changeInt x d entries).int x).isFixed = true
      rw [int_changeInt known]
      exact reports.assigned rfl
  | set y known chain changes reports =>
    rcases EventSink.mem_toList_raise.mp hx with hold | hnew
    · exact hkeep x hold
    · cases (Prod.mk.inj hnew).2
  | graph g known chain changes reports =>
    rcases EventSink.mem_toList_raise.mp hx with hold | hnew
    · exact hkeep x hold
    · cases (Prod.mk.inj hnew).2

theorem Steps.assigned (h : Steps s t) (hs : s.Wf) (ha : s.Assigned) : t.Assigned := by
  induction h with
  | refl => exact ha
  | tail before step ih => exact step.assigned (Steps.wf before hs) ih

/-! ### Stores with the same domains -/

/-- The two stores have the same domains; events, passive propagators and trail may differ. -/
structure SameDomains (s t : Store) : Prop where
  ints : t.ints = s.ints
  sets : t.sets = s.sets
  graphs : t.graphs = s.graphs

theorem sameDomains_dropEvents (s : Store) : SameDomains s s.dropEvents := ⟨rfl, rfl, rfl⟩

theorem sameDomains_passivate (s : Store) (p : PropagatorId) : SameDomains s (s.passivate p) := by
  unfold passivate
  split <;> exact ⟨rfl, rfl, rfl⟩

theorem events_passivate (s : Store) (p : PropagatorId) : (s.passivate p).events = s.events := by
  unfold passivate
  split <;> rfl

theorem isPassive_passivate {p q : PropagatorId} :
    (s.passivate p).isPassive q = true ↔ q = p ∨ s.isPassive q = true := by
  unfold passivate
  split
  next hp =>
    refine ⟨Or.inr, ?_⟩
    rintro (rfl | hq)
    · exact hp
    · exact hq
  next => simp only [isPassive, List.contains_cons, Bool.or_eq_true, beq_iff_eq]

namespace SameDomains

theorem symm (h : SameDomains s t) : SameDomains t s :=
  ⟨h.ints.symm, h.sets.symm, h.graphs.symm⟩

theorem wf (h : SameDomains s t) (hs : s.Wf) : t.Wf :=
  ⟨h.ints ▸ hs.ints, h.sets ▸ hs.sets, h.graphs ▸ hs.graphs⟩

theorem int (h : SameDomains s t) (x : IntId) : t.int x = s.int x :=
  congrArg (fun ints : Table IntegerDomain => ints.getD x.index default) h.ints

theorem set (h : SameDomains s t) (y : SetId) : t.set y = s.set y :=
  congrArg (fun sets : Table SetDomain => sets.getD y.index default) h.sets

theorem graph (h : SameDomains s t) (g : GraphId) : t.graph g = s.graph g :=
  congrArg (fun graphs : Table GraphDomain => graphs.getD g.index default) h.graphs

theorem admits (h : SameDomains s t) (ha : s.Admits a) : t.Admits a where
  int := fun x => by
    rw [h.int]
    exact ha.int x
  set := fun y => by
    rw [h.set]
    exact ha.set y
  graph := fun g => by
    rw [h.graph]
    exact ha.graph g

theorem slack (h : SameDomains s t) : t.slack = s.slack := by
  unfold Store.slack
  rw [h.ints, h.sets, h.graphs]

theorem knows (h : SameDomains s t) (v : VariableId) : t.knows v = s.knows v := by
  cases v with
  | int x => exact congrArg (fun d : Table IntegerDomain => decide (x.index < d.size)) h.ints
  | set y => exact congrArg (fun d : Table SetDomain => decide (y.index < d.size)) h.sets
  | graph g => exact congrArg (fun d : Table GraphDomain => decide (g.index < d.size)) h.graphs

theorem narrower (h : SameDomains s t) (hs : s.Wf) : Narrower s t :=
  ⟨h.wf hs, h.knows, fun g => congrArg GraphDomain.order (h.graph g),
    fun _ ha => h.symm.admits ha⟩

end SameDomains

end Store

end FiniteDomain
