import FiniteDomain.Proofs.Branching.Strategy
import FiniteDomain.Proofs.Filter.Lossless
import FiniteDomain.Proofs.Propagation.Chores
import FiniteDomain.Proofs.Propagation.Lapse
import FiniteDomain.Proofs.Store.Changes

/-! # New variables

    A store grows when variables are added to it (`Store.Grows`).  What is posted
    speaks of variables that existed before, so it means the same in the greater
    store, and a space at rest stays at rest (`Space.Watchful.grows`). -/

namespace FiniteDomain

namespace Store

variable {s t u : Store} {a b : Valuation}

/-- The second store has the variables of the first, with the same domains, and maybe others. -/
structure Grows (s t : Store) : Prop where
  /-- The domains are well-formed. -/
  wf : t.Wf
  /-- No variable disappears. -/
  knows : ∀ v, s.knows v = true → t.knows v = true
  /-- Integer variables keep their domains. -/
  int : ∀ x, s.knows (.int x) = true → t.int x = s.int x
  /-- Sets keep their domains. -/
  set : ∀ y, s.knows (.set y) = true → t.set y = s.set y
  /-- Graphs keep their domains. -/
  graph : ∀ g, s.knows (.graph g) = true → t.graph g = s.graph g

theorem grows_refl (hs : s.Wf) : s.Grows s :=
  ⟨hs, fun _ h => h, fun _ _ => rfl, fun _ _ => rfl, fun _ _ => rfl⟩

theorem SameDomains.grows (h : s.SameDomains t) (hs : s.Wf) : s.Grows t where
  wf := h.wf hs
  knows := by
    intro v hv
    have heq : t.knows v = s.knows v := by
      unfold Store.knows
      rw [h.ints, h.sets, h.graphs]
    exact heq.trans hv
  int := fun x _ => h.int x
  set := fun y _ => h.set y
  graph := fun g _ => h.graph g

theorem Grows.trans (h₁ : s.Grows t) (h₂ : t.Grows u) : s.Grows u where
  wf := h₂.wf
  knows := fun v hv => h₂.knows v (h₁.knows v hv)
  int := fun x hx => (h₂.int x (h₁.knows _ hx)).trans (h₁.int x hx)
  set := fun y hy => (h₂.set y (h₁.knows _ hy)).trans (h₁.set y hy)
  graph := fun g hg => (h₂.graph g (h₁.knows _ hg)).trans (h₁.graph g hg)

theorem grows_addInt (hs : s.Wf) {d : IntegerDomain} (hd : d.Wf) : s.Grows (s.addInt d).2 where
  wf := hs.addInt hd
  knows := fun v hv => by
    cases v with
    | int x =>
      have hlt : x.index < s.ints.size := of_decide_eq_true hv
      exact decide_eq_true (by simp only [addInt, Table.size_push]; omega)
    | set y => exact hv
    | graph g => exact hv
  int := fun x hx => Table.getD_push_of_lt (of_decide_eq_true hx) _ _
  set := fun _ _ => rfl
  graph := fun _ _ => rfl

theorem grows_addSet (hs : s.Wf) {d : SetDomain} (hd : d.Wf) : s.Grows (s.addSet d).2 where
  wf := hs.addSet hd
  knows := fun v hv => by
    cases v with
    | set y =>
      have hlt : y.index < s.sets.size := of_decide_eq_true hv
      exact decide_eq_true (by simp only [addSet, Table.size_push]; omega)
    | int x => exact hv
    | graph g => exact hv
  int := fun _ _ => rfl
  set := fun y hy => Table.getD_push_of_lt (of_decide_eq_true hy) _ _
  graph := fun _ _ => rfl

theorem grows_addGraph (hs : s.Wf) {d : GraphDomain} (hd : d.Wf) :
    s.Grows (s.addGraph d).2 where
  wf := hs.addGraph hd
  knows := fun v hv => by
    cases v with
    | graph g =>
      have hlt : g.index < s.graphs.size := of_decide_eq_true hv
      exact decide_eq_true (by simp only [addGraph, Table.size_push]; omega)
    | int x => exact hv
    | set y => exact hv
  int := fun _ _ => rfl
  set := fun _ _ => rfl
  graph := fun g hg => Table.getD_push_of_lt (of_decide_eq_true hg) _ _

theorem Grows.admitsAt_iff (h : s.Grows t) {v : VariableId} (hv : s.knows v = true) :
    t.AdmitsAt a v ↔ s.AdmitsAt a v := by
  cases v with
  | int x =>
    show (t.int x).contains _ = true ↔ _
    rw [h.int x hv]
    rfl
  | set y =>
    show (t.set y).Admits _ ↔ _
    rw [h.set y hv]
    rfl
  | graph g =>
    show (t.graph g).Admits _ ↔ _
    rw [h.graph g hv]
    rfl

/-- All variables of the store. -/
def allVariables (s : Store) : List VariableId :=
  s.intIds.map .int ++ s.setIds.map .set ++ s.graphIds.map .graph

theorem mem_allVariables {v : VariableId} : v ∈ s.allVariables ↔ s.knows v = true := by
  cases v <;>
    simp [allVariables, Strategy.mem_intIds, Strategy.mem_setIds, Strategy.mem_graphIds]

/-- A valuation of the greater store agrees on the old variables with one of the smaller store. -/
theorem Grows.exists_admits (h : s.Grows t) (hs : s.Wf) (ha : t.Admits a) :
    ∃ b, s.Admits b ∧ ∀ v, s.knows v = true → a.SameAt b v := by
  obtain ⟨b, hb⟩ := hs.exists_admits
  refine ⟨Valuation.onScope s.allVariables a b, admits_iff.mpr fun v => ?_, fun v hv => ?_⟩
  · by_cases hv : v ∈ s.allVariables
    · exact (Valuation.sameAt_onScope hv).admitsAt_iff.mpr
        ((h.admitsAt_iff (mem_allVariables.mp hv)).mp (admits_iff.mp ha v))
    · exact (Valuation.sameAt_onScope_of_notMem hv).admitsAt_iff.mpr (admits_iff.mp hb v)
  · have hsame := Valuation.sameAt_onScope (a := a) (b := b) (mem_allVariables.mpr hv)
    cases v <;> exact hsame.symm

/-! ### Variables that were there before -/

theorem Narrower.admitsAt (h : s.Narrower t) {v : VariableId} (hv : t.AdmitsAt a v) :
    s.AdmitsAt a v := by
  cases v with
  | int x => exact h.contains hv
  | set y => exact h.setAdmits hv
  | graph g => exact h.graphAdmits hv

/-- The second store has the variables of the first, no content was added to them, and there may be
    others. -/
structure Evolves (s t : Store) : Prop where
  /-- No variable disappears. -/
  knows : ∀ v, s.knows v = true → t.knows v = true
  /-- No content is added. -/
  admits : ∀ a v, s.knows v = true → t.AdmitsAt a v → s.AdmitsAt a v

theorem Evolves.refl (s : Store) : s.Evolves s := ⟨fun _ h => h, fun _ _ _ h => h⟩

theorem Evolves.trans {u : Store} (h₁ : s.Evolves t) (h₂ : t.Evolves u) : s.Evolves u where
  knows := fun v hv => h₂.knows v (h₁.knows v hv)
  admits := fun a v hv ha => h₁.admits a v hv (h₂.admits a v (h₁.knows v hv) ha)

/-- The values that are left of a variable were there before. -/
theorem Evolves.contains (h : s.Evolves t) (ht : t.Wf) {x : IntId} (hx : s.knows (.int x) = true)
    {v : Int} (hv : (t.int x).contains v = true) : (s.int x).contains v = true := by
  obtain ⟨a, ha⟩ := ht.exists_admits
  have hback := h.admits (a.withInt x v) (.int x) hx
  simp only [AdmitsAt, Valuation.int_withInt_self] at hback
  exact hback hv

theorem Narrower.evolves (h : s.Narrower t) : s.Evolves t :=
  ⟨fun v hv => (h.knows v).trans hv, fun _ _ _ ha => h.admitsAt ha⟩

theorem Grows.evolves (h : s.Grows t) : s.Evolves t :=
  ⟨h.knows, fun _ _ hv ha => (h.admitsAt_iff hv).mp ha⟩

/-! ### The same new variables -/

theorem getD_push_eq {α : Type} (t : Table α) (row default : α) (key : Nat) :
    (t.push row).getD key default = if key = t.size then row else t.getD key default := by
  rw [Table.getD_eq, Table.get?_push, Table.getD_eq]
  split <;> rfl

theorem Narrower.sizes (h : s.Narrower t) : t.ints.size = s.ints.size
    ∧ t.sets.size = s.sets.size ∧ t.graphs.size = s.graphs.size := by
  have hint : ∀ i, decide (i < t.ints.size) = decide (i < s.ints.size) := fun i =>
    h.knows (.int ⟨i⟩)
  have hset : ∀ i, decide (i < t.sets.size) = decide (i < s.sets.size) := fun i =>
    h.knows (.set ⟨i⟩)
  have hgraph : ∀ i, decide (i < t.graphs.size) = decide (i < s.graphs.size) := fun i =>
    h.knows (.graph ⟨i⟩)
  have heq : ∀ m n : Nat, (∀ i, decide (i < m) = decide (i < n)) → m = n := by
    intro m n hall
    have h₁ := decide_eq_decide.mp (hall m)
    have h₂ := decide_eq_decide.mp (hall n)
    omega
  exact ⟨heq _ _ hint, heq _ _ hset, heq _ _ hgraph⟩

theorem int_of_unknown {x : IntId} (h : s.knows (.int x) = false) : s.int x = default :=
  Table.getD_of_size_le (Nat.not_lt.mp (of_decide_eq_false h)) _

theorem set_of_unknown {y : SetId} (h : s.knows (.set y) = false) : s.set y = default :=
  Table.getD_of_size_le (Nat.not_lt.mp (of_decide_eq_false h)) _

theorem graph_of_unknown {g : GraphId} (h : s.knows (.graph g) = false) : s.graph g = default :=
  Table.getD_of_size_le (Nat.not_lt.mp (of_decide_eq_false h)) _

/-- Two stores with the same variables get the same new ones. -/
structure GrowAlike (s s' t t' : Store) : Prop where
  /-- The first grows. -/
  first : s.Grows s'
  /-- The second grows. -/
  second : t.Grows t'
  /-- They still have the same variables. -/
  knows : ∀ v, t'.knows v = s'.knows v
  /-- New integer variables have the same domain. -/
  int : ∀ x, s.knows (.int x) = false → t'.int x = s'.int x
  /-- New sets have the same domain. -/
  set : ∀ y, s.knows (.set y) = false → t'.set y = s'.set y
  /-- New graphs have the same domain. -/
  graph : ∀ g, s.knows (.graph g) = false → t'.graph g = s'.graph g
  /-- Passive propagators of the second stay. -/
  passive : t'.passive = t.passive
  /-- Events of the second stay. -/
  events : t'.events = t.events

theorem GrowAlike.admitsAt_iff {s' t' : Store} (h : GrowAlike s s' t t') {v : VariableId}
    (hv : s.knows v = false) : t'.AdmitsAt a v ↔ s'.AdmitsAt a v := by
  cases v with
  | int x =>
    show (t'.int x).contains _ = true ↔ _
    rw [h.int x hv]
    rfl
  | set y =>
    show (t'.set y).Admits _ ↔ _
    rw [h.set y hv]
    rfl
  | graph g =>
    show (t'.graph g).Admits _ ↔ _
    rw [h.graph g hv]
    rfl

theorem GrowAlike.narrower {s' t' : Store} (h : GrowAlike s s' t t') (hst : s.Narrower t) :
    s'.Narrower t' where
  wf := h.second.wf
  knows := h.knows
  order := fun g => by
    cases hg : s.knows (.graph g) with
    | true => rw [h.first.graph g hg, h.second.graph g ((hst.knows _).trans hg), hst.order]
    | false => rw [h.graph g hg]
  admits := fun a ha => admits_iff.mpr fun v => by
    have hv := admits_iff.mp ha v
    cases hknown : s.knows v with
    | true =>
      rw [h.second.admitsAt_iff ((hst.knows v).trans hknown)] at hv
      exact (h.first.admitsAt_iff hknown).mpr (hst.admitsAt hv)
    | false => exact (h.admitsAt_iff hknown).mp hv

theorem growAlike_addInt (hs : s.Wf) (hst : s.Narrower t) {d : IntegerDomain} (hd : d.Wf) :
    GrowAlike s (s.addInt d).2 t (t.addInt d).2 where
  first := grows_addInt hs hd
  second := grows_addInt hst.wf hd
  knows := fun v => by
    cases v with
    | int x => simp only [knows, addInt, Table.size_push, hst.sizes.1]
    | set y => exact hst.knows (.set y)
    | graph g => exact hst.knows (.graph g)
  int := fun x hx => by
    have hx' := (hst.knows (.int x)).trans hx
    show (t.ints.push d).getD x.index default = (s.ints.push d).getD x.index default
    rw [getD_push_eq, getD_push_eq, hst.sizes.1]
    exact congrArg _ ((int_of_unknown hx').trans (int_of_unknown hx).symm)
  set := fun y hy => (set_of_unknown ((hst.knows (.set y)).trans hy)).trans (set_of_unknown hy).symm
  graph := fun g hg =>
    (graph_of_unknown ((hst.knows (.graph g)).trans hg)).trans (graph_of_unknown hg).symm
  passive := rfl
  events := rfl

theorem growAlike_addSet (hs : s.Wf) (hst : s.Narrower t) {d : SetDomain} (hd : d.Wf) :
    GrowAlike s (s.addSet d).2 t (t.addSet d).2 where
  first := grows_addSet hs hd
  second := grows_addSet hst.wf hd
  knows := fun v => by
    cases v with
    | set y => simp only [knows, addSet, Table.size_push, hst.sizes.2.1]
    | int x => exact hst.knows (.int x)
    | graph g => exact hst.knows (.graph g)
  set := fun y hy => by
    have hy' := (hst.knows (.set y)).trans hy
    show (t.sets.push d).getD y.index default = (s.sets.push d).getD y.index default
    rw [getD_push_eq, getD_push_eq, hst.sizes.2.1]
    exact congrArg _ ((set_of_unknown hy').trans (set_of_unknown hy).symm)
  int := fun x hx => (int_of_unknown ((hst.knows (.int x)).trans hx)).trans (int_of_unknown hx).symm
  graph := fun g hg =>
    (graph_of_unknown ((hst.knows (.graph g)).trans hg)).trans (graph_of_unknown hg).symm
  passive := rfl
  events := rfl

theorem growAlike_addGraph (hs : s.Wf) (hst : s.Narrower t) {d : GraphDomain} (hd : d.Wf) :
    GrowAlike s (s.addGraph d).2 t (t.addGraph d).2 where
  first := grows_addGraph hs hd
  second := grows_addGraph hst.wf hd
  knows := fun v => by
    cases v with
    | graph g => simp only [knows, addGraph, Table.size_push, hst.sizes.2.2]
    | int x => exact hst.knows (.int x)
    | set y => exact hst.knows (.set y)
  graph := fun g hg => by
    have hg' := (hst.knows (.graph g)).trans hg
    show (t.graphs.push d).getD g.index default = (s.graphs.push d).getD g.index default
    rw [getD_push_eq, getD_push_eq, hst.sizes.2.2]
    exact congrArg _ ((graph_of_unknown hg').trans (graph_of_unknown hg).symm)
  int := fun x hx => (int_of_unknown ((hst.knows (.int x)).trans hx)).trans (int_of_unknown hx).symm
  set := fun y hy => (set_of_unknown ((hst.knows (.set y)).trans hy)).trans (set_of_unknown hy).symm
  passive := rfl
  events := rfl

theorem growAlike_refl (hs : s.Wf) (hst : s.Narrower t) : GrowAlike s s t t where
  first := grows_refl hs
  second := grows_refl hst.wf
  knows := hst.knows
  int := fun x hx => (int_of_unknown ((hst.knows (.int x)).trans hx)).trans (int_of_unknown hx).symm
  set := fun y hy => (set_of_unknown ((hst.knows (.set y)).trans hy)).trans (set_of_unknown hy).symm
  graph := fun g hg =>
    (graph_of_unknown ((hst.knows (.graph g)).trans hg)).trans (graph_of_unknown hg).symm
  passive := rfl
  events := rfl

end Store

/-! ### Filters over old variables -/

namespace Filter

variable {f : Filter} {s t : Store} {a : Valuation}

theorem bounds_of_grows (hg : s.Grows t) {x : IntVar} (hx : s.knows (.int x.base) = true) :
    x.lowerBound t = x.lowerBound s ∧ x.upperBound t = x.upperBound s := by
  have hbase := hg.int x.base hx
  obtain ⟨hlower, hupper⟩ := IntVar.bounds_congr (s := s) (t := t) x
  simp only [hbase, ite_self] at hlower hupper
  exact ⟨hlower trivial, hupper trivial⟩

theorem isFixed_of_grows (hg : s.Grows t) {x : IntVar} (hx : s.knows (.int x.base) = true) :
    x.isFixed t = x.isFixed s := by
  obtain ⟨hlower, hupper⟩ := bounds_of_grows hg hx
  unfold IntVar.isFixed
  rw [hlower, hupper]

theorem Ready.grows (h : f.Ready s) (hg : s.Grows t) : f.Ready t where
  known := fun v hv => hg.knows v (h.known v hv)
  ranges := fun x hx v hv => by
    rw [hg.int x.base (h.known _ (base_mem_scope hx))] at hv
    exact h.ranges x hx v hv
  sums := h.sums
  ends := fun g source sink hf => by
    subst hf
    rw [hg.graph g (h.known _ List.mem_cons_self)]
    exact h.ends g source sink rfl

theorem SameAt.of_grows {vars : List IntVar} {i j : Nat} (h : SameAt t vars i j)
    (hg : s.Grows t) (hknown : ∀ x ∈ vars, s.knows (.int x.base) = true) : SameAt s vars i j := by
  obtain ⟨hne, x, y, hi, hj, hfirst, hsecond, heq⟩ := h
  have hx := hknown x (List.mem_of_getElem? hi)
  have hy := hknown y (List.mem_of_getElem? hj)
  rw [isFixed_of_grows hg hx] at hfirst
  rw [isFixed_of_grows hg hy] at hsecond
  rw [(bounds_of_grows hg hx).1, (bounds_of_grows hg hy).1] at heq
  exact ⟨hne, x, y, hi, hj, hfirst, hsecond, heq⟩

/-- A clash in the greater store is one in the smaller store. -/
theorem Clash.of_grows {A : Set LocalId} (h : Clash t f A) (hg : s.Grows t) (hr : f.Ready s) :
    Clash s f A := by
  have hknown : ∀ x ∈ f.views, s.knows (.int x.base) = true := fun x hx =>
    hr.known _ (base_mem_scope hx)
  -- a clash is about variables that were there before, and these are as they were
  cases h with
  | byValue same => exact .byValue (same.of_grows hg hknown)
  | byBounds same => exact .byBounds (same.of_grows hg hknown)
  | @sumAtMost terms limit excess =>
    have hsum : terms.map (·.lowerBound t) = terms.map (·.lowerBound s) :=
      List.map_congr_left fun x hx => (bounds_of_grows hg (hknown x hx)).1
    rw [hsum] at excess
    exact .sumAtMost excess
  | @atMost a b excess =>
    rw [(bounds_of_grows hg (hknown a List.mem_cons_self)).1,
      (bounds_of_grows hg (hknown b (List.mem_cons_of_mem _ List.mem_cons_self))).2] at excess
    exact .atMost excess
  | @distinct a b first second same =>
    have ha := hknown a List.mem_cons_self
    have hb := hknown b (List.mem_cons_of_mem _ List.mem_cons_self)
    rw [isFixed_of_grows hg ha] at first
    rw [isFixed_of_grows hg hb] at second
    rw [(bounds_of_grows hg ha).1, (bounds_of_grows hg hb).1] at same
    exact .distinct first second same
  | @subset y z e certain impossible =>
    rw [hg.set y (hr.known _ List.mem_cons_self)] at certain
    rw [hg.set z (hr.known _ (List.mem_cons_of_mem _ List.mem_cons_self))] at impossible
    exact .subset e certain impossible
  | @disjoint y z e first second =>
    rw [hg.set y (hr.known _ List.mem_cons_self)] at first
    rw [hg.set z (hr.known _ (List.mem_cons_of_mem _ List.mem_cons_self))] at second
    exact .disjoint e first second
  | @member x y fixed impossible =>
    have hx := hknown x List.mem_cons_self
    rw [isFixed_of_grows hg hx] at fixed
    rw [(bounds_of_grows hg hx).1,
      hg.set y (hr.known _ (List.mem_cons_of_mem _ List.mem_cons_self))] at impossible
    exact .member fixed impossible
  | @oneNeighbour d g but fixed fails =>
    rw [hg.graph g (hr.known _ List.mem_cons_self)] at fixed fails
    exact .oneNeighbour fixed fails

end Filter

/-! ### Concerns -/

/-- What is seen to of the filter stays the same when variables are added. -/
structure Concern.Persists (k : Concern) (f : Filter) : Prop where
  /-- The filter is still looked at. -/
  regards : ∀ {s t}, f.Ready s → s.Grows t → k.Regards f s → k.Regards f t
  /-- Still nothing will be amiss. -/
  closed : ∀ {s t}, s.Wf → f.Ready s → s.Grows t → k.Closed s f → k.Closed t f
  /-- Nothing new is amiss. -/
  amiss : ∀ {s t A}, s.Wf → f.Ready s → s.Grows t → k.Amiss t f A → k.Amiss s f A

namespace Concern

open FiniteDomain.Filter

variable {f : Filter} {s t : Store}

/-- A constraint that holds for sure still does. -/
theorem sat_of_grows (hs : s.Wf) (hr : f.Ready s) (hg : s.Grows t)
    (h : ∀ a, s.Admits a → f.Sat a) : ∀ a, t.Admits a → f.Sat a := by
  intro a ha
  obtain ⟨b, hb, hsame⟩ := hg.exists_admits hs ha
  exact (Filter.Sat.congr fun v hv => hsame v (hr.known v hv)).mpr (h b hb)

theorem persists_clashes (f : Filter) : clashes.Persists f where
  regards := fun _ _ hf => hf
  closed := sat_of_grows
  amiss := fun _ hr hg hclash => hclash.of_grows hg hr

/-- The scope stays as it is. -/
theorem untouched_of_grows (hr : f.Ready s) (hg : s.Grows t) : ∀ v ∈ f.scope, s.Untouched t v := by
  intro v hv
  have hknown := hr.known v hv
  cases v with
  | int x => exact hg.int x hknown
  | set y => exact hg.set y hknown
  | graph g => exact hg.graph g hknown

/-- A filter stays at rest, since its scope stays as it is. -/
theorem restsAt_of_grows {l : LocalId} (hs : s.Wf) (hr : f.Ready s) (hg : s.Grows t)
    (h : f.RestsAt l s) : f.RestsAt l t := by
  intro a ha
  obtain ⟨b, hb, hsame⟩ := hg.exists_admits hs ha
  exact (h b hb).congr (untouched_of_grows hr hg) fun v hv => hsame v (hr.known v hv)

theorem enumerated_of_grows (hr : f.Ready s) (hg : s.Grows t) (h : f.Enumerated t) :
    f.Enumerated s := by
  intro x hx
  rw [← hg.int x.base (hr.known _ (base_mem_scope hx))]
  exact h x hx

theorem persists_unrest (f : Filter) : unrest.Persists f where
  regards := fun hr hg henum x hx => by
    rw [hg.int x.base (hr.known _ (base_mem_scope hx))]
    exact henum x hx
  closed := fun {s t} hs hr hg hspent => by
    rcases hspent with hsat | ⟨hrest, hall⟩
    · exact Or.inl (sat_of_grows hs hr hg hsat)
    · refine Or.inr ⟨fun l => restsAt_of_grows hs hr hg (hrest l), fun v hv => ?_⟩
      exact (untouched_of_grows hr hg v hv).settles (hall v hv)
  amiss := fun hs hr hg ⟨l, hl, hrest⟩ =>
    ⟨l, hl, fun hbefore => hrest (restsAt_of_grows hs hr hg hbefore)⟩

theorem persists_lapses (f : Filter) : lapses.Persists f := by
  have hchoice : (ofFilter f).Persists f := by
    rcases f.decisive_or with hf | ⟨g, source, sink, rfl⟩
    · rw [ofFilter_of_decisive hf]
      exact persists_clashes f
    · exact persists_unrest _
  exact ⟨hchoice.regards, hchoice.closed, hchoice.amiss⟩

theorem persists_chores (f : Filter) : chores.Persists f where
  regards := fun _ _ _ => trivial
  closed := fun hs hr hg h henum =>
    have hbefore := enumerated_of_grows hr hg henum
    (persists_unrest f).closed hs hr hg (h hbefore)
  amiss := fun hs hr hg h =>
    ⟨enumerated_of_grows hr hg h.1, (persists_unrest f).amiss hs hr hg h.2⟩

/-- All filters are looked at, and new variables do not change what is seen to. -/
class Universal (k : Concern) : Prop where
  /-- Every filter is looked at on every store. -/
  regards : ∀ f s, k.Regards f s
  /-- Variables may be added. -/
  persists : ∀ f, k.Persists f

instance : lapses.Universal := ⟨regards_lapses, persists_lapses⟩

instance : chores.Universal := ⟨regards_chores, persists_chores⟩

end Concern

/-! ### Spaces -/

namespace Space

variable {k : Concern} {sp : Space Filter} {t : Store}

/-- New variables do not disturb a space at rest. -/
theorem Watchful.grows (h : sp.Watchful k fun _ _ => False) (hsettled : sp.Settled)
    (hk : ∀ f, k.Persists f) (hg : sp.store.Grows t) (hpassive : t.passive = sp.store.passive)
    (hevents : t.events = sp.store.events) :
    Watchful k (fun _ _ => False) { sp with store := t } where
  wf := hg.wf
  regards := fun i f hf => (hk f).regards (h.ready i f hf) hg (h.regards i f hf)
  ready := fun i f hf => (h.ready i f hf).grows hg
  watched := h.watched
  subscribed := h.subscribed
  closed := fun i hi => by
    rw [Store.isPassive, hpassive] at hi
    obtain ⟨f, hf, hclosed⟩ := h.closed i hi
    exact ⟨f, hf, (hk f).closed h.wf (h.ready i f hf) hg hclosed⟩
  toOrderly := ⟨⟨h.lines, h.waits⟩, h.nodup, h.known⟩
  assigned := fun x hx => by
    rw [hevents, hsettled.events] at hx
    exact absurd hx List.not_mem_nil
  -- nothing is pending at rest, and declaring a variable tells nobody
  expected := fun i f hf entry hentry => by
    obtain ⟨p, hp, -⟩ := exists_posted hf
    rw [told_eq hp, hsettled.pending i p hp] at hentry
    exact absurd hentry List.not_mem_nil
  noticed := fun i f hactive A hamiss => by
    have hactive' : sp.ActiveAt i f := by
      refine ⟨hactive.1, ?_⟩
      rw [Store.isPassive, ← hpassive]
      exact hactive.2
    -- a flaw in the larger store would have been one before, and there is none at rest
    have hbefore := (hk f).amiss h.wf (h.ready i f hactive'.1) hg hamiss
    exact absurd hbefore (h.not_amiss hsettled hactive' A)

/-- The solutions of the greater space are those of the smaller one, with any content for the new
    variables. -/
theorem solves_grows (h : sp.Watchful k fun _ _ => False) (hg : sp.store.Grows t) (a : Valuation) :
    Solves { sp with store := t } a ↔ t.Admits a
      ∧ ∃ b, sp.Solves b ∧ ∀ v, sp.store.knows v = true → a.SameAt b v := by
  have hcongr : ∀ {b}, (∀ v, sp.store.knows v = true → a.SameAt b v) →
      ∀ i f, sp.filterAt? i = some f → (f.Sat a ↔ f.Sat b) := fun hsame i f hf =>
    Filter.Sat.congr fun v hv => hsame v ((h.ready i f hf).known v hv)
  constructor
  · rintro ⟨ha, hsat⟩
    obtain ⟨b, hb, hsame⟩ := hg.exists_admits h.wf ha
    exact ⟨ha, b, ⟨hb, fun i f hf => (hcongr hsame i f hf).mp (hsat i f hf)⟩, hsame⟩
  · rintro ⟨ha, b, ⟨-, hsat⟩, hsame⟩
    exact ⟨ha, fun i f hf => (hcongr hsame i f hf).mpr (hsat i f hf)⟩

end Space

end FiniteDomain
