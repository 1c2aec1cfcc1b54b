import FiniteDomain.Proofs.Filter.Sound

/-! # Filtering loses no solution

    Whether an assignment satisfies a constraint depends on the scope of its
    filter only (`Sat.congr`), so what is known about valuations of the whole
    store is known about assignments of the scope (`call_lossless`).  The calls
    are the first run of a filter and the runs for events that are delivered to
    it. -/

namespace FiniteDomain

namespace Store

variable {s t : Store} {a b : Valuation} {v : VariableId}

/-- What the valuation gives to the variable lies in its domain. -/
def AdmitsAt (s : Store) (a : Valuation) : VariableId → Prop
  | .int x => (s.int x).contains (a.int x) = true
  | .set y => (s.set y).Admits (a.set y)
  | .graph g => (s.graph g).Admits (a.graph g)

theorem admits_iff : s.Admits a ↔ ∀ v, s.AdmitsAt a v := by
  constructor
  · intro h v
    cases v with
    | int x => exact h.int x
    | set y => exact h.set y
    | graph g => exact h.graph g
  · exact fun h => ⟨fun x => h (.int x), fun y => h (.set y), fun g => h (.graph g)⟩

/-- A step that raises an assignment has fixed the variable. -/
theorem Step.isFixed_of_raises (h : Step s t) {x : IntId}
    (hbefore : (Event.assign, VariableId.int x) ∉ s.events.toList)
    (hafter : (Event.assign, VariableId.int x) ∈ t.events.toList) : (t.int x).isFixed = true := by
  cases h with
  | @int z d entries e known chain changes reports =>
    obtain ⟨rfl, hz⟩ := Prod.mk.inj ((EventSink.mem_toList_raise.mp hafter).resolve_left hbefore)
    obtain rfl : x = z := VariableId.int.inj hz
    show ((s.changeInt x d entries).int x).isFixed = true
    rw [int_changeInt known]
    exact reports.assigned rfl
  | set y known chain changes reports =>
    cases (Prod.mk.inj ((EventSink.mem_toList_raise.mp hafter).resolve_left hbefore)).2
  | graph g known chain changes reports =>
    cases (Prod.mk.inj ((EventSink.mem_toList_raise.mp hafter).resolve_left hbefore)).2

end Store

namespace Valuation

variable {a b : Valuation} {v : VariableId}

/-- The valuations give the same to the variable. -/
def SameAt (a b : Valuation) : VariableId → Prop
  | .int x => a.int x = b.int x
  | .set y => a.set y = b.set y
  | .graph g => a.graph g = b.graph g

open Classical in
/-- The first valuation on the listed variables, the second elsewhere. -/
noncomputable def onScope (scope : List VariableId) (a b : Valuation) : Valuation where
  int x := if VariableId.int x ∈ scope then a.int x else b.int x
  set y := if VariableId.set y ∈ scope then a.set y else b.set y
  graph g := if VariableId.graph g ∈ scope then a.graph g else b.graph g

theorem sameAt_onScope {scope : List VariableId} (hv : v ∈ scope) :
    (onScope scope a b).SameAt a v := by
  cases v <;> exact if_pos hv

theorem sameAt_onScope_of_notMem {scope : List VariableId} (hv : v ∉ scope) :
    (onScope scope a b).SameAt b v := by
  cases v <;> exact if_neg hv

theorem SameAt.admitsAt_iff {s : Store} (h : a.SameAt b v) : s.AdmitsAt a v ↔ s.AdmitsAt b v := by
  cases v with
  | int x => exact iff_of_eq (congrArg (fun n => (s.int x).contains n = true) h)
  | set y => exact iff_of_eq (congrArg (s.set y).Admits h)
  | graph g => exact iff_of_eq (congrArg (s.graph g).Admits h)

end Valuation

namespace Filter

variable {f : Filter} {s : Store} {a b : Valuation}

/-- Only the scope matters. -/
theorem Sat.congr (h : ∀ v ∈ f.scope, a.SameAt b v) : f.Sat a ↔ f.Sat b := by
  have hview : ∀ x ∈ f.views, x.exactValue a.int = x.exactValue b.int := by
    intro x hx
    have hbase : a.int x.base = b.int x.base := h _ (base_mem_scope hx)
    rw [IntVar.exactValue_eq, IntVar.exactValue_eq, hbase]
  cases f with
  | distinctByValue vars =>
    exact iff_of_eq (congrArg List.Nodup (List.map_congr_left hview))
  | distinctByBounds vars =>
    exact iff_of_eq (congrArg List.Nodup (List.map_congr_left hview))
  | sumAtMost terms limit =>
    exact iff_of_eq (congrArg (fun l : List Int => l.sum ≤ limit) (List.map_congr_left hview))
  | atMost x y =>
    show x.exactValue a.int ≤ _ ↔ x.exactValue b.int ≤ _
    rw [hview x List.mem_cons_self, hview y (List.mem_cons_of_mem _ List.mem_cons_self)]
  | distinct x y =>
    show x.exactValue a.int ≠ _ ↔ x.exactValue b.int ≠ _
    rw [hview x List.mem_cons_self, hview y (List.mem_cons_of_mem _ List.mem_cons_self)]
  | subset y z =>
    have hy : a.set y = b.set y := h (.set y) List.mem_cons_self
    have hz : a.set z = b.set z := h (.set z) (List.mem_cons_of_mem _ List.mem_cons_self)
    show a.set y ⊆ _ ↔ b.set y ⊆ _
    rw [hy, hz]
  | disjoint y z =>
    have hy : a.set y = b.set y := h (.set y) List.mem_cons_self
    have hz : a.set z = b.set z := h (.set z) (List.mem_cons_of_mem _ List.mem_cons_self)
    show (∀ e ∈ a.set y, _) ↔ ∀ e ∈ b.set y, _
    rw [hy, hz]
  | member x y =>
    have hy : a.set y = b.set y := h (.set y) (List.mem_cons_of_mem _ List.mem_cons_self)
    show x.exactValue a.int ∈ _ ↔ x.exactValue b.int ∈ _
    rw [hview x List.mem_cons_self, hy]
  | oneNeighbour d g but =>
    exact iff_of_eq (congrArg (OneNeighbourBut d but) (h (.graph g) List.mem_cons_self))
  | pathNoCycle g source sink =>
    exact iff_of_eq (congrArg (PathsOnly source sink) (h (.graph g) List.mem_cons_self))

/-- Nothing else matters than the domains and the contents of the scope. -/
theorem Grants.congr {t : Store} {l : LocalId} (h : f.Grants l s a)
    (hstore : ∀ v ∈ f.scope, s.Untouched t v) (hsame : ∀ v ∈ f.scope, b.SameAt a v) :
    f.Grants l t b := by
  have hbase : ∀ x ∈ f.views, t.int x.base = s.int x.base := fun x hx =>
    hstore _ (base_mem_scope hx)
  have hbounds := fun x hx => IntVar.bounds_of_base (hbase x hx)
  have hfixed : ∀ x ∈ f.views, x.isFixed t = true →
      x.isFixed s = true ∧ x.lowerBound s = x.lowerBound t := fun x hx hfix =>
    ⟨(IntVar.isFixed_of_base (hbase x hx)).symm.trans hfix, (hbounds x hx).1.symm⟩
  have hvalue : ∀ x ∈ f.views, x.exactValue b.int = x.exactValue a.int := by
    intro x hx
    have hint : b.int x.base = a.int x.base := hsame _ (base_mem_scope hx)
    rw [IntVar.exactValue_eq, IntVar.exactValue_eq, hint]
  have hremovable : ∀ x ∈ f.views, ∀ k, x.Removable t k → x.Removable s k := by
    intro x hx k hk
    rwa [IntVar.Removable, hbase x hx] at hk
  have hapart : ∀ {vars : List IntVar} {i : Nat}, (∀ x ∈ vars, x ∈ f.views) →
      AllDifferent.Apart s vars i a → AllDifferent.Apart t vars i b := fun hvars h =>
    h.imp (fun x hi => hfixed x (hvars x (List.mem_of_getElem? hi)))
      (fun y hy => hremovable y (hvars y hy)) fun y hy => hvalue y (hvars y hy)
  -- what a filter grants is said with these readings of its scope
  cases f with
  | distinctByValue vars => exact hapart (fun _ h => h) h
  | distinctByBounds vars =>
    exact ⟨fun low high hle => (h.1 low high hle).congr hbounds hvalue,
      fun i => hapart (fun _ h => h) (h.2 i)⟩
  | sumAtMost terms limit =>
    have hsum : terms.map (·.lowerBound t) = terms.map (·.lowerBound s) :=
      List.map_congr_left fun x hx => (hbounds x hx).1
    refine ⟨hsum ▸ h.1, fun x hx => ?_⟩
    rw [hsum, hvalue x hx, (hbounds x hx).1]
    exact h.2 x hx
  | atMost x y =>
    have hx : x ∈ (Filter.atMost x y).views := List.mem_cons_self
    have hy : y ∈ (Filter.atMost x y).views := List.mem_cons_of_mem _ List.mem_cons_self
    show x.exactValue b.int ≤ y.upperBound t ∧ x.lowerBound t ≤ y.exactValue b.int
    rw [hvalue x hx, hvalue y hy, (hbounds x hx).1, (hbounds y hy).2]
    exact h
  | distinct x y =>
    have hx : x ∈ (Filter.distinct x y).views := List.mem_cons_self
    have hy : y ∈ (Filter.distinct x y).views := List.mem_cons_of_mem _ List.mem_cons_self
    exact ⟨AllDifferent.apart_imp (hfixed x hx) (hremovable y hy) (hvalue y hy) h.1,
      AllDifferent.apart_imp (hfixed y hy) (hremovable x hx) (hvalue x hx) h.2⟩
  | subset y z =>
    have hy : t.set y = s.set y := hstore _ List.mem_cons_self
    have hz : t.set z = s.set z := hstore _ (List.mem_cons_of_mem _ List.mem_cons_self)
    have hb : b.set y = a.set y := hsame _ List.mem_cons_self
    have hb' : b.set z = a.set z := hsame _ (List.mem_cons_of_mem _ List.mem_cons_self)
    simp only [Grants, hy, hz, hb, hb']
    exact h
  | disjoint y z =>
    have hy : t.set y = s.set y := hstore _ List.mem_cons_self
    have hz : t.set z = s.set z := hstore _ (List.mem_cons_of_mem _ List.mem_cons_self)
    have hb : b.set y = a.set y := hsame _ List.mem_cons_self
    have hb' : b.set z = a.set z := hsame _ (List.mem_cons_of_mem _ List.mem_cons_self)
    simp only [Grants, hy, hz, hb, hb']
    exact h
  | member x y =>
    have hx : x ∈ (Filter.member x y).views := List.mem_cons_self
    exact Member.Belongs.congr h (hbase x hx) (hstore _ (List.mem_cons_of_mem _ List.mem_cons_self))
      (hvalue x hx) (hsame _ (List.mem_cons_of_mem _ List.mem_cons_self))
  | oneNeighbour d g but =>
    have hg : t.graph g = s.graph g := hstore _ List.mem_cons_self
    have hb : b.graph g = a.graph g := hsame _ List.mem_cons_self
    simp only [Grants, hg, hb]
    exact h
  | pathNoCycle g source sink =>
    have hg : t.graph g = s.graph g := hstore _ List.mem_cons_self
    have hb : b.graph g = a.graph g := hsame _ List.mem_cons_self
    simp only [Grants, hg, hb]
    exact h

/-- The assignment of the scope lies in the domains of the store. -/
def Within (f : Filter) (s : Store) (a : Valuation) : Prop := ∀ v ∈ f.scope, s.AdmitsAt a v

/-- An assignment of the scope is part of a valuation of the store. -/
theorem Within.exists_admits (ha : f.Within s a) (hs : s.Wf) :
    ∃ b, s.Admits b ∧ ∀ v ∈ f.scope, b.SameAt a v := by
  obtain ⟨rest, hrest⟩ := hs.exists_admits
  refine ⟨Valuation.onScope f.scope a rest, Store.admits_iff.mpr fun v => ?_,
    fun v hv => Valuation.sameAt_onScope hv⟩
  by_cases hv : v ∈ f.scope
  · exact (Valuation.sameAt_onScope hv).admitsAt_iff.mpr (ha v hv)
  · exact (Valuation.sameAt_onScope_of_notMem hv).admitsAt_iff.mpr (Store.admits_iff.mp hrest v)

/-! ### Calls -/

/-- An event that is delivered to a position: a step has raised it for a variable that the
    position watches for it, and since then the store has at most become narrower. -/
def Delivered (f : Filter) (s : Store) (l : LocalId) (e : Event) : Prop :=
  ∃ w ∈ f.watches, w.position = l ∧ w.events.meets e.wakes = true
    ∧ ∃ before after : Store, before.Wf ∧ before.Step after
      ∧ (e, w.target) ∉ before.events.toList ∧ (e, w.target) ∈ after.events.toList
      ∧ after.Narrower s

theorem Delivered.expects {l : LocalId} {e : Event} (h : f.Delivered s l e) (hs : s.Wf)
    (hr : f.Ready s) : f.Expects s l := by
  obtain ⟨w, hw, rfl, hmeets, before, after, hbefore, hstep, hold, hnew, hnarrower⟩ := h
  refine expects_of_watch hs hr hw hmeets ?_
  rintro x rfl hx
  rw [hx] at hold hnew
  have hafter := (Store.Steps.single hstep).wf hbefore
  exact (hnarrower.intFixed hafter (hstep.isFixed_of_raises hold hnew)).1

/-- A call of a filter. -/
inductive Call where
  /-- The first run. -/
  | initial
  /-- The run for an event at a position. -/
  | propagate (l : LocalId) (e : Event)

/-- What the call answers. -/
def Call.run (f : Filter) (s : Store) : Call → Except Fault (Pass Filter)
  | .initial => Propagator.initial f s
  | .propagate l e => Propagator.propagate f l e s

/-- The call is one that is made: runs for events are made for delivered ones. -/
def Call.Due (f : Filter) (s : Store) : Call → Prop
  | .initial => True
  | .propagate l e => f.Delivered s l e

/-- A call answers; no satisfying assignment of the scope is lost by a call that succeeds, and a
    call refuses only if there is none. -/
theorem call_lossless {c : Call} (hs : s.Wf) (hr : f.Ready s) (hc : c.Due f s) :
    ∃ pass, c.run f s = .ok pass
      ∧ (pass.refusal? = none → ∀ a, f.Within s a → f.Sat a → f.Within pass.store a)
      ∧ ∀ refusal, pass.refusal? = some refusal → ∀ a, f.Within s a → ¬ f.Sat a := by
  obtain ⟨pass, hpass, post, hran⟩ :
      ∃ pass, c.run f s = .ok pass ∧ ∃ post, f.Ran f.Sat s post pass := by
    cases c with
    | initial =>
      obtain ⟨pass, hpass, hran⟩ := initial_spec hs hr
      exact ⟨pass, hpass, _, hran⟩
    | propagate l e =>
      obtain ⟨pass, hpass, hran⟩ := propagate_spec hs hr (Delivered.expects hc hs hr) e
      exact ⟨pass, hpass, _, hran⟩
  refine ⟨pass, hpass, fun _ a ha hfa v hv => ?_, fun refusal hrefusal a ha hfa => ?_⟩
  · obtain ⟨b, hb, hsame⟩ := ha.exists_admits hs
    have hkept := hran.kept b hb ((Sat.congr hsame).mpr hfa)
    exact (hsame v hv).admitsAt_iff.mp (Store.admits_iff.mp hkept v)
  · obtain ⟨b, hb, hsame⟩ := ha.exists_admits hs
    exact hran.refused refusal hrefusal b hb ((Sat.congr hsame).mpr hfa)

/-- Two variables with the values from 0 to 5. -/
def twoIntervals : Store :=
  ((Store.empty.addInt (IntegerDomain.bounded 0 5)).2.addInt (IntegerDomain.bounded 0 5)).2

theorem twoIntervals_wf : twoIntervals.Wf :=
  (Store.wf_empty.addInt (IntegerDomain.bounded_wf (by decide) (by decide))).addInt
    (IntegerDomain.bounded_wf (by decide) (by decide))

/-- The first of the two variables, the second, and the first plus two. -/
def shifted : Filter :=
  .distinctByValue [.plain ⟨0⟩, .plain ⟨1⟩, .view (.plain ⟨0⟩) ⟨1, 2, by decide⟩]

theorem mem_scope_shifted {v : VariableId} (hv : v ∈ shifted.scope) :
    v = .int ⟨0⟩ ∨ v = .int ⟨1⟩ := by
  have hcases : v = .int ⟨0⟩ ∨ v = .int ⟨1⟩ ∨ v = .int ⟨0⟩ := by
    simpa [shifted, scope, watches, watchAll, IntVar.watch, IntVar.base] using hv
  rcases hcases with h | h | h
  · exact Or.inl h
  · exact Or.inr h
  · exact Or.inl h

theorem shifted_ready : shifted.Ready twoIntervals := by
  refine ⟨by decide, fun x hx v hv => ?_, nofun, nofun⟩
  simp only [shifted, views, List.mem_cons, List.not_mem_nil, or_false] at hx
  have hbounds : 0 ≤ v ∧ v ≤ 5 := by
    rcases hx with rfl | rfl | rfl
    all_goals
      obtain ⟨hlow, hhigh, -⟩ := IntegerDomain.contains_iff.mp hv
      exact ⟨hlow, hhigh⟩
  rcases hx with rfl | rfl | rfl
  all_goals
    simp only [IntVar.Within, IntVar.image, AffineMap.image, Width.Fits, Width.interior,
      Width.value, minValue, maxValue]
    omega

/-- The first variable is 2, the second 3. -/
def twoAndThree : Valuation :=
  ⟨fun x => if x = ⟨0⟩ then 2 else 3, fun _ => ∅, fun _ => ⟨∅, ∅, fun _ _ h => h.elim⟩⟩

/-- Once the first variable is 2, its position is called; the assignment 2, 3, 4 is kept. -/
theorem call_lossless_shifted :
    ∃ pass, (Call.propagate ⟨0⟩ .assign).run shifted (twoIntervals.instantiate ⟨0⟩ 2).store
        = .ok pass
      ∧ pass.refusal? = none ∧ shifted.Within pass.store twoAndThree := by
  have hstep := (Store.instantiate_keeps twoIntervals_wf ⟨0⟩ 2).step rfl
  have hs := (Store.Steps.single hstep).wf twoIntervals_wf
  have hr := shifted_ready.steps (.single hstep) twoIntervals_wf
  have hdelivered : shifted.Delivered (twoIntervals.instantiate ⟨0⟩ 2).store ⟨0⟩ .assign :=
    ⟨_, List.mem_cons_self, rfl, rfl, _, _, twoIntervals_wf, hstep, List.not_mem_nil,
      EventSink.mem_toList_raise.mpr (Or.inr rfl), .refl hs⟩
  obtain ⟨pass, hpass, hkept, -⟩ := call_lossless (c := .propagate ⟨0⟩ .assign) hs hr hdelivered
  have hsuccess : pass.refusal? = none := by
    have hrun : ((Call.propagate ⟨0⟩ .assign).run shifted
        (twoIntervals.instantiate ⟨0⟩ 2).store).map (·.refusal?) = .ok none := by rfl
    rw [hpass] at hrun
    exact Except.ok.inj hrun
  refine ⟨pass, hpass, hsuccess, hkept hsuccess twoAndThree ?_ ?_⟩
  · intro v hv
    rcases mem_scope_shifted hv with rfl | rfl <;> rfl
  · show ([2, 3, 4] : List Int).Nodup
    decide

end Filter

end FiniteDomain
