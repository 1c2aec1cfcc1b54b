import FiniteDomain.Proofs.Filter.Sound

/-! # What propagation sees to

    Two things are said about spaces at rest: that no clash has gone unnoticed,
    and that no filter has anything left to do, which needs enumerated domains.
    Both are reached in the same way.  A `Concern` is what they have in common:
    something is amiss with a filter; a step that brings this about wakes the
    filter, and a run at one of the positions sees to it.

    `Concern.clashes` is about filters that check their constraint in the end,
    `Concern.unrest` about all filters. -/

namespace FiniteDomain

/-- Something that propagation sees to. -/
structure Concern where
  /-- The filter is looked at on the store. -/
  Regards : Filter → Store → Prop
  /-- Something is amiss with the filter, and a run at any of the positions sees to it. -/
  Amiss : Store → Filter → Set LocalId → Prop
  /-- Nothing will be amiss any more, so the filter may be passive. -/
  Closed : Store → Filter → Prop
  regards_steps : ∀ {f s t}, Regards f s → s.Steps t → Regards f t
  regards_sameDomains : ∀ {f s t}, Regards f s → s.SameDomains t → Regards f t
  closed_steps : ∀ {f s t}, s.Wf → f.Ready s → Regards f s → Closed s f → s.Steps t → Closed t f
  closed_sameDomains : ∀ {f s t}, s.Wf → f.Ready s → Regards f s → Closed s f →
    s.SameDomains t → Closed t f
  /-- There is a position. -/
  nonempty : ∀ {f s A}, Amiss s f A → A.Nonempty
  /-- Only the domains matter. -/
  amiss_sameDomains : ∀ {f s t A}, s.Wf → f.Ready s → Regards f s → s.SameDomains t →
    Amiss t f A → Amiss s f A
  /-- What a step brings about wakes the filter. -/
  amiss_steps : ∀ {f s t A}, s.Wf → f.Ready s → Regards f s → s.Steps t → Amiss t f A →
    Amiss s f A ∨ f.Woken t A
  /-- A run sees to it, unless it brings it about itself. -/
  amiss_ran : ∀ {f s l A} {sat : Valuation → Prop} {pass : Pass Filter}, s.Wf → f.Ready s →
    Regards f s → f.Ran sat s (f.Served (f.Handles l) s) pass → pass.refusal? = none → l ∈ A →
    Amiss pass.store f A → f.Woken pass.store A
  /-- A run after which the constraint may go unchecked leaves nothing amiss. -/
  amiss_ran_or : ∀ {f s l} {sat : Valuation → Prop} {pass : Pass Filter}, s.Wf → f.Ready s →
    Regards f s → f.Ran sat s (f.Served (f.Handles l) s) pass → pass.refusal? = none →
    f.Decisive ∨ ∀ A, ¬ Amiss pass.store f A
  /-- A filter may become passive that says that its constraint holds, if this can be relied upon
      or nothing is amiss. -/
  closed_of_holds : ∀ {f s}, s.Wf → f.Ready s → Regards f s → f.entailment s = .ok .holds →
    (f.Decisive ∨ ∀ A, ¬ Amiss s f A) → Closed s f

namespace Concern

open FiniteDomain.Filter

variable {f : Filter} {s t : Store} {l : LocalId} {sat : Valuation → Prop}

/-! ### Clashes -/

/-- A clash that is there after a run was brought about by it. -/
theorem clash_ran {A : Set LocalId} {pass : Pass Filter} (hs : s.Wf) (hr : f.Ready s)
    (hran : f.Ran sat s (f.Served (f.Handles l) s) pass) (hsuccess : pass.refusal? = none)
    (hl : l ∈ A) (hclash : Clash pass.store f A) : f.Woken pass.store A :=
  (hclash.of_steps hran.steps hs hr).resolve_left
    (hran.no_clash hs hr hsuccess (Handles.refl f l) hl)

/-- No clash goes unnoticed. -/
def clashes : Concern where
  Regards f _ := f.Decisive
  Amiss := Clash
  Closed s f := ∀ a, s.Admits a → f.Sat a
  regards_steps := fun hf _ => hf
  regards_sameDomains := fun hf _ => hf
  closed_steps := fun hs _ _ hsat hst a ha => hsat a (hst.admits hs ha)
  closed_sameDomains := fun _ _ _ hsat hst a ha => hsat a (hst.symm.admits ha)
  nonempty := Clash.nonempty
  amiss_sameDomains := fun _ _ _ hst hclash => hclash.sameDomains hst.symm
  amiss_steps := fun hs hr _ hst hclash => hclash.of_steps hst hs hr
  amiss_ran := fun hs hr _ => clash_ran hs hr
  amiss_ran_or := fun _ _ hf _ _ => Or.inl hf
  closed_of_holds := fun hs hr hf hholds _ => by
    obtain ⟨e, he, hjudges⟩ := entailment_spec hf hs hr
    exact hjudges.holds (Except.ok.inj (he.symm.trans hholds))

/-! ### Unrest -/

/-- The filter is not at rest at a position, which is handled at the given ones. -/
def Unrest (s : Store) (f : Filter) (A : Set LocalId) : Prop :=
  ∃ l, A = f.handlers l ∧ ¬ f.RestsAt l s

theorem rests_of_not_unrest (h : ∀ A, ¬ Unrest s f A) : f.Rests s := fun l => by
  by_contra hrest
  exact h _ ⟨l, rfl, hrest⟩

/-- The constraint holds whatever is left, or the filter is at rest and its scope is fixed. -/
def Spent (s : Store) (f : Filter) : Prop :=
  (∀ a, s.Admits a → f.Sat a) ∨ (f.Rests s ∧ ∀ v ∈ f.scope, s.Settles v)

theorem Spent.rests (h : Spent s f) (hs : s.Wf) (hr : f.Ready s) : f.Rests s := by
  rcases h with hsat | hrest
  · exact fun l a ha => .of_sat hs hr ha (hsat a ha) l
  · exact hrest.1

theorem Spent.of_untouched (h : Spent s f) (hst : s.Narrower t) (hs : s.Wf) (hr : f.Ready s)
    (henum : f.Enumerated s)
    (htouch : (∀ v ∈ f.scope, s.Settles v) → ∀ v ∈ f.scope, s.Untouched t v) : Spent t f := by
  rcases h with hsat | ⟨hrest, hall⟩
  · exact Or.inl fun a ha => hsat a (hst.admits a ha)
  · refine Or.inr ⟨fun l => ?_, fun v hv => hst.settles hs (hall v hv)⟩
    exact (hrest l).of_calm (.of_untouched (htouch hall) l) hst hr henum

theorem enumerated_steps (h : f.Enumerated s) (hst : s.Steps t) : f.Enumerated t :=
  fun x hx => hst.isEnumerated (h x hx)

theorem enumerated_sameDomains (h : f.Enumerated s) (hst : s.SameDomains t) : f.Enumerated t :=
  fun x hx => (congrArg IntegerDomain.isEnumerated (hst.int x.base)).trans (h x hx)

/-- A filter that was at rest where it has not been woken is at rest. -/
theorem unrest_steps {A : Set LocalId} (hs : s.Wf) (hr : f.Ready s) (henum : f.Enumerated s)
    (hst : s.Steps t) (h : Unrest t f A) : Unrest s f A ∨ f.Woken t A := by
  obtain ⟨l, rfl, hrest⟩ := h
  by_contra hno
  obtain ⟨hbefore, hquiet⟩ := not_or.mp hno
  have hrests : f.RestsAt l s := by
    by_contra hno
    exact hbefore ⟨l, rfl, hno⟩
  exact hrest (hrests.of_calm (calm_of_steps hst hs hr hquiet) (hst.narrower hs) hr henum)

/-- What a run was called for is left at rest unless the run has woken the filter. -/
theorem unrest_ran {A : Set LocalId} {pass : Pass Filter} (hs : s.Wf) (hr : f.Ready s)
    (henum : f.Enumerated s) (hran : f.Ran sat s (f.Served (f.Handles l) s) pass)
    (hsuccess : pass.refusal? = none) (hl : l ∈ A) (h : Unrest pass.store f A) :
    f.Woken pass.store A := by
  obtain ⟨l', rfl, hrest⟩ := h
  by_contra hquiet
  refine hrest (((hran.accepted hsuccess).done l' hl).restsAt ?_ (hran.steps.narrower hs) hr henum)
  exact calm_of_steps hran.steps hs hr hquiet

/-- A filter that leaves alone what it watches for has nothing left to do after a run. -/
theorem unrest_ran_or {pass : Pass Filter} (hs : s.Wf) (hr : f.Ready s)
    (henum : f.Enumerated s) (hran : f.Ran sat s (f.Served (f.Handles l) s) pass)
    (hsuccess : pass.refusal? = none) : f.Decisive ∨ ∀ A, ¬ Unrest pass.store f A := by
  rcases f.decisive_or with hf | ⟨g, source, sink, rfl⟩
  · exact Or.inl hf
  right
  rintro A ⟨l', rfl, hrest⟩
  obtain ⟨hdone, hcalm⟩ := hran.accepted hsuccess
  exact hrest ((hdone l' trivial).restsAt (hcalm.resolve_left id l') (hran.steps.narrower hs) hr
    henum)

theorem spent_of_holds (hs : s.Wf) (hr : f.Ready s) (hholds : f.entailment s = .ok .holds)
    (h : f.Decisive ∨ ∀ A, ¬ Unrest s f A) : Spent s f := by
  rcases f.decisive_or with hf | ⟨g, source, sink, rfl⟩
  · obtain ⟨e, he, hjudges⟩ := entailment_spec hf hs hr
    exact Or.inl (hjudges.holds (Except.ok.inj (he.symm.trans hholds)))
  · obtain ⟨e, he, hfixed⟩ := entailment_pathNoCycle hr
    refine Or.inr ⟨rests_of_not_unrest (h.resolve_left id), fun v hv => ?_⟩
    rw [List.mem_singleton.mp hv]
    exact hfixed (Except.ok.inj (he.symm.trans hholds))

/-- No filter over enumerated domains has anything left to do. -/
def unrest : Concern where
  Regards := Enumerated
  Amiss := Unrest
  Closed := Spent
  regards_steps := enumerated_steps
  regards_sameDomains := enumerated_sameDomains
  closed_steps := fun hs hr henum h hst =>
    h.of_untouched (hst.narrower hs) hs hr henum fun hall v hv => hst.untouched hs (hall v hv)
  closed_sameDomains := fun hs hr henum h hst =>
    h.of_untouched (hst.narrower hs) hs hr henum fun _ v _ => hst.untouched v
  nonempty := by
    rintro f s A ⟨l, rfl, -⟩
    exact ⟨l, Handles.refl f l⟩
  amiss_sameDomains := by
    rintro f s t A hs hr henum hst ⟨l, rfl, hrest⟩
    refine ⟨l, rfl, fun hbefore => hrest ?_⟩
    exact hbefore.of_calm (.of_untouched (fun v _ => hst.untouched v) l) (hst.narrower hs) hr henum
  amiss_steps := unrest_steps
  amiss_ran := unrest_ran
  amiss_ran_or := unrest_ran_or
  closed_of_holds := fun hs hr _ => spent_of_holds hs hr

end Concern

end FiniteDomain
