import FiniteDomain.Proofs.Filter.Chains
import FiniteDomain.Proofs.Propagation.Fixpoint

/-! # What is left of a constraint

    A concern may differ from filter to filter (`Concern.each`).  `Concern.lapses` is
    about all filters at once: those that check their constraint in the end are
    watched for clashes, those of paths for anything that is left to do.  So once
    propagation has come to rest and the scope of a filter is fixed, the filter
    passes what is left (`Space.Watchful.passes`): its constraint is satisfied, or
    that much of it that the filter of paths checks. -/

namespace FiniteDomain

namespace Filter

/-- The valuation is what the filter lets through once its scope is fixed. -/
def Passes : Filter → Valuation → Prop
  | .pathNoCycle g source sink, a => ChainsOnly source sink (a.graph g)
  | f, a => f.Sat a

variable {f : Filter} {a : Valuation}

theorem passes_of_decisive (hf : f.Decisive) : f.Passes a ↔ f.Sat a := by
  cases f with
  | pathNoCycle g source sink => exact hf.elim
  | _ => exact Iff.rfl

/-- A filter lets through what satisfies its constraint. -/
theorem Sat.passes (h : f.Sat a) : f.Passes a := by
  rcases f.decisive_or with hf | ⟨g, source, sink, rfl⟩
  · exact (passes_of_decisive hf).mpr h
  · exact PathsOnly.chainsOnly h

/-- The filter of paths lets through the graph on which it is at rest. -/
theorem passes_pathNoCycle_of_rests {s : Store} {g : GraphId} {source sink : Nat} (hs : s.Wf)
    (h : (Filter.pathNoCycle g source sink).Rests s) (hfixed : s.Settles (.graph g))
    (ha : s.Admits a) : (Filter.pathNoCycle g source sink).Passes a := by
  have havoids : PathNoCycle.Avoids (s.graph g) source sink fun m n => (m, n) ∈ (a.graph g).arcs :=
    h ⟨0⟩ a ha
  show ChainsOnly source sink (a.graph g)
  rw [GraphDomain.admits_unique (hs.graph g) hfixed (ha.graph g)] at havoids ⊢
  exact (PathNoCycle.avoids_iff (hs.graph g)).mp havoids

end Filter

namespace Concern

/-- What is seen to may depend on the filter. -/
def each (choice : Filter → Concern) : Concern where
  Regards f := (choice f).Regards f
  Amiss s f := (choice f).Amiss s f
  Closed s f := (choice f).Closed s f
  regards_steps := (choice _).regards_steps
  regards_sameDomains := (choice _).regards_sameDomains
  closed_steps := (choice _).closed_steps
  closed_sameDomains := (choice _).closed_sameDomains
  nonempty := (choice _).nonempty
  amiss_sameDomains := (choice _).amiss_sameDomains
  amiss_steps := (choice _).amiss_steps
  amiss_ran := (choice _).amiss_ran
  amiss_ran_or := (choice _).amiss_ran_or
  closed_of_holds := (choice _).closed_of_holds

/-- What is seen to of a filter: that nothing is left to do for those of paths, that there is no
    clash for those that check their constraint in the end. -/
def ofFilter : Filter → Concern
  | .pathNoCycle _ _ _ => unrest
  | _ => clashes

theorem ofFilter_of_decisive {f : Filter} (hf : f.Decisive) : ofFilter f = clashes := by
  cases f with
  | pathNoCycle g source sink => exact hf.elim
  | _ => rfl

/-- No constraint goes unchecked as far as its filter checks it. -/
def lapses : Concern := each ofFilter

/-- All filters are looked at: those of paths have no integer domain in their scope. -/
theorem regards_lapses (f : Filter) (s : Store) : lapses.Regards f s := by
  cases f with
  | pathNoCycle g source sink => exact fun x hx => absurd hx List.not_mem_nil
  | _ => exact trivial

end Concern

namespace Space

variable {sp : Space Filter} {f : Filter} {i : Nat} {a : Valuation}

/-- Once propagation has come to rest and the scope of a filter is fixed, the filter passes what is
    left. -/
theorem Watchful.passes (h : sp.Watchful .lapses fun _ _ => False) (hsettled : sp.Settled)
    (hf : sp.filterAt? i = some f) (hall : ∀ v ∈ f.scope, sp.store.Settles v)
    (ha : sp.store.Admits a) : f.Passes a := by
  have hready := h.ready i f hf
  -- a passive filter is closed, and with an active one nothing is amiss
  have hcases : (Concern.ofFilter f).Closed sp.store f
      ∨ ∀ A, ¬ (Concern.ofFilter f).Amiss sp.store f A := by
    cases hpassive : sp.store.isPassive ⟨i⟩ with
    | true =>
      obtain ⟨g, hg, hclosed⟩ := h.closed i hpassive
      obtain rfl : g = f := Option.some.inj (hg.symm.trans hf)
      exact Or.inl hclosed
    | false => exact Or.inr (h.not_amiss hsettled ⟨hf, hpassive⟩)
  rcases f.decisive_or with hdecisive | ⟨g, source, sink, rfl⟩
  · rw [Filter.passes_of_decisive hdecisive]
    rw [Concern.ofFilter_of_decisive hdecisive] at hcases
    rcases hcases with hsat | hclash
    · exact hsat a ha
    · exact Filter.sat_of_settles hdecisive h.wf hready hall hclash ha
  · refine Filter.passes_pathNoCycle_of_rests h.wf ?_ (hall _ List.mem_cons_self) ha
    rcases hcases with hspent | hrest
    · exact Concern.Spent.rests hspent h.wf hready
    · exact Concern.rests_of_not_unrest hrest

/-! ### All filters -/

/-- The valuation is admitted and passes all filters. -/
def Passes (sp : Space Filter) (a : Valuation) : Prop :=
  sp.store.Admits a ∧ ∀ i f, sp.filterAt? i = some f → f.Passes a

theorem passes_entered (a : Valuation) : (sp.entered f).Passes a ↔ sp.Passes a ∧ f.Passes a := by
  unfold Passes
  rw [and_assoc]
  exact and_congr_right fun _ => forall_entered

/-- What passes where the space leads has passed before. -/
theorem Leads.passes {sp' : Space Filter} (h : sp.Leads sp') (hs : sp.store.Wf)
    (ha : sp'.Passes a) : sp.Passes a :=
  ⟨(h.narrower hs).admits a ha.1, fun i f hf => ha.2 i f ((h.filterAt i).trans hf)⟩

end Space

end FiniteDomain
