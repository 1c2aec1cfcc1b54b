import FiniteDomain.Proofs.Filter.Consistency
import FiniteDomain.Proofs.Propagation.Rest

/-! # Enumerated domains among others

    `Concern.unrest` looks at filters over enumerated domains only.  In a model that
    has domains of both kinds `Concern.chores` looks at all filters, and something
    is amiss with those that are over enumerated domains and not at rest.  Domains
    keep their kind, so it does not change what is looked for.

    Once propagation has come to rest, the filters over enumerated domains are at
    rest, whatever else the model consists of (`Watchful.rests_enumerated`), and
    those that relate two different variables are consistent
    (`Watchful.consistent`). -/

namespace FiniteDomain

namespace Concern

open FiniteDomain.Filter

variable {f : Filter} {s t : Store}

/-- Domains that are stored as sets of values have been so before. -/
theorem enumerated_of_steps (h : f.Enumerated t) (hst : s.Steps t) : f.Enumerated s :=
  fun x hx => (hst.toExtends.isEnumerated_eq x.base).symm.trans (h x hx)

/-- No filter has anything left to do if its domains are enumerated. -/
def chores : Concern where
  Regards _ _ := True
  Amiss s f A := f.Enumerated s ∧ Unrest s f A
  Closed s f := f.Enumerated s → Spent s f
  regards_steps := fun _ _ => trivial
  regards_sameDomains := fun _ _ => trivial
  closed_steps := fun hs hr _ h hst henum =>
    have hbefore := enumerated_of_steps henum hst
    unrest.closed_steps hs hr hbefore (h hbefore) hst
  closed_sameDomains := fun hs hr _ h hst henum =>
    have hbefore := enumerated_sameDomains henum hst.symm
    unrest.closed_sameDomains hs hr hbefore (h hbefore) hst
  nonempty := fun h => unrest.nonempty h.2
  amiss_sameDomains := fun hs hr _ hst h =>
    have hbefore := enumerated_sameDomains h.1 hst.symm
    ⟨hbefore, unrest.amiss_sameDomains hs hr hbefore hst h.2⟩
  amiss_steps := fun hs hr _ hst h =>
    have hbefore := enumerated_of_steps h.1 hst
    (unrest_steps hs hr hbefore hst h.2).imp_left fun hunrest => ⟨hbefore, hunrest⟩
  amiss_ran := fun hs hr _ hran hsuccess hl h =>
    unrest_ran hs hr (enumerated_of_steps h.1 hran.steps) hran hsuccess hl h.2
  amiss_ran_or := fun {f s _ _ pass} hs hr _ hran hsuccess => by
    by_cases henum : f.Enumerated s
    · exact (unrest_ran_or hs hr henum hran hsuccess).imp_right fun hquiet A h => hquiet A h.2
    · exact Or.inr fun A h => henum (enumerated_of_steps h.1 hran.steps)
  closed_of_holds := fun hs hr _ hholds h henum =>
    spent_of_holds hs hr hholds (h.imp_right fun hquiet A hunrest => hquiet A ⟨henum, hunrest⟩)

theorem regards_chores (f : Filter) (s : Store) : chores.Regards f s := trivial

end Concern

namespace Space

variable {sp : Space Filter} {f : Filter} {i : Nat}

/-- The filters over enumerated domains are at rest, whether they are passive or not. -/
theorem Watchful.rests_enumerated (h : sp.Watchful .chores fun _ _ => False)
    (hsettled : sp.Settled) (hf : sp.filterAt? i = some f) (henum : f.Enumerated sp.store) :
    f.Rests sp.store := by
  cases hpassive : sp.store.isPassive ⟨i⟩ with
  | true =>
    obtain ⟨g, hg, hclosed⟩ := h.closed i hpassive
    obtain rfl : g = f := Option.some.inj (hg.symm.trans hf)
    exact Concern.Spent.rests (hclosed henum) h.wf (h.ready i g hf)
  | false =>
    refine Concern.rests_of_not_unrest fun A hunrest => ?_
    exact h.not_amiss hsettled ⟨hf, hpassive⟩ A ⟨henum, hunrest⟩

/-- The posted filters that relate two different variables with enumerated domains are
    consistent. -/
def Consistent (sp : Space Filter) : Prop :=
  ∀ i f, sp.filterAt? i = some f → f.Pairs → f.Enumerated sp.store → f.Consistent sp.store

theorem Watchful.consistent (h : sp.Watchful .chores fun _ _ => False) (hsettled : sp.Settled) :
    sp.Consistent :=
  fun i f hf hpairs henum =>
    (h.rests_enumerated hsettled hf henum).consistent h.wf (h.ready i f hf) henum hpairs

/-- All filters of the space are over enumerated domains. -/
theorem Watchful.consistent_of_unrest (h : sp.Watchful .unrest fun _ _ => False)
    (hsettled : sp.Settled) : sp.Consistent :=
  fun i f hf hpairs _ =>
    (h.rests hsettled hf).consistent h.wf (h.ready i f hf) (h.regards i f hf) hpairs

end Space

end FiniteDomain
