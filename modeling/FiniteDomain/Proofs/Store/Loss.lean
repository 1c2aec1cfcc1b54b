import FiniteDomain.Proofs.Store.Contents

/-! # Every step loses a valuation

    An elementary change takes a content away from its domain, so a step of the
    store takes away a valuation.  A run of steps that loses none has made no step
    (`Steps.eq_of_admits`): this is how it is seen that a filter changes nothing.

    Enumerated domains stay enumerated, and a variable with one content left is
    not touched any more (`Steps.untouched`). -/

namespace FiniteDomain

/-! ### Losses -/

namespace Store

variable {s t : Store}

/-- A step takes away a valuation. -/
theorem Step.loses (h : Step s t) (hs : s.Wf) : ∃ a, s.Admits a ∧ ¬ t.Admits a := by
  obtain ⟨a, ha⟩ := hs.exists_admits
  cases h with
  | @int x d entries e known chain changes reports =>
    -- the value that is lost is given to the variable; all others keep theirs
    obtain ⟨v, hv, hlost⟩ := chain.exists_loss IntegerDomain.decreasing changes (hs.int x)
    refine ⟨a.withInt x v, ha.withInt hv, fun hadmits => hlost ?_⟩
    have hafter := hadmits.int x
    rw [Valuation.int_withInt_self] at hafter
    rw [← int_changeInt known d entries]
    exact hafter
  | @set y d entries e known chain changes reports =>
    obtain ⟨c, hc, hlost⟩ := chain.exists_loss SetDomain.decreasing changes (hs.set y)
    refine ⟨a.withSet y c, ha.withSet hc, fun hadmits => hlost ?_⟩
    have hafter := hadmits.set y
    rw [Valuation.set_withSet_self] at hafter
    rw [← set_changeSet known d entries]
    exact hafter
  | @graph g d entries e known chain changes reports =>
    obtain ⟨c, hc, hlost⟩ := chain.exists_loss GraphDomain.decreasing changes (hs.graph g)
    refine ⟨a.withGraph g c, ha.withGraph hc, fun hadmits => hlost ?_⟩
    have hafter := hadmits.graph g
    rw [Valuation.graph_withGraph_self] at hafter
    rw [← graph_changeGraph known d entries]
    exact hafter

/-- A run that loses no valuation has made no step. -/
theorem Steps.eq_of_admits (h : Steps s t) (hs : s.Wf)
    (hkept : ∀ a, s.Admits a → t.Admits a) : t = s := by
  rcases Relation.ReflTransGen.cases_head h with heq | ⟨u, hstep, hrest⟩
  · exact heq.symm
  · obtain ⟨a, ha, hlost⟩ := hstep.loses hs
    have hu : u.Wf := (Steps.single hstep).wf hs
    exact absurd (Steps.admits hrest hu (hkept a ha)) hlost

/-! ### Variables that are not touched -/

/-- The domain of the variable is the same in both stores. -/
def Untouched (s t : Store) : VariableId → Prop
  | .int x => t.int x = s.int x
  | .set y => t.set y = s.set y
  | .graph g => t.graph g = s.graph g

theorem SameDomains.untouched (h : SameDomains s t) (v : VariableId) : s.Untouched t v := by
  cases v with
  | int x => exact h.int x
  | set y => exact h.set y
  | graph g => exact h.graph g

/-- A step does not touch a variable with one content left. -/
theorem Step.untouched (h : Step s t) (hs : s.Wf) {v : VariableId} (hv : s.Settles v) :
    s.Untouched t v := by
  cases h with
  | @int z d entries e known chain changes reports =>
    cases v with
    | int x =>
      -- a change loses contents, and a single content cannot be lost
      refine int_changeInt_of_ne (fun heq => changes ?_) d entries
      subst heq
      have honly := (isFixed_iff_contains (hs.int x)).mp hv
      exact chain.entries_eq_nil IntegerDomain.decreasing (hs.int x) fun _ _ hc hc' =>
        (honly _ hc).trans (honly _ hc').symm
    | set y => rfl
    | graph g => rfl
  | @set z d entries e known chain changes reports =>
    cases v with
    | int x => rfl
    | set y =>
      refine set_changeSet_of_ne (fun heq => changes ?_) d entries
      subst heq
      exact chain.entries_eq_nil SetDomain.decreasing (hs.set y) fun _ _ hc hc' =>
        (SetDomain.admits_unique (hs.set y) hv hc).trans
          (SetDomain.admits_unique (hs.set y) hv hc').symm
    | graph g => rfl
  | @graph z d entries e known chain changes reports =>
    cases v with
    | int x => rfl
    | set y => rfl
    | graph g =>
      refine graph_changeGraph_of_ne (fun heq => changes ?_) d entries
      subst heq
      exact chain.entries_eq_nil GraphDomain.decreasing (hs.graph g) fun _ _ hc hc' =>
        (GraphDomain.admits_unique (hs.graph g) hv hc).trans
          (GraphDomain.admits_unique (hs.graph g) hv hc').symm

theorem Untouched.trans {u : Store} {v : VariableId} (h₁ : s.Untouched t v)
    (h₂ : t.Untouched u v) : s.Untouched u v := by
  cases v with
  | int x => exact Eq.trans h₂ h₁
  | set y => exact Eq.trans h₂ h₁
  | graph g => exact Eq.trans h₂ h₁

theorem Untouched.settles {v : VariableId} (h : s.Untouched t v) (hv : s.Settles v) :
    t.Settles v := by
  cases v with
  | int x => exact (congrArg IntegerDomain.isFixed h).trans hv
  | set y => exact (congrArg SetDomain.isFixed h).trans hv
  | graph g => exact (congrArg GraphDomain.isFixed h).trans hv

/-- A run does not touch a variable with one content left. -/
theorem Steps.untouched (h : Steps s t) (hs : s.Wf) {v : VariableId} (hv : s.Settles v) :
    s.Untouched t v := by
  induction h with
  | refl => exact (SameDomains.mk rfl rfl rfl).untouched v
  | tail before step ih =>
    have hsettles := (Steps.narrower before hs).settles hs hv
    exact ih.trans (step.untouched (Steps.wf before hs) hsettles)

/-! ### Enumerated domains -/

/-- Domains that are stored as sets of values stay so. -/
theorem Steps.isEnumerated (h : Steps s t) {x : IntId} (hx : (s.int x).isEnumerated = true) :
    (t.int x).isEnumerated = true :=
  h.toExtends.isEnumerated hx

end Store

end FiniteDomain
