import FiniteDomain.Proofs.Filter.Lossless

/-! # Judgements and runs agree with the constraint

    Judging the contents that are left and filtering them are two views of one
    constraint.  A filter that says that all assignments of its scope satisfy the
    constraint is right, and so is one that says that none does.  Once the scope is
    fixed there is one assignment: then something is said, a run changes nothing if
    the assignment satisfies the constraint, and it refuses if not
    (`judgement_agrees`). -/

namespace FiniteDomain

namespace Store

variable {s : Store} {a b : Valuation} {v : VariableId}

/-- A variable with one content left has the same in all valuations. -/
theorem Settles.sameAt (h : s.Settles v) (hs : s.Wf) (ha : s.AdmitsAt a v) (hb : s.AdmitsAt b v) :
    a.SameAt b v := by
  cases v with
  | int x =>
    have honly := (isFixed_iff_contains (hs.int x)).mp h
    exact (honly _ ha).trans (honly _ hb).symm
  | set y =>
    have honly := fun c => SetDomain.admits_unique (c := c) (hs.set y) h
    exact (honly _ ha).trans (honly _ hb).symm
  | graph g =>
    have honly := fun c => GraphDomain.admits_unique (c := c) (hs.graph g) h
    exact (honly _ ha).trans (honly _ hb).symm

end Store

namespace Filter

variable {f : Filter} {s : Store} {a : Valuation} {post : Store → Prop} {pass : Pass Filter}

/-- If all valuations satisfy the relation, a run that loses none of them changes nothing. -/
theorem Ran.idle {sat : Valuation → Prop} (h : f.Ran sat s post pass) (hs : s.Wf)
    (hall : ∀ a, s.Admits a → sat a) : pass.refusal? = none ∧ pass.store = s := by
  constructor
  · obtain ⟨a, ha⟩ := hs.exists_admits
    cases hrefusal : pass.refusal? with
    | none => rfl
    | some r => exact absurd (hall a ha) (h.refused r hrefusal a ha)
  · exact h.steps.eq_of_admits hs fun a ha => h.kept a ha (hall a ha)

/-- A first run that succeeds leaves a fixed scope alone only if the constraint is satisfied. -/
theorem Ran.sat_of_settles (h : f.Ran f.Sat s (f.Served (fun _ => True) s) pass)
    (hf : f.Decisive) (hs : s.Wf) (hr : f.Ready s) (hall : ∀ v ∈ f.scope, s.Settles v)
    (hsuccess : pass.refusal? = none) (ha : s.Admits a) : f.Sat a := by
  refine Filter.sat_of_settles hf hs hr hall (fun A hclash => ?_) ha
  obtain ⟨l, hl⟩ := hclash.nonempty
  exact h.no_clash hs hr hsuccess trivial hl hclash

/-- What is said about the assignments of the scope is right; for a fixed scope it is said whether
    the assignment satisfies the constraint, and a run does nothing or refuses accordingly. -/
theorem judgement_agrees (hf : f.Decisive) (hs : s.Wf) (hr : f.Ready s) :
    ∃ e, Propagator.entailment f s = .ok e
      ∧ (e = .holds → ∀ a, f.Within s a → f.Sat a)
      ∧ (e = .fails → ∀ a, f.Within s a → ¬ f.Sat a)
      ∧ ((∀ v ∈ f.scope, s.Settles v) → e ≠ .undecided
        ∧ ∃ pass, Propagator.initial f s = .ok pass ∧ ∀ a, f.Within s a →
          (f.Sat a → pass.refusal? = none ∧ pass.store = s)
          ∧ (¬ f.Sat a → pass.refusal? ≠ none)) := by
  obtain ⟨e, he, hjudges⟩ := entailment_spec hf hs hr
  refine ⟨e, he, fun hholds a ha => ?_, fun hfails a ha hsat => ?_, fun hall => ?_⟩
  · obtain ⟨b, hb, hsame⟩ := ha.exists_admits hs
    exact (Sat.congr hsame).mp (hjudges.holds hholds b hb)
  · obtain ⟨b, hb, hsame⟩ := ha.exists_admits hs
    exact hjudges.fails hfails b hb ((Sat.congr hsame).mpr hsat)
  · obtain ⟨pass, hpass, hran⟩ := initial_spec hs hr
    refine ⟨hjudges.decided hall, pass, hpass, fun a ha => ⟨fun hsat => ?_, fun hviolated => ?_⟩⟩
    · -- every valuation has the assignment as a part
      refine hran.idle hs fun b hb => (Sat.congr fun v hv => ?_).mpr hsat
      exact (hall v hv).sameAt hs (Store.admits_iff.mp hb v) (ha v hv)
    · intro hsuccess
      obtain ⟨b, hb, hsame⟩ := ha.exists_admits hs
      exact hviolated ((Sat.congr hsame).mp (hran.sat_of_settles hf hs hr hall hsuccess hb))

/-- The first variable is 2, the second 4. -/
def twoAndFour : Store := ((twoIntervals.instantiate ⟨0⟩ 2).store.instantiate ⟨1⟩ 4).store

/-- The first variable plus two is the second, which is noticed. -/
theorem judgement_agrees_shifted :
    ∃ e pass, Propagator.entailment shifted twoAndFour = .ok e ∧ e ≠ .undecided
      ∧ Propagator.initial shifted twoAndFour = .ok pass ∧ pass.refusal? ≠ none := by
  have hfirst := (Store.instantiate_keeps twoIntervals_wf ⟨0⟩ 2).step rfl
  have hmid := (Store.Steps.single hfirst).wf twoIntervals_wf
  have hsecond := (Store.instantiate_keeps hmid ⟨1⟩ 4).step rfl
  have hsteps := (Store.Steps.single hfirst).trans (.single hsecond)
  have hr : shifted.Ready twoAndFour := shifted_ready.steps hsteps twoIntervals_wf
  have hsettles : ∀ v ∈ shifted.scope, twoAndFour.Settles v := by
    intro v hv
    rcases mem_scope_shifted hv with rfl | rfl <;> rfl
  obtain ⟨e, he, -, -, hfixed⟩ := judgement_agrees (f := shifted) trivial (hsteps.wf twoIntervals_wf) hr
  obtain ⟨hdecided, pass, hpass, hrun⟩ := hfixed hsettles
  let a : Valuation :=
    ⟨fun x => if x = ⟨0⟩ then 2 else 4, fun _ => ∅, fun _ => ⟨∅, ∅, fun _ _ h => h.elim⟩⟩
  have hwithin : shifted.Within twoAndFour a := by
    intro v hv
    rcases mem_scope_shifted hv with rfl | rfl <;> rfl
  have hviolated : ¬ shifted.Sat a := by
    show ¬ ([2, 4, 4] : List Int).Nodup
    decide
  exact ⟨e, pass, he, hdecided, hpass, (hrun a hwithin).2 hviolated⟩

end Filter

end FiniteDomain
