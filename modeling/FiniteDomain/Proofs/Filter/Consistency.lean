import FiniteDomain.Proofs.Filter.Demand

/-! # Filters that relate two variables

    A filter is consistent on a store if the domains of its scope hold nothing in
    vain (`Filter.Consistent`): every value of a variable, and either choice for an
    element that a set may have or not, is part of a valuation of the store that
    satisfies the constraint.

    To be at rest is less than that for most filters.  But a filter that relates
    two different variables, and whose integer domains are enumerated, is
    consistent as soon as it is at rest (`Rests.consistent`): what one variable
    keeps has been compared with all that the other one keeps. -/

namespace FiniteDomain

variable {s : Store}

/-! ### Valuations that are given at two variables -/

namespace Store

theorem Wf.exists_pair (hs : s.Wf) {x y : IntVar} (hne : x.base ≠ y.base) {k l : Int}
    (hk : x.Takes s k) (hl : y.Takes s l) :
    ∃ a, s.Admits a ∧ x.exactValue a.int = k ∧ y.exactValue a.int = l := by
  obtain ⟨v, hv, rfl⟩ := hk
  obtain ⟨w, hw, rfl⟩ := hl
  obtain ⟨a, ha, hvalues⟩ := hs.exists_admits_int fun z => if z = x.base then v else w
  have hx : a.int x.base = v := by
    have hvalue := hvalues x.base
    rw [if_pos rfl] at hvalue
    exact hvalue hv
  have hy : a.int y.base = w := by
    have hvalue := hvalues y.base
    rw [if_neg hne.symm] at hvalue
    exact hvalue hw
  exact ⟨a, ha, by rw [IntVar.exactValue_eq, hx], by rw [IntVar.exactValue_eq, hy]⟩

theorem Wf.exists_value (hs : s.Wf) {x : IntVar} {k : Int} (hk : x.Takes s k) :
    ∃ a, s.Admits a ∧ x.exactValue a.int = k := by
  obtain ⟨v, hv, rfl⟩ := hk
  obtain ⟨a, ha⟩ := hs.exists_admits
  exact ⟨a.withInt x.base v, ha.withInt hv,
    by rw [IntVar.exactValue_eq, Valuation.int_withInt_self]⟩

theorem Wf.exists_member (hs : s.Wf) {x : IntVar} {y : SetId} {k : Int} {c : Set Int}
    (hk : x.Takes s k) (hc : (s.set y).Admits c) :
    ∃ a, s.Admits a ∧ x.exactValue a.int = k ∧ a.set y = c := by
  obtain ⟨a, ha, hvalue⟩ := hs.exists_value hk
  exact ⟨a.withSet y c, ha.withSet hc, hvalue, Valuation.set_withSet_self ..⟩

theorem Wf.exists_sets (hs : s.Wf) {y z : SetId} (hne : y ≠ z) {c d : Set Int}
    (hc : (s.set y).Admits c) (hd : (s.set z).Admits d) :
    ∃ a, s.Admits a ∧ a.set y = c ∧ a.set z = d := by
  obtain ⟨a, ha⟩ := hs.exists_admits
  exact ⟨(a.withSet z d).withSet y c, (ha.withSet hd).withSet hc, Valuation.set_withSet_self ..,
    (if_neg hne.symm).trans (Valuation.set_withSet_self ..)⟩

end Store

/-- The certain elements and one that is possible are an admitted set. -/
theorem SetDomain.admits_insert_kernel {d : SetDomain} (hd : d.Wf) {e : Int}
    (he : d.inEnvelope e = true) : d.Admits (insert e {k | d.inKernel k = true}) := by
  refine fun k => ⟨fun hk => Set.mem_insert_of_mem e hk, ?_⟩
  rintro (rfl | hk)
  · exact he
  · exact SetDomain.inEnvelope_of_inKernel hd hk

/-- A variable that is not fixed has a value other than a given one. -/
theorem IntVar.exists_other {x : IntVar} (hs : s.Wf) (hx : x.Ranges Width.value s)
    (hfixed : ¬ x.isFixed s = true) (k : Int) : ∃ l, x.Takes s l ∧ l ≠ k := by
  have hne : x.lowerBound s ≠ x.upperBound s := by
    rwa [IntVar.isFixed, beq_iff_eq] at hfixed
  by_cases hk : x.lowerBound s = k
  · exact ⟨_, takes_upperBound hs hx, fun heq => hne (hk.trans heq.symm)⟩
  · exact ⟨_, takes_lowerBound hs hx, hk⟩

namespace Filter

variable {f : Filter} {x y : IntVar} {z : SetId}

/-! ### Consistency -/

/-- The filter relates two different variables. -/
def Pairs : Filter → Prop
  | .atMost x y | .distinct x y => x.base ≠ y.base
  | .subset y z | .disjoint y z => y ≠ z
  | .member _ _ => True
  | _ => False

/-- What is asked for is part of a valuation of the store that satisfies the constraint. -/
def Supports (f : Filter) (s : Store) (asked : Valuation → Prop) : Prop :=
  ∃ a, s.Admits a ∧ f.Sat a ∧ asked a

/-- All that the domains of the scope leave open has support. -/
structure Consistent (f : Filter) (s : Store) : Prop where
  /-- An integer variable can have each of its values. -/
  value : ∀ x ∈ f.views, ∀ k, x.contains s k = true →
    f.Supports s fun a => x.exactValue a.int = k
  /-- A set can have each of its possible elements. -/
  included : ∀ y, .set y ∈ f.scope → ∀ e, (s.set y).inEnvelope e = true →
    f.Supports s fun a => e ∈ a.set y
  /-- A set can lack each element that is not certain. -/
  excluded : ∀ y, .set y ∈ f.scope → ∀ e, ¬ (s.set y).inKernel e = true →
    f.Supports s fun a => e ∉ a.set y

/-- A filter between two integer variables is consistent if it is for their values. -/
theorem consistent_of_values (hr : f.Ready s) (hviews : f.views = [x, y])
    (hscope : ∀ z, VariableId.set z ∉ f.scope)
    (hfirst : ∀ k, x.Takes s k → f.Supports s fun a => x.exactValue a.int = k)
    (hsecond : ∀ k, y.Takes s k → f.Supports s fun a => y.exactValue a.int = k) :
    f.Consistent s where
  value := by
    intro w hw k hk
    have htakes := (IntVar.contains_iff (hr.values hw)).mp hk
    rw [hviews] at hw
    rcases List.mem_pair.mp hw with rfl | rfl
    · exact hfirst k htakes
    · exact hsecond k htakes
  included := fun z hz => absurd hz (hscope z)
  excluded := fun z hz => absurd hz (hscope z)

theorem Rests.consistent_atMost (h : (Filter.atMost x y).Rests s) (hs : s.Wf)
    (hr : (Filter.atMost x y).Ready s) (hne : x.base ≠ y.base) :
    (Filter.atMost x y).Consistent s := by
  have hx : x.Ranges Width.value s := hr.values List.mem_cons_self
  have hy : y.Ranges Width.value s := hr.values (List.mem_cons_of_mem _ List.mem_cons_self)
  have hscope : ∀ z, VariableId.set z ∉ (Filter.atMost x y).scope := by
    intro z hz
    rcases List.mem_pair.mp hz with heq | heq <;> cases heq
  refine consistent_of_values hr rfl hscope (fun k hk => ?_) fun k hk => ?_
  · -- the greatest value of the other variable is as good as any
    obtain ⟨a, ha, rfl⟩ := hs.exists_value hk
    have hle : x.exactValue a.int ≤ y.upperBound s := (h ⟨0⟩ a ha).1
    obtain ⟨b, hb, hfirst, hsecond⟩ := hs.exists_pair hne hk (IntVar.takes_upperBound hs hy)
    exact ⟨b, hb, by rw [Sat, hfirst, hsecond]; exact hle, hfirst⟩
  · obtain ⟨a, ha, rfl⟩ := hs.exists_value hk
    have hle : x.lowerBound s ≤ y.exactValue a.int := (h ⟨0⟩ a ha).2
    obtain ⟨b, hb, hfirst, hsecond⟩ := hs.exists_pair hne (IntVar.takes_lowerBound hs hx) hk
    exact ⟨b, hb, by rw [Sat, hfirst, hsecond]; exact hle, hsecond⟩

theorem Rests.consistent_distinct (h : (Filter.distinct x y).Rests s) (hs : s.Wf)
    (hr : (Filter.distinct x y).Ready s) (henum : (Filter.distinct x y).Enumerated s)
    (hne : x.base ≠ y.base) : (Filter.distinct x y).Consistent s := by
  have hx : x.Ranges Width.value s := hr.values List.mem_cons_self
  have hy : y.Ranges Width.value s := hr.values (List.mem_cons_of_mem _ List.mem_cons_self)
  have hscope : ∀ z, VariableId.set z ∉ (Filter.distinct x y).scope := by
    intro z hz
    rcases List.mem_pair.mp hz with heq | heq <;> cases heq
  refine consistent_of_values hr rfl hscope (fun k hk => ?_) fun k hk => ?_
  · -- the value was taken away if it is all that the other variable has
    by_cases hfixed : y.isFixed s = true
    · obtain ⟨a, ha, rfl⟩ := hs.exists_value hk
      have hvalue : x.exactValue a.int ≠ y.lowerBound s :=
        (h ⟨0⟩ a ha).2 hfixed (Or.inl (henum x List.mem_cons_self))
      refine ⟨a, ha, ?_, rfl⟩
      rw [Sat, IntVar.eq_lowerBound_of_isFixed hs hy hfixed (IntVar.takes_exactValue ha y)]
      exact hvalue
    · obtain ⟨l, hl, hother⟩ := IntVar.exists_other hs hy hfixed k
      obtain ⟨a, ha, hfirst, hsecond⟩ := hs.exists_pair hne hk hl
      exact ⟨a, ha, by rw [Sat, hfirst, hsecond]; exact hother.symm, hfirst⟩
  · by_cases hfixed : x.isFixed s = true
    · obtain ⟨a, ha, rfl⟩ := hs.exists_value hk
      have hvalue : y.exactValue a.int ≠ x.lowerBound s :=
        (h ⟨0⟩ a ha).1 hfixed (Or.inl (henum y (List.mem_cons_of_mem _ List.mem_cons_self)))
      refine ⟨a, ha, ?_, rfl⟩
      rw [Sat, IntVar.eq_lowerBound_of_isFixed hs hx hfixed (IntVar.takes_exactValue ha x)]
      exact hvalue.symm
    · obtain ⟨l, hl, hother⟩ := IntVar.exists_other hs hx hfixed k
      obtain ⟨a, ha, hfirst, hsecond⟩ := hs.exists_pair hne hl hk
      exact ⟨a, ha, by rw [Sat, hfirst, hsecond]; exact hother, hsecond⟩

theorem Rests.consistent_member (h : (Filter.member x z).Rests s) (hs : s.Wf)
    (hr : (Filter.member x z).Ready s) (henum : (Filter.member x z).Enumerated s) :
    (Filter.member x z).Consistent s := by
  have hx : x.Ranges Width.value s := hr.values List.mem_cons_self
  have hset : ∀ y, VariableId.set y ∈ (Filter.member x z).scope → y = z := by
    intro y hy
    rcases List.mem_pair.mp hy with heq | heq <;> cases heq
    rfl
  -- every value that is left is a possible element, since the others could be taken away
  have hpossible : ∀ k, x.Takes s k → (s.set z).inEnvelope k = true := by
    intro k hk
    obtain ⟨a, ha, rfl⟩ := hs.exists_value hk
    exact Member.Belongs.support (h ⟨0⟩ a ha) (Or.inl (henum x List.mem_cons_self))
  constructor
  · intro y hy k hk
    obtain rfl := List.mem_singleton.mp hy
    have htakes := (IntVar.contains_iff hx).mp hk
    obtain ⟨a, ha, hvalue, hcontent⟩ :=
      hs.exists_member htakes (SetDomain.admits_envelope (hs.set z))
    exact ⟨a, ha, by rw [Sat, hvalue, hcontent]; exact hpossible k htakes, hvalue⟩
  · intro y hy e he
    obtain rfl := hset y hy
    have htakes := IntVar.takes_lowerBound hs hx
    obtain ⟨a, ha, hvalue, hcontent⟩ :=
      hs.exists_member htakes (SetDomain.admits_envelope (hs.set y))
    exact ⟨a, ha, by rw [Sat, hvalue, hcontent]; exact hpossible _ htakes,
      (Set.ext_iff.mp hcontent e).mpr he⟩
  · intro y hy e he
    obtain rfl := hset y hy
    have hadmits := SetDomain.admits_kernel (hs.set y)
    by_cases hfixed : x.isFixed s = true
    · -- the value of a fixed variable is certain, so it is not the element that is left out
      obtain ⟨a, ha, hcontent⟩ : ∃ a, s.Admits a ∧ a.set y = {k | (s.set y).inKernel k = true} := by
        obtain ⟨a, ha⟩ := hs.exists_admits
        exact ⟨a.withSet y _, ha.withSet hadmits, Valuation.set_withSet_self ..⟩
      have hin := Member.Belongs.fixed (h ⟨0⟩ a ha) hfixed
      refine ⟨a, ha, ?_, fun hin => he ((Set.ext_iff.mp hcontent e).mp hin)⟩
      rw [Sat, IntVar.eq_lowerBound_of_isFixed hs hx hfixed (IntVar.takes_exactValue ha x)]
      exact hin
    · obtain ⟨k, hk, hother⟩ := IntVar.exists_other hs hx hfixed e
      obtain ⟨a, ha, hvalue, hcontent⟩ := hs.exists_member hk
        (SetDomain.admits_insert_kernel (hs.set y) (hpossible k hk))
      refine ⟨a, ha, by rw [Sat, hvalue, hcontent]; exact Set.mem_insert k _, ?_⟩
      intro hin
      rcases (Set.ext_iff.mp hcontent e).mp hin with rfl | hin
      · exact hother rfl
      · exact he hin

/-- A filter between two sets is consistent if it is for their elements. -/
theorem consistent_of_elements {y z : SetId} (hviews : f.views = [])
    (hscope : f.scope = [.set y, .set z])
    (hincluded : ∀ e, ((s.set y).inEnvelope e = true → f.Supports s fun a => e ∈ a.set y)
      ∧ ((s.set z).inEnvelope e = true → f.Supports s fun a => e ∈ a.set z))
    (hexcluded : ∀ e, (¬ (s.set y).inKernel e = true → f.Supports s fun a => e ∉ a.set y)
      ∧ (¬ (s.set z).inKernel e = true → f.Supports s fun a => e ∉ a.set z)) :
    f.Consistent s where
  value := by
    intro x hx
    rw [hviews] at hx
    exact absurd hx List.not_mem_nil
  included := by
    intro w hw e he
    rw [hscope] at hw
    rcases List.mem_pair.mp hw with heq | heq
    · cases heq
      exact (hincluded e).1 he
    · cases heq
      exact (hincluded e).2 he
  excluded := by
    intro w hw e he
    rw [hscope] at hw
    rcases List.mem_pair.mp hw with heq | heq
    · cases heq
      exact (hexcluded e).1 he
    · cases heq
      exact (hexcluded e).2 he

theorem Rests.consistent_subset {y z : SetId} (h : (Filter.subset y z).Rests s) (hs : s.Wf)
    (hne : y ≠ z) : (Filter.subset y z).Consistent s := by
  have hpair := fun c d hc hd => hs.exists_sets (c := c) (d := d) hne hc hd
  have hleast := SetDomain.admits_kernel (hs.set y)
  have hgreatest := SetDomain.admits_envelope (hs.set z)
  -- what is certain of the first set is certain of the second, what is possible is possible
  have hcertain : ∀ e, (s.set y).inKernel e = true → (s.set z).inKernel e = true := by
    intro e he
    obtain ⟨a, ha, -, hz⟩ := hpair _ _ hleast (SetDomain.admits_kernel (hs.set z))
    have hin : e ∈ a.set z := (h ⟨0⟩ a ha).1 e he
    rwa [hz] at hin
  have hpossible : ∀ e, (s.set y).inEnvelope e = true → (s.set z).inEnvelope e = true := by
    intro e he
    obtain ⟨a, ha, hy, -⟩ := hpair _ _ (SetDomain.admits_envelope (hs.set y)) hgreatest
    exact (h ⟨0⟩ a ha).2 e ((Set.ext_iff.mp hy e).mpr he)
  refine consistent_of_elements rfl rfl (fun e => ⟨fun he => ?_, fun he => ?_⟩)
    fun e => ⟨fun he => ?_, fun he => ?_⟩
  · obtain ⟨a, ha, hy, hz⟩ := hpair _ _ (SetDomain.admits_envelope (hs.set y)) hgreatest
    exact ⟨a, ha, by rw [Sat, hy, hz]; exact hpossible, (Set.ext_iff.mp hy e).mpr he⟩
  · obtain ⟨a, ha, hy, hz⟩ := hpair _ _ hleast hgreatest
    refine ⟨a, ha, ?_, (Set.ext_iff.mp hz e).mpr he⟩
    rw [Sat, hy, hz]
    exact fun k hk => SetDomain.inEnvelope_of_inKernel (hs.set z) (hcertain k hk)
  · obtain ⟨a, ha, hy, hz⟩ := hpair _ _ hleast hgreatest
    refine ⟨a, ha, ?_, fun hin => he ((Set.ext_iff.mp hy e).mp hin)⟩
    rw [Sat, hy, hz]
    exact fun k hk => SetDomain.inEnvelope_of_inKernel (hs.set z) (hcertain k hk)
  · obtain ⟨a, ha, hy, hz⟩ := hpair _ _ hleast (SetDomain.admits_kernel (hs.set z))
    exact ⟨a, ha, by rw [Sat, hy, hz]; exact hcertain, fun hin => he ((Set.ext_iff.mp hz e).mp hin)⟩

theorem Rests.consistent_disjoint {y z : SetId} (h : (Filter.disjoint y z).Rests s) (hs : s.Wf)
    (hne : y ≠ z) : (Filter.disjoint y z).Consistent s := by
  have hpair := fun c d hc hd => hs.exists_sets (c := c) (d := d) hne hc hd
  have hfirst := SetDomain.admits_kernel (hs.set y)
  have hsecond := SetDomain.admits_kernel (hs.set z)
  -- what is certain of one set is not even possible for the other
  have hapart : ∀ e, (s.set y).inKernel e = true → ¬ (s.set z).inEnvelope e = true := by
    intro e he hin
    obtain ⟨a, ha, -, hz⟩ := hpair _ _ hfirst (SetDomain.admits_envelope (hs.set z))
    exact (h ⟨0⟩ a ha).1 e he (by rw [hz]; exact hin)
  have hapart' : ∀ e, (s.set z).inKernel e = true → ¬ (s.set y).inEnvelope e = true := by
    intro e he hin
    obtain ⟨a, ha, hy, -⟩ := hpair _ _ (SetDomain.admits_envelope (hs.set y)) hsecond
    exact (h ⟨0⟩ a ha).2 e he (by rw [hy]; exact hin)
  have hkernels : ∀ e, (s.set y).inKernel e = true → ¬ (s.set z).inKernel e = true := fun e he hin =>
    hapart e he (SetDomain.inEnvelope_of_inKernel (hs.set z) hin)
  have hboth : ∃ a, s.Admits a ∧ (Filter.disjoint y z).Sat a
      ∧ a.set y = {e | (s.set y).inKernel e = true}
      ∧ a.set z = {e | (s.set z).inKernel e = true} := by
    obtain ⟨a, ha, hy, hz⟩ := hpair _ _ hfirst hsecond
    exact ⟨a, ha, by rw [Sat, hy, hz]; exact hkernels, hy, hz⟩
  refine consistent_of_elements rfl rfl (fun e => ⟨fun he => ?_, fun he => ?_⟩)
    fun e => ⟨fun he => ?_, fun he => ?_⟩
  · obtain ⟨a, ha, hy, hz⟩ := hpair _ _ (SetDomain.admits_insert_kernel (hs.set y) he) hsecond
    refine ⟨a, ha, ?_, (Set.ext_iff.mp hy e).mpr (Set.mem_insert e _)⟩
    rw [Sat, hy, hz]
    rintro k (rfl | hk)
    · exact fun hin => hapart' k hin he
    · exact hkernels k hk
  · obtain ⟨a, ha, hy, hz⟩ := hpair _ _ hfirst (SetDomain.admits_insert_kernel (hs.set z) he)
    refine ⟨a, ha, ?_, (Set.ext_iff.mp hz e).mpr (Set.mem_insert e _)⟩
    rw [Sat, hy, hz]
    rintro k hk (rfl | hin)
    · exact hapart k hk he
    · exact hkernels k hk hin
  · obtain ⟨a, ha, hsat, hy, -⟩ := hboth
    exact ⟨a, ha, hsat, fun hin => he ((Set.ext_iff.mp hy e).mp hin)⟩
  · obtain ⟨a, ha, hsat, -, hz⟩ := hboth
    exact ⟨a, ha, hsat, fun hin => he ((Set.ext_iff.mp hz e).mp hin)⟩

/-- A filter between two different variables that is at rest is consistent. -/
theorem Rests.consistent (h : f.Rests s) (hs : s.Wf) (hr : f.Ready s) (henum : f.Enumerated s)
    (hpairs : f.Pairs) : f.Consistent s := by
  cases f with
  | atMost x y => exact h.consistent_atMost hs hr hpairs
  | distinct x y => exact h.consistent_distinct hs hr henum hpairs
  | member x z => exact h.consistent_member hs hr henum
  | subset y z => exact h.consistent_subset hs hpairs
  | disjoint y z => exact h.consistent_disjoint hs hpairs
  | distinctByValue vars => exact hpairs.elim
  | distinctByBounds vars => exact hpairs.elim
  | sumAtMost terms limit => exact hpairs.elim
  | oneNeighbour d g but => exact hpairs.elim
  | pathNoCycle g source sink => exact hpairs.elim

end Filter

end FiniteDomain
