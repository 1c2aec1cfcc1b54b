import FiniteDomain.Proofs.Filter.Consistency
import FiniteDomain.Proofs.Model.Growth
import FiniteDomain.Proofs.Variable.Saturation

/-! # Values that are excluded

    Filters that know at one position of their scope that the variable at another
    one cannot have a value exclude this value (`Filter.Excludes`): the value of a
    fixed variable, if the variables are to differ, and a value that no element of
    the set can be, if the variable is to be an element.

    A call at the position takes an excluded value away where that is possible,
    which it is for a bound (`Excludes.grants_of_call`, `Excludes.ne_of_grants`).  A
    filter is woken by whatever makes it exclude a value (`Excludes.before_or_asked`),
    but these filters do not listen to bounds.  And it says that its constraint
    holds only where no bound is ever excluded (`Excludes.not_isBound_of_holds`). -/

namespace FiniteDomain

/-! ### Bounds -/

namespace IntVar

variable {x : IntVar} {s t : Store} {k : Int}

/-- The number is the least or the greatest value of the variable. -/
def IsBound (x : IntVar) (s : Store) (k : Int) : Prop := x.lowerBound s = k ∨ x.upperBound s = k

/-- The number lies strictly between the bounds. -/
def Inside (x : IntVar) (s : Store) (k : Int) : Prop := x.lowerBound s < k ∧ k < x.upperBound s

theorem IsBound.takes (h : x.IsBound s k) (hs : s.Wf) (hx : x.Ranges Width.value s) :
    x.Takes s k := by
  rcases h with rfl | rfl
  · exact takes_lowerBound hs hx
  · exact takes_upperBound hs hx

theorem IsBound.removable (h : x.IsBound s k) (hs : s.Wf) (hx : x.Ranges Width.value s) :
    x.Removable s k := by
  rcases h with rfl | rfl
  · exact removable_lowerBound hs hx
  · exact removable_upperBound hs hx

/-- A bound that was not strictly between the bounds before was one of them before. -/
theorem IsBound.before (h : x.IsBound t k) (ht : t.Wf)
    (hmoved : x.lowerBound s ≤ x.lowerBound t ∧ x.upperBound t ≤ x.upperBound s)
    (houtside : ¬ x.Inside s k) : x.IsBound s k := by
  have hle := x.lowerBound_le_upperBound ht
  unfold IsBound Inside at *
  omega

theorem Inside.before (h : x.Inside t k)
    (hmoved : x.lowerBound s ≤ x.lowerBound t ∧ x.upperBound t ≤ x.upperBound s) :
    x.Inside s k :=
  ⟨Int.lt_of_le_of_lt hmoved.1 h.1, Int.lt_of_lt_of_le h.2 hmoved.2⟩

end IntVar

/-- The bounds of a variable that was there before have only moved inwards. -/
theorem Store.Evolves.bounds {s t : Store} (h : s.Evolves t) (ht : t.Wf) {x : IntVar}
    (hx : s.knows (.int x.base) = true) :
    x.lowerBound s ≤ x.lowerBound t ∧ x.upperBound t ≤ x.upperBound s :=
  x.bounds_of_subset ht fun _ hv => h.contains ht hx hv

/-! ### What is excluded -/

/-- The variable at a position is fixed to the number, and the other variable has a position of its
    own. -/
def AllDifferent.Claims (vars : List IntVar) (i : Nat) (s : Store) (y : IntVar) (k : Int) : Prop :=
  ∃ x j, j ≠ i ∧ vars[i]? = some x ∧ vars[j]? = some y ∧ x.isFixed s = true ∧ x.lowerBound s = k

namespace Filter

variable {f : Filter} {l : LocalId} {s t : Store} {y : IntVar} {k : Int} {a : Valuation}

/-- It is known at the position that the variable cannot have the value. -/
def Excludes : Filter → LocalId → Store → IntVar → Int → Prop
  | .distinct a b, l, s, y, k => AllDifferent.Claims [a, b] l.index s y k
  | .distinctByValue vars, l, s, y, k => AllDifferent.Claims vars l.index s y k
  | .member x z, l, s, y, k => l = ⟨1⟩ ∧ y = x ∧ (s.set z).inEnvelope k = false
  | _, _, _, _, _ => False

/-- The filter is one of those that exclude values. -/
def Excluding : Filter → Prop
  | .distinct _ _ | .distinctByValue _ | .member _ _ => True
  | _ => False

/-- The variables exist, what they show are values in the range, and all of them can be listed where
    this is needed. -/
structure Legible (f : Filter) (s : Store) : Prop where
  /-- The variables exist. -/
  known : ∀ v ∈ f.scope, s.knows v = true
  /-- No value is saturated. -/
  ranges : ∀ x ∈ f.views, x.Ranges Width.value s
  /-- No value of an element is hidden. -/
  shelters : ∀ x z, f = .member x z → ∀ k, x.Shelters s k

theorem Excludes.excluding (h : f.Excludes l s y k) : f.Excluding := by
  cases f with
  | distinct _ _ => exact trivial
  | distinctByValue _ => exact trivial
  | member _ _ => exact trivial
  | _ => exact h

theorem Excludes.mem_views (h : f.Excludes l s y k) : y ∈ f.views := by
  cases f with
  | distinct a b =>
    obtain ⟨-, j, -, -, hj, -⟩ := h
    exact List.mem_of_getElem? hj
  | distinctByValue vars =>
    obtain ⟨-, j, -, -, hj, -⟩ := h
    exact List.mem_of_getElem? hj
  | member x z =>
    obtain ⟨-, rfl, -⟩ := h
    exact List.mem_cons_self
  | _ => exact h.elim

theorem Legible.evolves (h : f.Legible s) (ht : t.Wf) (hst : s.Evolves t) : f.Legible t where
  known := fun v hv => hst.knows v (h.known v hv)
  ranges := fun x hx v hv => h.ranges x hx v (hst.contains ht (h.known _ (base_mem_scope hx)) hv)
  shelters := by
    rintro x z rfl k v hv heq
    have hbase := h.known _ (base_mem_scope (f := .member x z) List.mem_cons_self)
    exact h.shelters x z rfl k v (hst.contains ht hbase hv) heq

/-- What is excluded in the greater store was excluded before. -/
theorem Excludes.of_grows (hknown : ∀ v ∈ f.scope, s.knows v = true) (hst : s.Grows t)
    (h : f.Excludes l t y k) : f.Excludes l s y k := by
  have hclaims : ∀ {vars : List IntVar}, (∀ x ∈ vars, x ∈ f.views) →
      AllDifferent.Claims vars l.index t y k → AllDifferent.Claims vars l.index s y k := by
    rintro vars hvars ⟨x, j, hne, hi, hj, hfixed, heq⟩
    have hbase := hst.int x.base (hknown _ (base_mem_scope (hvars x (List.mem_of_getElem? hi))))
    obtain ⟨hlower, -⟩ := IntVar.bounds_of_base hbase
    rw [IntVar.isFixed_of_base hbase] at hfixed
    exact ⟨x, j, hne, hi, hj, hfixed, hlower.symm.trans heq⟩
  cases f with
  | distinct a b => exact hclaims (fun _ hx => hx) h
  | distinctByValue vars => exact hclaims (fun _ hx => hx) h
  | member x z =>
    obtain ⟨rfl, rfl, hout⟩ := h
    have hz := hst.set z (hknown _ (List.mem_cons_of_mem _ List.mem_cons_self))
    exact ⟨rfl, rfl, hz ▸ hout⟩
  | _ => exact h

/-! ### Calls -/

/-- A valuation that has what is demanded at the position does not give the variable the value, if
    the value can be taken away. -/
theorem Excludes.ne_of_grants (h : f.Excludes l s y k) (hgrants : f.Grants l s a)
    (hremovable : y.Removable s k) : y.exactValue a.int ≠ k := by
  cases f with
  | distinct b c =>
    -- the position is that of one of the two variables
    obtain ⟨x, j, hne, hi, hj, hfixed, rfl⟩ := h
    obtain ⟨hfirst, hsecond⟩ := hgrants
    rcases hl : l.index with _ | _ | n <;> rw [hl] at hne hi
    · obtain rfl := Option.some.inj hi
      rcases j with _ | _ | j
      · exact absurd rfl hne
      · obtain rfl := Option.some.inj hj
        exact hfirst hfixed hremovable
      · cases hj
    · obtain rfl := Option.some.inj hi
      rcases j with _ | _ | j
      · obtain rfl := Option.some.inj hj
        exact hsecond hfixed hremovable
      · exact absurd rfl hne
      · cases hj
    · cases hi
  | distinctByValue vars =>
    obtain ⟨x, j, hne, hi, hj, hfixed, rfl⟩ := h
    exact hgrants j x y hne hi hj hfixed hremovable
  | member x z =>
    obtain ⟨-, rfl, hout⟩ := h
    rintro rfl
    have hin := Member.Belongs.support hgrants hremovable
    rw [hout] at hin
    cases hin
  | _ => exact h.elim

/-- Nothing is demanded of valuations if none of them matters. -/
theorem granted_false : f.Granted (fun _ => False) s := fun _ _ _ _ hfalse => hfalse.elim

/-- After a call that succeeds at a position where a value is excluded, all that is left has what
    was demanded there. -/
theorem Excludes.grants_of_call (h : f.Excludes l s y k) (hs : s.Wf) (hlegible : f.Legible s)
    {c : Call} (hc : c = .initial ∨ ∃ e, c = .propagate l e) {pass : Pass Filter}
    (hrun : c.run f s = .ok pass) (hsuccess : pass.refusal? = none) :
    ∀ a, pass.store.Admits a → f.Grants l s a := by
  have hpassed : ∀ program : Filtering Unit,
      Filtering.Sound (fun _ => False) program s (fun _ t => ∀ a, t.Admits a → f.Grants l s a) →
      Pass.ofFilter f (f.guarded program) s = .ok pass →
      ∀ a, pass.store.Admits a → f.Grants l s a := by
    intro program hsound hpass
    obtain ⟨pass', hpass', hran⟩ := ran_ofFilter (f := f) (sound_guarded hlegible.known hsound)
    obtain rfl := Except.ok.inj (hpass'.symm.trans hpass)
    exact hran.accepted hsuccess
  -- all but one of the programs are the same at all positions
  have hwhole : (∀ l, f.programAt l = f.program) →
      Filtering.Sound (fun _ => False) f.program s (fun _ t => ∀ a, t.Admits a → f.Grants l s a) →
      ∀ a, pass.store.Admits a → f.Grants l s a := by
    intro hsame hsound
    rcases hc with rfl | ⟨e, rfl⟩
    · exact hpassed _ hsound hrun
    · refine hpassed (f.programAt l) ?_ hrun
      rwa [hsame]
  cases f with
  | distinct b c =>
    have hb := hlegible.ranges b List.mem_cons_self
    have hc := hlegible.ranges c (List.mem_cons_of_mem _ List.mem_cons_self)
    exact hwhole (fun _ => rfl) (Distinct.sound hs hb hc granted_false)
  | distinctByValue vars =>
    have hapart : AllDifferent.KeptApart vars (fun _ => False) s :=
      fun _ _ _ _ hfalse => hfalse.elim
    obtain ⟨x, j, -, hi, -, hfixed, -⟩ := h
    rcases hc with rfl | ⟨e, rfl⟩
    · refine hpassed (AllDifferent.byValue vars) ?_ hrun
      exact (AllDifferent.sound_byValue hs hlegible.ranges hapart).imp
        fun _ t _ hpost => hpost l.index
    · refine hpassed (AllDifferent.byValueAt vars l.index) ?_ hrun
      exact AllDifferent.sound_byValueAt hs hlegible.ranges hapart ⟨x, hi, hfixed⟩
  | member x z =>
    have hx := hlegible.ranges x List.mem_cons_self
    exact hwhole (fun _ => rfl) (Member.sound hs hx (hlegible.shelters x z rfl) granted_false)
  | _ => exact h.elim

/-! ### Watches -/

/-- A narrowing after which a value is excluded that was not before makes a change that the filter
    watches for at the position. -/
theorem Excludes.before_or_asked (hs : s.Wf) (ht : t.Wf) (hst : s.Evolves t)
    (hlegible : f.Legible s) (h : f.Excludes l t y k) : f.Excludes l s y k
      ∨ ∃ w ∈ Propagator.watches f, w.position = l ∧ s.Asked t w := by
  -- a variable that is fixed now keeps its value if it was fixed before, or has become fixed
  have hclaims : ∀ {vars : List IntVar}, (∀ x ∈ vars, x ∈ f.views) →
      AllDifferent.Claims vars l.index t y k → AllDifferent.Claims vars l.index s y k
        ∨ ∃ x, vars[l.index]? = some x ∧ ∀ i, s.Asked t (x.watch (.ofList [.assign]) i) := by
    rintro vars hvars ⟨x, j, hne, hi, hj, hfixed, heq⟩
    have hmem := hvars x (List.mem_of_getElem? hi)
    have hx := hlegible.ranges x hmem
    cases hbefore : x.isFixed s with
    | true =>
      have hmoved := hst.bounds ht (hlegible.known _ (base_mem_scope hmem))
      have hends : x.lowerBound s = x.upperBound s := beq_iff_eq.mp hbefore
      have hle := x.lowerBound_le_upperBound ht
      exact Or.inl ⟨x, j, hne, hi, hj, hbefore, by omega⟩
    | false =>
      refine Or.inr ⟨x, hi, fun i => .int .assign rfl ⟨?_, ?_⟩⟩
      · rw [← IntVar.isFixed_eq hs hx, hbefore]
      · rw [← IntVar.isFixed_eq ht ((hlegible.evolves ht hst).ranges x hmem), hfixed]
  cases f with
  | distinct b c =>
    refine (hclaims (fun _ hx => hx) h).imp_right fun ⟨x, hi, hasked⟩ => ⟨_, ?_, rfl, hasked l⟩
    obtain ⟨n⟩ := l
    rcases n with _ | _ | n
    · obtain rfl := Option.some.inj hi
      exact List.mem_cons_self
    · obtain rfl := Option.some.inj hi
      exact List.mem_cons_of_mem _ List.mem_cons_self
    · cases hi
  | distinctByValue vars =>
    refine (hclaims (fun _ hx => hx) h).imp_right fun ⟨x, hi, hasked⟩ => ⟨_, ?_, rfl, hasked l⟩
    exact watch_mem_watchAll _ hi
  | member x z =>
    obtain ⟨rfl, rfl, hout⟩ := h
    cases hbefore : (s.set z).inEnvelope k with
    | false => exact Or.inl ⟨rfl, rfl, hbefore⟩
    | true =>
      refine Or.inr ⟨_, List.mem_cons_of_mem _ List.mem_cons_self, rfl, ?_⟩
      exact .set .envelopeRemoval rfl ⟨k, hbefore, hout⟩
  | _ => exact h.elim

/-! ### Judgements -/

/-- A valuation that gives the variable an excluded value does not satisfy the constraint. -/
theorem Excludes.not_sat (h : f.Excludes l s y k) (hs : s.Wf) (hlegible : f.Legible s)
    (ha : s.Admits a) (hk : y.exactValue a.int = k) : ¬ f.Sat a := by
  have hclaims : ∀ {vars : List IntVar}, (∀ x ∈ vars, x ∈ f.views) →
      AllDifferent.Claims vars l.index s y k → ¬ AllDifferent.Differ vars a := by
    rintro vars hvars ⟨x, j, hne, hi, hj, hfixed, heq⟩ hdiffer
    have hx := hlegible.ranges x (hvars x (List.mem_of_getElem? hi))
    have hvalue := IntVar.eq_lowerBound_of_isFixed hs hx hfixed (IntVar.takes_exactValue ha x)
    exact hdiffer.ne hne.symm hi hj (hvalue.trans (heq.trans hk.symm))
  cases f with
  | distinct b c =>
    intro hsat
    have hne : b.exactValue a.int ≠ c.exactValue a.int := hsat
    have hdiffer : AllDifferent.Differ [b, c] a := by simpa [AllDifferent.Differ] using hne
    exact hclaims (fun _ hx => hx) h hdiffer
  | distinctByValue vars => exact hclaims (fun _ hx => hx) h
  | member x z =>
    obtain ⟨-, rfl, hout⟩ := h
    intro hsat
    have hin := (ha.set z _).2 hsat
    rw [hk, hout] at hin
    cases hin
  | _ => exact h.elim

/-- A filter that excludes values says only where it is so that its constraint holds. -/
theorem Excluding.sat_of_holds (hf : f.Excluding) (hs : s.Wf) (hlegible : f.Legible s)
    (hholds : Propagator.entailment f s = .ok .holds) (ha : s.Admits a) : f.Sat a := by
  have hlookup := forM_require (s := s) fun v hv => hlegible.known v (judged_subset f s v hv)
  have hjudged : f.entailment s = .ok .holds := hholds
  unfold entailment at hjudged
  rw [hlookup] at hjudged
  cases f with
  | distinct b c =>
    have hb := hlegible.ranges b List.mem_cons_self
    have hc := hlegible.ranges c (List.mem_cons_of_mem _ List.mem_cons_self)
    exact (Distinct.judges hs hb hc).holds (Except.ok.inj hjudged) a ha
  | distinctByValue vars =>
    exact (AllDifferent.judges hs hlegible.ranges).holds (Except.ok.inj hjudged) a ha
  | member x z =>
    have hx := hlegible.ranges x List.mem_cons_self
    exact (Member.judges hs hx (hlegible.shelters x z rfl)).holds (Except.ok.inj hjudged) a ha
  | _ => exact hf.elim

/-- If all that is left satisfies the constraint, so does all that is left later. -/
theorem sat_of_evolves (hs : s.Wf) (hknown : ∀ v ∈ f.scope, s.knows v = true)
    (hall : ∀ a, s.Admits a → f.Sat a) (hst : s.Evolves t) (ha : t.Admits a) : f.Sat a := by
  have hwithin : f.Within s a := fun v hv =>
    hst.admits a v (hknown v hv) (Store.admits_iff.mp ha v)
  obtain ⟨b, hb, hsame⟩ := hwithin.exists_admits hs
  exact (Sat.congr hsame).mp (hall b hb)

/-- Where the constraint is said to hold no bound is ever excluded. -/
theorem Excludes.not_isBound_of_holds (hs : s.Wf) (hlegible : f.Legible s)
    (hholds : Propagator.entailment f s = .ok .holds) (ht : t.Wf) (hst : s.Evolves t)
    (h : f.Excludes l t y k) : ¬ y.IsBound t k := by
  intro hbound
  have hlegible' := hlegible.evolves ht hst
  obtain ⟨a, ha, hvalue⟩ := ht.exists_value (hbound.takes ht (hlegible'.ranges y h.mem_views))
  refine h.not_sat ht hlegible' ha hvalue ?_
  exact sat_of_evolves hs hlegible.known
    (fun b hb => h.excluding.sat_of_holds hs hlegible hholds hb) hst ha

end Filter

end FiniteDomain
