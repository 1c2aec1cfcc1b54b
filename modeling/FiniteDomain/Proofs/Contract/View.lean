import FiniteDomain.Proofs.Contract.Integer
import FiniteDomain.Proofs.Variable.Narrowing

/-! # What a request through a view comes to

    A comparison of a variable with a constant can be demanded directly, which
    narrows the variable, or it can be turned into a predicate about the variable
    of the store below, which is imposed or evaluated.  The two ways agree, and
    both are exact: what is left below are the values whose image obeys the
    comparison, wherever the images lie, and the predicate is true or false if all
    or none of the values below obey it (`view_contract`). -/

namespace FiniteDomain

/-! ### Comparisons -/

/-- A comparison of a variable with a constant. -/
inductive Comparator where
  /-- At least the constant. -/
  | atLeast
  /-- At most the constant. -/
  | atMost
  /-- Not the constant. -/
  | differs
  /-- The constant. -/
  | equals

namespace Comparator

/-- The value compares so with the constant. -/
def Relates : Comparator → Int → Int → Prop
  | .atLeast, v, k => k ≤ v
  | .atMost, v, k => v ≤ k
  | .differs, v, k => v ≠ k
  | .equals, v, k => v = k

/-- The request to keep the values that compare so with the constant. -/
def narrowing (x : IntVar) (k : Int) : Comparator → Narrowing
  | .atLeast => .tightenLower x k
  | .atMost => .tightenUpper x k
  | .differs => .removeValue x k
  | .equals => .instantiate x k

/-- The predicate that the variable compares so with the constant. -/
def predicate (x : IntVar) (k : Int) : Comparator → Predicate
  | .atLeast => x.atLeast k
  | .atMost => x.atMost k
  | .differs => x.differs k
  | .equals => x.equals k

variable {s : Store} {x : IntVar}

/-- The direct way and the way by the predicate agree. -/
theorem impose_predicate (s : Store) (x : IntVar) (k : Int) (c : Comparator) :
    s.impose (c.predicate x k) = (c.narrowing x k).apply s := by
  cases c with
  | atLeast => exact Store.impose_atLeast s x k
  | atMost => exact Store.impose_atMost s x k
  | differs => exact Store.impose_differs s x k
  | equals => exact Store.impose_equals s x k

theorem holds_predicate (hx : x.source.Ranges Width.value s) {a : Valuation} (ha : s.Admits a)
    (k : Int) (c : Comparator) :
    (c.predicate x k).Holds a.int ↔ c.Relates (x.exactValue a.int) k := by
  cases c with
  | atLeast => exact IntVar.holds_atLeast hx ha k
  | atMost => exact IntVar.holds_atMost hx ha k
  | differs => exact IntVar.holds_differs hx ha k
  | equals => exact IntVar.holds_equals hx ha k

theorem subject?_predicate (x : IntVar) (k : Int) (c : Comparator) :
    ∀ y, (c.predicate x k).subject? = some y → y = x.base := by
  cases c with
  | atLeast => exact (x.subject?_bounds k).1
  | atMost => exact (x.subject?_bounds k).2
  | differs => exact (x.subject?_values k).2
  | equals => exact (x.subject?_values k).1

end Comparator

/-! ### Predicates about one variable -/

/-- The predicate holds if the variable that it speaks of has the value. -/
def Predicate.HoldsAt (p : Predicate) (v : Int) : Prop := p.Holds fun _ => v

/-- The predicate speaks of the variable, or of none. -/
def Predicate.About (p : Predicate) (y : IntId) : Prop := ∀ z, p.subject? = some z → z = y

variable {s : Store} {y : IntId} {p : Predicate} {keeps keeps' : Int → Prop} {n : Narrowed}

theorem Predicate.About.holds_iff (h : p.About y) (value : IntId → Int) :
    p.Holds value ↔ p.HoldsAt (value y) := by
  cases p with
  | atLeast z k => rw [← h z rfl]; exact Iff.rfl
  | atMost z k => rw [← h z rfl]; exact Iff.rfl
  | differs z k => rw [← h z rfl]; exact Iff.rfl
  | equals z k => rw [← h z rfl]; exact Iff.rfl
  | always => exact Iff.rfl
  | never => exact Iff.rfl

/-- The predicate that a variable compares with a constant holds for the values below whose
    image does. -/
theorem Comparator.holdsAt_predicate {x : IntVar} (hs : s.Wf) (hx : x.source.Ranges Width.value s)
    (c : Comparator) (k : Int) {v : Int} (hv : (s.int x.base).contains v = true) :
    (c.predicate x k).HoldsAt v ↔ c.Relates (x.image v) k := by
  -- some valuation of the store gives this value to the variable below
  obtain ⟨a, ha⟩ := hs.exists_admits
  have hholds := c.holds_predicate hx (ha.withInt hv) k
  have habout : (c.predicate x k).About x.base := c.subject?_predicate x k
  rw [habout.holds_iff, IntVar.exactValue_eq, Valuation.int_withInt_self] at hholds
  exact hholds

namespace Store

open IntegerDomain

theorem Answers.congr (h : s.Answers y keeps n)
    (hiff : ∀ v, (s.int y).contains v = true → (keeps' v ↔ keeps v)) : s.Answers y keeps' n := by
  have hhull : ∀ v, (s.int y).Hull keeps v ↔ (s.int y).Hull keeps' v := by
    have hand : ∀ u, (s.int y).contains u = true ∧ keeps u ↔ (s.int y).contains u = true ∧ keeps' u :=
      fun u => and_congr_right fun hu => (hiff u hu).symm
    intro v
    unfold Hull
    simp only [hand]
  obtain ⟨hrefused, hidle, huntouched, hleft, hothers, hrecorded⟩ := h
  refine ⟨hrefused.trans ?_, ?_, huntouched, ?_, hothers, hrecorded⟩
  · exact forall_congr' fun v => forall_congr' fun hv => not_congr (hiff v hv).symm
  · simpa only [hhull] using hidle
  · simpa only [hhull] using hleft

/-- Imposing a predicate about a variable does to its domain what the predicate says. -/
theorem answers_impose (hs : s.Wf) (hp : p.About y) : s.Answers y p.HoldsAt (s.impose p) := by
  have hd := hs.int y
  cases p with
  | atLeast z k =>
    obtain rfl := hp z rfl
    exact answers_commitInt hs (Request.fulfils hd (.tightenLower k))
  | atMost z k =>
    obtain rfl := hp z rfl
    exact answers_commitInt hs (Request.fulfils hd (.tightenUpper k))
  | differs z k =>
    obtain rfl := hp z rfl
    exact answers_commitInt hs (Request.fulfils hd (.removeValue k))
  | equals z k =>
    obtain rfl := hp z rfl
    exact answers_commitInt hs (Request.fulfils hd (.instantiate k))
  | always =>
    have hall : Fulfils (s.int y) (fun _ => True) .unchanged :=
      ⟨⟨trivial, trivial⟩, Or.inl fun _ _ => trivial, trivial⟩
    exact answers_commitInt hs hall
  | never =>
    have hnone : Fulfils (s.int y) (fun _ => False) .empty :=
      ⟨⟨fun _ _ h => h, trivial⟩, Or.inl trivial, trivial⟩
    exact answers_commitInt hs hnone

/-! ### Truth -/

/-- An answer that looks for one reason first and for the opposite one then. -/
theorem verdict_iff (first second : Prop) [Decidable first] [Decidable second] (b : Bool) :
    ((if first then some b else if second then some (!b) else none) = some b ↔ first)
      ∧ ((if first then some b else if second then some (!b) else none) = some (!b)
        ↔ ¬ first ∧ second) := by
  by_cases hfirst : first
  · cases b <;> simp [hfirst]
  · by_cases hsecond : second <;> cases b <;> simp [hfirst, hsecond]

/-- A variable has a value if all values of its domain are this one. -/
theorem value?_eq_some_iff (hs : s.Wf) (k : Int) :
    s.value? y = some k ↔ ∀ v, (s.int y).contains v = true → v = k := by
  have hd := hs.int y
  unfold value?
  simp only
  constructor
  · intro hsome v hv
    split at hsome
    next hfixed => rw [(isFixed_iff_contains hd).mp hfixed v hv, Option.some.inj hsome]
    next => cases hsome
  · intro hall
    have hlower := hall _ hd.lower_mem
    have hfixed : (s.int y).isFixed = true :=
      (isFixed_iff_contains hd).mpr fun v hv => (hall v hv).trans hlower.symm
    rw [if_pos hfixed, hlower]

section Readings

variable {d : IntegerDomain} {k : Int}

theorem le_lower_iff (hd : d.Wf) : k ≤ d.lower ↔ ∀ v, d.contains v = true → k ≤ v :=
  ⟨fun hk _ hv => Int.le_trans hk (contains_iff.mp hv).1, fun hall => hall _ hd.lower_mem⟩

theorem upper_le_iff (hd : d.Wf) : d.upper ≤ k ↔ ∀ v, d.contains v = true → v ≤ k :=
  ⟨fun hk _ hv => Int.le_trans (contains_iff.mp hv).2.1 hk, fun hall => hall _ hd.upper_mem⟩

theorem upper_lt_iff (hd : d.Wf) : d.upper < k ↔ ∀ v, d.contains v = true → ¬ k ≤ v :=
  ⟨fun hk _ hv => Int.not_le.mpr (Int.lt_of_le_of_lt (contains_iff.mp hv).2.1 hk),
    fun hno => Int.not_le.mp (hno _ hd.upper_mem)⟩

theorem lt_lower_iff (hd : d.Wf) : k < d.lower ↔ ∀ v, d.contains v = true → ¬ v ≤ k :=
  ⟨fun hk _ hv => Int.not_le.mpr (Int.lt_of_lt_of_le hk (contains_iff.mp hv).1),
    fun hno => Int.not_le.mp (hno _ hd.lower_mem)⟩

theorem contains_eq_false_iff :
    (!d.contains k) = true ↔ ∀ v, d.contains v = true → v ≠ k := by
  rw [Bool.not_eq_true']
  constructor
  · intro hk v hv heq
    rw [heq, hk] at hv
    cases hv
  · intro hall
    exact Bool.eq_false_iff.mpr fun hk => hall k hk rfl

/-- A value that is not missing is the only one if it is read as the value of the variable. -/
theorem present_and_value?_iff (hs : s.Wf) :
    (¬ (!(s.int y).contains k) = true ∧ s.value? y = some k)
      ↔ ∀ v, (s.int y).contains v = true → v = k := by
  rw [value?_eq_some_iff hs, Bool.not_eq_true', Bool.not_eq_false]
  refine and_iff_right_of_imp fun hall => ?_
  have hlower := (hs.int y).lower_mem
  exact hall _ hlower ▸ hlower

end Readings

/-- A predicate is true or false if all or none of the values make it so. -/
theorem truth_spec (hs : s.Wf) (hp : p.About y) :
    (s.truth p = some true ↔ ∀ v, (s.int y).contains v = true → p.HoldsAt v)
      ∧ (s.truth p = some false ↔ ∀ v, (s.int y).contains v = true → ¬ p.HoldsAt v) := by
  have hd := hs.int y
  have hbounds : (s.int y).lower ≤ (s.int y).upper := (contains_iff.mp hd.lower_mem).2.1
  cases p with
  | atLeast z k =>
    obtain rfl := hp z rfl
    obtain ⟨htrue, hfalse⟩ := verdict_iff (k ≤ (s.int z).lower) ((s.int z).upper < k) true
    refine ⟨htrue.trans (le_lower_iff hd), (hfalse.trans ?_).trans (upper_lt_iff hd)⟩
    exact and_iff_right_of_imp fun hlt => by omega
  | atMost z k =>
    obtain rfl := hp z rfl
    obtain ⟨htrue, hfalse⟩ := verdict_iff ((s.int z).upper ≤ k) (k < (s.int z).lower) true
    refine ⟨htrue.trans (upper_le_iff hd), (hfalse.trans ?_).trans (lt_lower_iff hd)⟩
    exact and_iff_right_of_imp fun hlt => by omega
  | differs z k =>
    obtain rfl := hp z rfl
    obtain ⟨htrue, hfalse⟩ :=
      verdict_iff ((!(s.int z).contains k) = true) (s.value? z = some k) true
    refine ⟨htrue.trans contains_eq_false_iff, (hfalse.trans (present_and_value?_iff hs)).trans ?_⟩
    exact forall₂_congr fun v _ => (not_not (a := v = k)).symm
  | equals z k =>
    obtain rfl := hp z rfl
    -- here a missing value is looked for first, and found it makes the predicate false
    obtain ⟨hfalse, htrue⟩ :=
      verdict_iff ((!(s.int z).contains k) = true) (s.value? z = some k) false
    exact ⟨htrue.trans (present_and_value?_iff hs), hfalse.trans contains_eq_false_iff⟩
  | always =>
    exact ⟨⟨fun _ _ _ => trivial, fun _ => rfl⟩, nofun,
      fun hno => absurd trivial (hno _ hd.lower_mem)⟩
  | never =>
    exact ⟨⟨nofun, fun hall => (hall _ hd.lower_mem).elim⟩, fun _ _ _ => id, fun _ => rfl⟩

/-- Through a view of a variable whose values are in range, a comparison keeps exactly the values
    whose image obeys it, also when images leave the range; imposing its predicate is the same
    narrowing, and its predicate is true, false or open as all, none or some values obey. -/
theorem view_contract (hs : s.Reachable)
    (hy : ∀ v, (s.int y).contains v = true → Width.value.Fits v) (m : AffineMap) (c : Comparator)
    (k : Int) :
    s.Answers y (fun v => c.Relates (m.image v) k)
        ((c.narrowing (.view (.plain y) m) k).apply s)
      ∧ s.impose (c.predicate (.view (.plain y) m) k)
          = (c.narrowing (.view (.plain y) m) k).apply s
      ∧ (s.truth (c.predicate (.view (.plain y) m) k) = some true
          ↔ ∀ v, (s.int y).contains v = true → c.Relates (m.image v) k)
      ∧ (s.truth (c.predicate (.view (.plain y) m) k) = some false
          ↔ ∀ v, (s.int y).contains v = true → ¬ c.Relates (m.image v) k)
      ∧ (s.truth (c.predicate (.view (.plain y) m) k) = none
          ↔ (∃ v, (s.int y).contains v = true ∧ c.Relates (m.image v) k)
            ∧ ∃ v, (s.int y).contains v = true ∧ ¬ c.Relates (m.image v) k) := by
  have hwf := hs.traced.wf
  have habout : (c.predicate (.view (.plain y) m) k).About y :=
    c.subject?_predicate (.view (.plain y) m) k
  have hholds : ∀ v, (s.int y).contains v = true →
      ((c.predicate (.view (.plain y) m) k).HoldsAt v ↔ c.Relates (m.image v) k) := fun v hv =>
    c.holdsAt_predicate (x := .view (.plain y) m) hwf hy k hv
  obtain ⟨htrue, hfalse⟩ := truth_spec hwf habout
  have htrue' := htrue.trans (forall₂_congr hholds)
  have hfalse' := hfalse.trans (forall₂_congr fun v hv => not_congr (hholds v hv))
  have hanswers := answers_impose hwf habout
  rw [c.impose_predicate] at hanswers
  refine ⟨hanswers.congr fun v hv => (hholds v hv).symm, c.impose_predicate s _ k, htrue', hfalse', ?_⟩
  -- the predicate is open exactly if it is neither true nor false
  have hopen : ∀ o : Option Bool, o = none ↔ ¬ o = some false ∧ ¬ o = some true := by
    rintro (_ | _ | _) <;> simp
  rw [hopen, hfalse', htrue']
  push Not
  exact Iff.rfl

/-- Under a map that throws the values 4 to 9 below the range, the least value of all keeps 1. -/
theorem view_contract_sieved :
    ∃ n, n = (Comparator.atLeast.narrowing (.view (.plain ⟨0⟩) ⟨-2000000000, 5, by decide⟩)
        minValue).apply sieved
      ∧ ∀ v, (n.store.int ⟨0⟩).contains v = true
        ↔ (sieved.int ⟨0⟩).contains v = true ∧ minValue ≤ -2000000000 * v + 5 := by
  have hrange : ∀ v, (sieved.int ⟨0⟩).contains v = true → Width.value.Fits v := by
    intro v hv
    obtain ⟨hlower, hupper, -⟩ := contains_iff.mp hv
    exact ⟨Int.le_trans (by decide) hlower, Int.le_trans hupper (by decide)⟩
  obtain ⟨hanswers, -⟩ := view_contract sieved_reachable hrange ⟨-2000000000, 5, by decide⟩
    .atLeast minValue
  exact ⟨_, rfl, (hanswers.hull (by decide)).2⟩

end Store

namespace IntVar

/-- A comparison that a variable is narrowed by keeps what is left of the values below whose image
    obeys it. -/
theorem answers_comparison {x : IntVar} (hs : s.Wf) (hx : x.source.Ranges Width.value s)
    (c : Comparator) (k : Int) :
    s.Answers x.base (fun v => c.Relates (x.image v) k) ((c.narrowing x k).apply s) := by
  have hanswers := Store.answers_impose hs (c.subject?_predicate x k)
  rw [c.impose_predicate] at hanswers
  exact hanswers.congr fun v hv => (c.holdsAt_predicate hs hx k hv).symm

end IntVar

end FiniteDomain
