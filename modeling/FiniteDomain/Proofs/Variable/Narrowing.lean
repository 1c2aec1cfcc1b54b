import FiniteDomain.Proofs.Store.Exact
import FiniteDomain.Proofs.Variable.Reading

/-! # Narrowing through views

    A request about a view is pulled back to a request about the variable below.
    The valuations that are kept are those whose exact value of the view obeys
    the request, whether or not the images of the view itself stay in the range
    of values; only the values that the view is an image of have to
    (`IntVar.source`).

    The same holds of predicates: imposing the predicate about a view keeps the
    valuations for which it holds, and it holds if the exact value obeys it. -/

namespace FiniteDomain

/-! ### Views -/

namespace IntVar

variable {x inner : IntVar} {map : AffineMap} {s : Store} {k : Int}

/-- The variable that a view is an image of; a variable of the store is its own. -/
def source : IntVar → IntVar
  | .plain y => .plain y
  | .view inner _ => inner

theorem Ranges.source {width : Width} (h : x.Ranges width s) : x.source.Ranges width s := by
  cases x with
  | plain y => exact h
  | view inner map => exact h.inner

/-- The exact value of a variable whose images stay in the range of values. -/
theorem fits_exactValue {width : Width} (hx : x.Ranges width s) {a : Valuation}
    (ha : s.Admits a) : width.Fits (x.exactValue a.int) :=
  hx.fits (takes_exactValue ha x)

/-- A bound on a variable, from either side, keeps the values that obey it. -/
theorem tighten_keeps (hs : s.Wf) (hx : x.source.Ranges Width.value s) (k : Int) :
    (x.tightenLower s k).Keeps s (fun a => k ≤ x.exactValue a.int)
      ∧ (x.tightenUpper s k).Keeps s (fun a => x.exactValue a.int ≤ k) := by
  induction x generalizing k with
  | plain y => exact ⟨Store.tightenLower_keeps hs y k, Store.tightenUpper_keeps hs y k⟩
  | view inner map ih =>
    have hinner : inner.Ranges Width.value s := hx
    have hfits : ∀ a, s.Admits a → Width.value.Fits (inner.exactValue a.int) :=
      fun a ha => fits_exactValue hinner ha
    have hlower := fun w => (ih hinner.source w).1
    have hupper := fun w => (ih hinner.source w).2
    show Narrowed.Keeps s _ (if map.reverses then (map.pullUpper? k).elim ⟨none, s⟩
          (inner.tightenUpper s) else (map.pullLower? k).elim ⟨none, s⟩ (inner.tightenLower s))
      ∧ Narrowed.Keeps s _ (if map.reverses then (map.pullLower? k).elim ⟨none, s⟩
          (inner.tightenLower s) else (map.pullUpper? k).elim ⟨none, s⟩ (inner.tightenUpper s))
    cases hr : map.reverses with
    | false =>
      rw [if_neg Bool.false_ne_true, if_neg Bool.false_ne_true]
      exact ⟨Narrowed.keeps_elim _ hs hlower fun a ha =>
          (AffineMap.pullLower?_spec (hfits a ha)).trans (AffineMap.pullUp_le hr),
        Narrowed.keeps_elim _ hs hupper fun a ha =>
          (AffineMap.pullUpper?_spec (hfits a ha)).trans (AffineMap.le_pullDown hr)⟩
    | true =>
      rw [if_pos rfl, if_pos rfl]
      exact ⟨Narrowed.keeps_elim _ hs hupper fun a ha =>
          (AffineMap.pullUpper?_spec (hfits a ha)).trans (AffineMap.le_pullDown_of_reverses hr),
        Narrowed.keeps_elim _ hs hlower fun a ha =>
          (AffineMap.pullLower?_spec (hfits a ha)).trans (AffineMap.pullUp_le_of_reverses hr)⟩

theorem tightenLower_keeps (hs : s.Wf) (hx : x.source.Ranges Width.value s) (k : Int) :
    (x.tightenLower s k).Keeps s fun a => k ≤ x.exactValue a.int :=
  (tighten_keeps hs hx k).1

theorem tightenUpper_keeps (hs : s.Wf) (hx : x.source.Ranges Width.value s) (k : Int) :
    (x.tightenUpper s k).Keeps s fun a => x.exactValue a.int ≤ k :=
  (tighten_keeps hs hx k).2

/-- The value `k` of the view is the value of what it is an image of, if there is one. -/
theorem preimage?_iff (hinner : inner.Ranges Width.value s) {a : Valuation} (ha : s.Admits a) :
    (map.preimage? k).elim False (inner.exactValue a.int = ·)
      ↔ (view inner map).exactValue a.int = k := by
  show _ ↔ map.image (inner.exactValue a.int) = k
  have hfits := fits_exactValue hinner ha
  cases hp : map.preimage? k with
  | none =>
    rw [Option.elim_none, false_iff]
    intro heq
    rw [AffineMap.preimage?_eq_some.mpr ⟨heq, hfits⟩] at hp
    cases hp
  | some w =>
    have hw := (AffineMap.preimage?_eq_some.mp hp).1
    rw [Option.elim_some]
    constructor
    · rintro rfl
      exact hw
    · intro heq
      exact AffineMap.image_injective (heq.trans hw.symm)

theorem instantiate_keeps (hs : s.Wf) (hx : x.source.Ranges Width.value s) (k : Int) :
    (x.instantiate s k).Keeps s fun a => x.exactValue a.int = k := by
  induction x generalizing k with
  | plain y => exact Store.instantiate_keeps hs y k
  | view inner map ih =>
    have hinner : inner.Ranges Width.value s := hx
    exact Narrowed.keeps_elim _ hs (fun w => ih hinner.source w) fun a ha =>
      preimage?_iff hinner ha

theorem removeValue_obeys (hs : s.Wf) (hx : x.source.Ranges Width.value s) (k : Int) :
    (x.removeValue s k).Obeys s fun a => x.exactValue a.int ≠ k := by
  induction x generalizing k with
  | plain y => exact Store.removeValue_obeys hs y k
  | view inner map ih =>
    have hinner : inner.Ranges Width.value s := hx
    show Narrowed.Obeys s _ ((map.preimage? k).elim ⟨some false, s⟩ (inner.removeValue s))
    have hpull : ∀ a, s.Admits a → ((map.preimage? k).elim False (inner.exactValue a.int = ·)
        ↔ (view inner map).exactValue a.int = k) :=
      fun a ha => preimage?_iff hinner ha
    cases hp : map.preimage? k with
    | none => exact Narrowed.obeys_unchanged s _
    | some w =>
      simp only [hp, Option.elim_some] at hpull
      exact (ih hinner.source w).congr fun a ha => not_congr (hpull a ha).symm

/-- The number can be taken away exactly: any value of an enumerated domain can, a value of a
    bounded domain if it is a bound. -/
def Removable (x : IntVar) (s : Store) (k : Int) : Prop :=
  (s.int x.base).isEnumerated = true
    ∨ ∀ v, (s.int x.base).contains v = true → x.image v = k →
      v = (s.int x.base).lower ∨ v = (s.int x.base).upper

theorem removable_of_isFixed (hs : s.Wf) (hx : x.Ranges Width.value s)
    (hfixed : x.isFixed s = true) (k : Int) : x.Removable s k := by
  right
  intro v hv _
  obtain ⟨hlower, hupper, -⟩ := IntegerDomain.contains_iff.mp hv
  rw [isFixed_eq hs hx, IntegerDomain.isFixed, beq_iff_eq] at hfixed
  omega

theorem removable_lowerBound (hs : s.Wf) (hx : x.Ranges Width.value s) :
    x.Removable s (x.lowerBound s) := by
  right
  intro v _ heq
  rw [(bounds_eq hs hx).1] at heq
  have hv := image_injective heq
  cases hr : x.reverses with
  | false => exact Or.inl (by simpa [hr] using hv)
  | true => exact Or.inr (by simpa [hr] using hv)

theorem removable_upperBound (hs : s.Wf) (hx : x.Ranges Width.value s) :
    x.Removable s (x.upperBound s) := by
  right
  intro v _ heq
  rw [(bounds_eq hs hx).2] at heq
  have hv := image_injective heq
  cases hr : x.reverses with
  | false => exact Or.inr (by simpa [hr] using hv)
  | true => exact Or.inl (by simpa [hr] using hv)

theorem removeValue_keeps (hs : s.Wf) (hx : x.source.Ranges Width.value s) {k : Int}
    (hk : x.Removable s k) : (x.removeValue s k).Keeps s fun a => x.exactValue a.int ≠ k := by
  induction x generalizing k with
  | plain y =>
    by_cases henum : (s.int y).isEnumerated = true
    · exact Store.removeValue_keeps hs (Or.inl henum)
    -- a bounded domain has all numbers between its bounds
    have hbound := hk.resolve_left henum
    refine Store.removeValue_keeps hs (Or.inr fun hinside => ?_)
    have hin : (s.int y).contains k = true := by
      refine IntegerDomain.contains_iff.mpr ⟨Int.le_of_lt hinside.1, Int.le_of_lt hinside.2, ?_⟩
      unfold IntegerDomain.holds
      rw [Option.not_isSome_iff_eq_none.mp henum]
    have hends : k = (s.int y).lower ∨ k = (s.int y).upper := hbound k hin rfl
    omega
  | view inner map ih =>
    have hinner : inner.Ranges Width.value s := hx
    show Narrowed.Keeps s _ ((map.preimage? k).elim ⟨some false, s⟩ (inner.removeValue s))
    have hpull : ∀ a, s.Admits a → ((map.preimage? k).elim False (inner.exactValue a.int = ·)
        ↔ (view inner map).exactValue a.int = k) :=
      fun a ha => preimage?_iff hinner ha
    cases hp : map.preimage? k with
    | none =>
      simp only [hp, Option.elim_none] at hpull
      exact Narrowed.keeps_always fun a ha => (hpull a ha).mpr
    | some w =>
      simp only [hp, Option.elim_some] at hpull
      refine (ih hinner.source (hk.imp_right fun hbound v hv heq => hbound v hv ?_)).congr hs
        fun a ha => not_congr (hpull a ha).symm
      exact (congrArg map.image heq).trans (AffineMap.preimage?_eq_some.mp hp).1

/-- A number in the middle of a bounded domain stays. -/
theorem removeValue_of_not_removable {k : Int} (hk : ¬ x.Removable s k) :
    x.removeValue s k = ⟨some false, s⟩ := by
  induction x generalizing k with
  | plain y =>
    obtain ⟨henum, hmiddle⟩ := not_or.mp hk
    have hnone : (s.int y).values? = none := Option.not_isSome_iff_eq_none.mp henum
    push Not at hmiddle
    obtain ⟨v, hv, heq, hlower, hupper⟩ := hmiddle
    have hvk : v = k := heq
    subst hvk
    show s.commitInt y ((s.int y).remove v) = _
    have hsame : (s.int y).remove v = .unchanged := by
      unfold IntegerDomain.remove
      change (s.int y).contains v = true at hv
      change ¬ v = (s.int y).lower at hlower
      change ¬ v = (s.int y).upper at hupper
      rw [hv, if_neg hlower, if_neg hupper, hnone]
      rfl
    rw [hsame]
    rfl
  | view inner map ih =>
    show (map.preimage? k).elim ⟨some false, s⟩ (inner.removeValue s) = _
    cases hp : map.preimage? k with
    | none => rfl
    | some w =>
      refine ih fun hw => hk (hw.imp_right fun hbound v hv heq => hbound v hv ?_)
      -- injectivity carries the value down through the map
      have himage : map.image (inner.image v) = map.image w :=
        heq.trans (AffineMap.preimage?_eq_some.mp hp).1.symm
      exact AffineMap.image_injective himage

/-- What can be taken away is taken away, and nothing else is. -/
theorem removeValue_exactly (hs : s.Wf) (hx : x.source.Ranges Width.value s) (k : Int) :
    (x.removeValue s k).Keeps s fun a => x.Removable s k → x.exactValue a.int ≠ k := by
  by_cases hk : x.Removable s k
  · exact (removeValue_keeps hs hx hk).congr hs fun _ _ => forall_prop_of_true hk
  · rw [removeValue_of_not_removable hk]
    exact Narrowed.keeps_always fun _ _ h => absurd h hk

/-! ### In narrower stores -/

variable {t : Store}

theorem Ranges.narrower {width : Width} (hx : x.Ranges width s) (h : s.Narrower t) :
    x.Ranges width t :=
  fun v hv => hx v (h.contains hv)

theorem Ranges.steps {width : Width} (hx : x.Ranges width s) (h : s.Steps t) (hs : s.Wf) :
    x.Ranges width t :=
  hx.narrower (h.narrower hs)

/-- Bounds only move inwards, saturated or not. -/
theorem Clear.steps (hx : x.Clear s) (h : s.Steps t) (hs : s.Wf) : x.Clear t where
  ranges := hx.ranges.steps h hs
  inside := by
    intro k hk
    obtain ⟨v, hv, rfl⟩ := hk
    exact hx.inside _ (takes_image ((h.narrower hs).contains hv))

theorem bounds_narrower (h : s.Narrower t) (x : IntVar) :
    x.lowerBound s ≤ x.lowerBound t ∧ x.upperBound t ≤ x.upperBound s := by
  induction x with
  | plain y =>
    obtain ⟨hlower, -⟩ := IntegerDomain.contains_iff.mp (h.contains (h.wf.int y).lower_mem)
    obtain ⟨-, hupper, -⟩ := IntegerDomain.contains_iff.mp (h.contains (h.wf.int y).upper_mem)
    exact ⟨hlower, hupper⟩
  | view inner map ih =>
    obtain ⟨hlower, hupper⟩ := ih
    show map.apply (if map.reverses then inner.upperBound s else inner.lowerBound s)
          ≤ map.apply (if map.reverses then inner.upperBound t else inner.lowerBound t)
        ∧ map.apply (if map.reverses then inner.lowerBound t else inner.upperBound t)
          ≤ map.apply (if map.reverses then inner.lowerBound s else inner.upperBound s)
    cases hr : map.reverses with
    | false => exact ⟨AffineMap.apply_mono hr hlower, AffineMap.apply_mono hr hupper⟩
    | true =>
      exact ⟨AffineMap.apply_mono_of_reverses hr hupper, AffineMap.apply_mono_of_reverses hr hlower⟩

theorem lowerBound_narrower (h : s.Narrower t) (x : IntVar) : x.lowerBound s ≤ x.lowerBound t :=
  (bounds_narrower h x).1

theorem upperBound_narrower (h : s.Narrower t) (x : IntVar) : x.upperBound t ≤ x.upperBound s :=
  (bounds_narrower h x).2

/-- A fixed variable keeps its value. -/
theorem fixed_narrower (h : s.Narrower t) (hfixed : x.isFixed s = true) :
    x.isFixed t = true ∧ x.lowerBound t = x.lowerBound s := by
  obtain ⟨hlower, hupper⟩ := bounds_narrower h x
  have hle := lowerBound_le_upperBound h.wf x
  unfold isFixed at hfixed ⊢
  rw [beq_iff_eq] at hfixed ⊢
  omega

theorem lowerBound_mono (h : s.Steps t) (hs : s.Wf) (x : IntVar) :
    x.lowerBound s ≤ x.lowerBound t :=
  lowerBound_narrower (h.narrower hs) x

theorem upperBound_mono (h : s.Steps t) (hs : s.Wf) (x : IntVar) :
    x.upperBound t ≤ x.upperBound s :=
  upperBound_narrower (h.narrower hs) x

theorem fixed_steps (h : s.Steps t) (hs : s.Wf) (hfixed : x.isFixed s = true) :
    x.isFixed t = true ∧ x.lowerBound t = x.lowerBound s :=
  fixed_narrower (h.narrower hs) hfixed

/-! ### Stores with the same domains -/

/-- The bounds of a view depend on the variable below it only. -/
theorem bounds_of_base {x : IntVar} (h : t.int x.base = s.int x.base) :
    x.lowerBound t = x.lowerBound s ∧ x.upperBound t = x.upperBound s := by
  induction x with
  | plain y => exact ⟨congrArg IntegerDomain.lower h, congrArg IntegerDomain.upper h⟩
  | view inner map ih =>
    obtain ⟨hlower, hupper⟩ := ih h
    show map.apply (if map.reverses then inner.upperBound t else inner.lowerBound t)
          = map.apply (if map.reverses then inner.upperBound s else inner.lowerBound s)
        ∧ map.apply (if map.reverses then inner.lowerBound t else inner.upperBound t)
          = map.apply (if map.reverses then inner.lowerBound s else inner.upperBound s)
    rw [hlower, hupper]
    exact ⟨rfl, rfl⟩

theorem isFixed_of_base {x : IntVar} (h : t.int x.base = s.int x.base) :
    x.isFixed t = x.isFixed s := by
  obtain ⟨hlower, hupper⟩ := bounds_of_base h
  unfold isFixed
  rw [hlower, hupper]

theorem bounds_sameDomains (h : s.SameDomains t) (x : IntVar) :
    x.lowerBound t = x.lowerBound s ∧ x.upperBound t = x.upperBound s :=
  bounds_of_base (h.int x.base)

theorem isFixed_sameDomains (h : s.SameDomains t) (x : IntVar) : x.isFixed t = x.isFixed s :=
  isFixed_of_base (h.int x.base)

/-! ### Predicates -/

/-- The predicates about a view say what they are meant to say about its exact value. -/
theorem holds_bounds (hx : x.source.Ranges Width.value s) {a : Valuation} (ha : s.Admits a)
    (k : Int) :
    ((x.atLeast k).Holds a.int ↔ k ≤ x.exactValue a.int)
      ∧ ((x.atMost k).Holds a.int ↔ x.exactValue a.int ≤ k) := by
  induction x generalizing k with
  | plain y => exact ⟨Iff.rfl, Iff.rfl⟩
  | view inner map ih =>
    have hinner : inner.Ranges Width.value s := hx
    have hfits := fits_exactValue hinner ha
    have hlower := fun w => (ih hinner.source w).1
    have hupper := fun w => (ih hinner.source w).2
    -- a predicate without counterpart below never holds
    have helim : ∀ {o : Option Int} {p : Int → Predicate} {obeys : Int → Prop},
        (∀ w, (p w).Holds a.int ↔ obeys w) →
        ((o.elim .never p).Holds a.int ↔ o.elim False obeys) := by
      intro o p obeys hp
      cases o with
      | none => exact Iff.rfl
      | some w => exact hp w
    show ((if map.reverses then (map.pullUpper? k).elim .never inner.atMost
          else (map.pullLower? k).elim .never inner.atLeast).Holds a.int ↔ _)
      ∧ ((if map.reverses then (map.pullLower? k).elim .never inner.atLeast
          else (map.pullUpper? k).elim .never inner.atMost).Holds a.int ↔ _)
    cases hr : map.reverses with
    | false =>
      rw [if_neg Bool.false_ne_true, if_neg Bool.false_ne_true]
      exact ⟨(helim hlower).trans
          ((AffineMap.pullLower?_spec hfits).trans (AffineMap.pullUp_le hr)),
        (helim hupper).trans ((AffineMap.pullUpper?_spec hfits).trans (AffineMap.le_pullDown hr))⟩
    | true =>
      rw [if_pos rfl, if_pos rfl]
      exact ⟨(helim hupper).trans
          ((AffineMap.pullUpper?_spec hfits).trans (AffineMap.le_pullDown_of_reverses hr)),
        (helim hlower).trans
          ((AffineMap.pullLower?_spec hfits).trans (AffineMap.pullUp_le_of_reverses hr))⟩

theorem holds_atLeast (hx : x.source.Ranges Width.value s) {a : Valuation} (ha : s.Admits a)
    (k : Int) : (x.atLeast k).Holds a.int ↔ k ≤ x.exactValue a.int :=
  (holds_bounds hx ha k).1

theorem holds_atMost (hx : x.source.Ranges Width.value s) {a : Valuation} (ha : s.Admits a)
    (k : Int) : (x.atMost k).Holds a.int ↔ x.exactValue a.int ≤ k :=
  (holds_bounds hx ha k).2

theorem holds_equals (hx : x.source.Ranges Width.value s) {a : Valuation} (ha : s.Admits a)
    (k : Int) : (x.equals k).Holds a.int ↔ x.exactValue a.int = k := by
  induction x generalizing k with
  | plain y => exact Iff.rfl
  | view inner map ih =>
    have hinner : inner.Ranges Width.value s := hx
    have hpull : (map.preimage? k).elim False (inner.exactValue a.int = ·)
        ↔ (view inner map).exactValue a.int = k := preimage?_iff hinner ha
    rw [← hpull]
    show ((map.preimage? k).elim .never inner.equals).Holds a.int ↔ _
    cases map.preimage? k with
    | none => exact Iff.rfl
    | some w => exact ih hinner.source w

theorem holds_differs (hx : x.source.Ranges Width.value s) {a : Valuation} (ha : s.Admits a)
    (k : Int) : (x.differs k).Holds a.int ↔ x.exactValue a.int ≠ k := by
  induction x generalizing k with
  | plain y => exact Iff.rfl
  | view inner map ih =>
    have hinner : inner.Ranges Width.value s := hx
    have hpull : (map.preimage? k).elim False (inner.exactValue a.int = ·)
        ↔ (view inner map).exactValue a.int = k := preimage?_iff hinner ha
    refine Iff.trans ?_ (not_congr hpull)
    show ((map.preimage? k).elim .always inner.differs).Holds a.int ↔ _
    cases map.preimage? k with
    | none => exact ⟨fun _ h => h, fun _ => trivial⟩
    | some w => exact ih hinner.source w

/-- A predicate about a view speaks of the variable below it, or of none. -/
theorem subject?_bounds (x : IntVar) (k : Int) :
    (∀ y, (x.atLeast k).subject? = some y → y = x.base)
      ∧ ∀ y, (x.atMost k).subject? = some y → y = x.base := by
  induction x generalizing k with
  | plain z =>
    constructor
    · intro y hy
      exact (Option.some.inj hy).symm
    · intro y hy
      exact (Option.some.inj hy).symm
  | view inner map ih =>
    have helim : ∀ {o : Option Int} {p : Int → Predicate},
        (∀ w y, (p w).subject? = some y → y = inner.base) →
        ∀ y, (o.elim .never p).subject? = some y → y = inner.base := by
      intro o p hp y hy
      cases o with
      | none => cases hy
      | some w => exact hp w y hy
    show (∀ y, (if map.reverses then (map.pullUpper? k).elim .never inner.atMost
          else (map.pullLower? k).elim .never inner.atLeast).subject? = some y → y = inner.base)
      ∧ ∀ y, (if map.reverses then (map.pullLower? k).elim .never inner.atLeast
          else (map.pullUpper? k).elim .never inner.atMost).subject? = some y → y = inner.base
    cases map.reverses with
    | false => exact ⟨helim fun w => (ih w).1, helim fun w => (ih w).2⟩
    | true => exact ⟨helim fun w => (ih w).2, helim fun w => (ih w).1⟩

theorem subject?_values (x : IntVar) (k : Int) :
    (∀ y, (x.equals k).subject? = some y → y = x.base)
      ∧ ∀ y, (x.differs k).subject? = some y → y = x.base := by
  induction x generalizing k with
  | plain z => exact ⟨fun y hy => (Option.some.inj hy).symm, fun y hy => (Option.some.inj hy).symm⟩
  | view inner map ih =>
    show (∀ y, ((map.preimage? k).elim .never inner.equals).subject? = some y → y = inner.base)
      ∧ ∀ y, ((map.preimage? k).elim .always inner.differs).subject? = some y → y = inner.base
    cases map.preimage? k with
    | none => exact ⟨fun y hy => (by cases hy), fun y hy => (by cases hy)⟩
    | some w => exact ih w

end IntVar

namespace Store

variable {s : Store}

/-- Imposing the predicate about a view narrows it by the request with the same words. -/
theorem impose_bounds (s : Store) (x : IntVar) (k : Int) :
    s.impose (x.atLeast k) = x.tightenLower s k ∧ s.impose (x.atMost k) = x.tightenUpper s k := by
  induction x generalizing k with
  | plain y => exact ⟨rfl, rfl⟩
  | view inner map ih =>
    have helim : ∀ {o : Option Int} {p : Int → Predicate} {narrow : Int → Narrowed},
        (∀ w, s.impose (p w) = narrow w) → s.impose (o.elim .never p) = o.elim ⟨none, s⟩ narrow := by
      intro o p narrow hp
      cases o with
      | none => rfl
      | some w => exact hp w
    show s.impose (if map.reverses then (map.pullUpper? k).elim .never inner.atMost
          else (map.pullLower? k).elim .never inner.atLeast)
        = (if map.reverses then (map.pullUpper? k).elim ⟨none, s⟩ (inner.tightenUpper s)
          else (map.pullLower? k).elim ⟨none, s⟩ (inner.tightenLower s))
      ∧ s.impose (if map.reverses then (map.pullLower? k).elim .never inner.atLeast
          else (map.pullUpper? k).elim .never inner.atMost)
        = (if map.reverses then (map.pullLower? k).elim ⟨none, s⟩ (inner.tightenLower s)
          else (map.pullUpper? k).elim ⟨none, s⟩ (inner.tightenUpper s))
    cases map.reverses with
    | false => exact ⟨helim fun w => (ih w).1, helim fun w => (ih w).2⟩
    | true => exact ⟨helim fun w => (ih w).2, helim fun w => (ih w).1⟩

theorem impose_atLeast (s : Store) (x : IntVar) (k : Int) :
    s.impose (x.atLeast k) = x.tightenLower s k :=
  (impose_bounds s x k).1

theorem impose_atMost (s : Store) (x : IntVar) (k : Int) :
    s.impose (x.atMost k) = x.tightenUpper s k :=
  (impose_bounds s x k).2

theorem impose_equals (s : Store) (x : IntVar) (k : Int) :
    s.impose (x.equals k) = x.instantiate s k := by
  induction x generalizing k with
  | plain y => rfl
  | view inner map ih =>
    show s.impose ((map.preimage? k).elim .never inner.equals)
      = (map.preimage? k).elim ⟨none, s⟩ (inner.instantiate s)
    cases map.preimage? k with
    | none => rfl
    | some w => exact ih w

theorem impose_differs (s : Store) (x : IntVar) (k : Int) :
    s.impose (x.differs k) = x.removeValue s k := by
  induction x generalizing k with
  | plain y => rfl
  | view inner map ih =>
    show s.impose ((map.preimage? k).elim .always inner.differs)
      = (map.preimage? k).elim ⟨some false, s⟩ (inner.removeValue s)
    cases map.preimage? k with
    | none => rfl
    | some w => exact ih w

theorem impose_obeys (hs : s.Wf) (p : Predicate) :
    (s.impose p).Obeys s fun a => p.Holds a.int := by
  cases p with
  | atLeast x k => exact (tightenLower_keeps hs x k).toObeys
  | atMost x k => exact (tightenUpper_keeps hs x k).toObeys
  | differs x k => exact removeValue_obeys hs x k
  | equals x k => exact (instantiate_keeps hs x k).toObeys
  | always => exact Narrowed.obeys_unchanged s _
  | never => exact Narrowed.obeys_never fun _ _ h => h

end Store

end FiniteDomain
