import FiniteDomain.Proofs.Variable.Narrowing

/-! # What views show

    A view shows saturated images: `x.shown v` is what is read off `x` when the
    variable below has the value `v`.  It is the exact image as long as no image
    on the way leaves the range of values (`shown_eq_image`); beyond that it is
    the end of the range on that side.

    Wherever the images lie, the bounds of `x` are what `x` shows at the bounds
    below (`bounds_eq_shown`), and a bound that is tightened between them keeps
    exactly the values for which `x` shows what obeys it
    (`tightenUpper_keeps_shown`).  At a bound itself this would fail: no request
    tells an image at the end of the range from those beyond it. -/

namespace FiniteDomain

namespace IntVar

variable {x y inner : IntVar} {map : AffineMap} {s : Store} {k v w : Int}

/-- What is read off the variable when the variable of the store below has the value `v`. -/
def shown : IntVar → Int → Int
  | .plain _, v => v
  | .view inner map, v => map.apply (inner.shown v)

/-- The number that is saturated to what the variable shows. -/
def unsaturated : IntVar → Int → Int
  | .plain _, v => v
  | .view inner map, v => map.image (inner.shown v)

theorem shown_eq_image (h : x.Within Width.value v) : x.shown v = x.image v := by
  induction x with
  | plain y => rfl
  | view inner map ih =>
    obtain ⟨hinner, hfits⟩ := h
    show map.apply (inner.shown v) = map.image (inner.image v)
    rw [ih hinner]
    exact Width.clamp_of_fits hfits

theorem unsaturated_eq_image (h : x.Within Width.value v) : x.unsaturated v = x.image v := by
  cases x with
  | plain y => rfl
  | view inner map => exact congrArg map.image (shown_eq_image h.1)

/-- Where only the last image may leave the range, that is what is saturated. -/
theorem shown_eq_clamp (hx : x.source.Ranges Width.value s)
    (hv : (s.int x.base).contains v = true) : x.shown v = Width.value.clamp (x.image v) := by
  cases x with
  | plain y => exact (Width.clamp_of_fits (hx v hv)).symm
  | view inner map =>
    have hinner : inner.Within Width.value v := hx v hv
    show map.apply (inner.shown v) = map.apply (inner.image v)
    rw [shown_eq_image hinner]

theorem fits_shown (x : IntVar) (h : Width.value.Fits v) : Width.value.Fits (x.shown v) := by
  cases x with
  | plain y => exact h
  | view inner map => exact Width.fits_clamp _ (by decide)

/-- Saturation keeps the order. -/
theorem shown_mono (x : IntVar) (h : v ≤ w) :
    (x.reverses = false → x.shown v ≤ x.shown w)
      ∧ (x.reverses = true → x.shown w ≤ x.shown v) := by
  induction x with
  | plain y =>
    refine ⟨fun _ => h, fun hr => ?_⟩
    cases hr
  | view inner map ih =>
    obtain ⟨hkeeps, hturns⟩ := ih
    show ((inner.reverses ^^ map.reverses) = false →
        map.apply (inner.shown v) ≤ map.apply (inner.shown w))
      ∧ ((inner.reverses ^^ map.reverses) = true →
        map.apply (inner.shown w) ≤ map.apply (inner.shown v))
    cases hm : map.reverses with
    | false =>
      rw [Bool.xor_false]
      exact ⟨fun hr => AffineMap.apply_mono hm (hkeeps hr),
        fun hr => AffineMap.apply_mono hm (hturns hr)⟩
    | true =>
      rw [Bool.xor_true]
      cases hr : inner.reverses with
      | false =>
        exact ⟨nofun, fun _ => AffineMap.apply_mono_of_reverses hm (hkeeps hr)⟩
      | true =>
        exact ⟨fun _ => AffineMap.apply_mono_of_reverses hm (hturns hr), nofun⟩

/-! ### Bounds -/

/-- The bounds are what is shown at the bounds below, which change places if the order is
    reversed. -/
theorem bounds_eq_shown (x : IntVar) (s : Store) :
    x.lowerBound s = x.shown (if x.reverses then (s.int x.base).upper else (s.int x.base).lower)
      ∧ x.upperBound s
        = x.shown (if x.reverses then (s.int x.base).lower else (s.int x.base).upper) := by
  induction x with
  | plain y => exact ⟨rfl, rfl⟩
  | view inner map ih =>
    obtain ⟨ihlower, ihupper⟩ := ih
    show map.apply (if map.reverses then inner.upperBound s else inner.lowerBound s)
        = map.apply (inner.shown (if inner.reverses ^^ map.reverses then _ else _))
      ∧ map.apply (if map.reverses then inner.lowerBound s else inner.upperBound s)
        = map.apply (inner.shown (if inner.reverses ^^ map.reverses then _ else _))
    rw [ihlower, ihupper]
    cases map.reverses <;> cases inner.reverses <;> exact ⟨rfl, rfl⟩

/-- What is shown lies between the bounds. -/
theorem shown_between (x : IntVar) (hv : (s.int x.base).contains v = true) :
    x.lowerBound s ≤ x.shown v ∧ x.shown v ≤ x.upperBound s := by
  obtain ⟨hlower, hupper, -⟩ := IntegerDomain.contains_iff.mp hv
  obtain ⟨hleast, hgreatest⟩ := bounds_eq_shown x s
  rw [hleast, hgreatest]
  cases hr : x.reverses with
  | false => exact ⟨(shown_mono x hlower).1 hr, (shown_mono x hupper).1 hr⟩
  | true => exact ⟨(shown_mono x hupper).2 hr, (shown_mono x hlower).2 hr⟩

/-- If nothing is left but what there was, the bounds have only moved inwards. -/
theorem bounds_of_subset {t : Store} (x : IntVar) (ht : t.Wf)
    (hleft : ∀ v, (t.int x.base).contains v = true → (s.int x.base).contains v = true) :
    x.lowerBound s ≤ x.lowerBound t ∧ x.upperBound t ≤ x.upperBound s := by
  obtain ⟨hlower, hupper⟩ := bounds_eq_shown x t
  have hleast := x.shown_between (hleft _ (ht.int x.base).lower_mem)
  have hgreatest := x.shown_between (hleft _ (ht.int x.base).upper_mem)
  rw [hlower, hupper]
  split
  · exact ⟨hgreatest.1, hleast.2⟩
  · exact ⟨hleast.1, hgreatest.2⟩

/-- The bounds are the least and the greatest number that is taken, saturated. -/
theorem exists_ends (hs : s.Wf) (hx : x.source.Ranges Width.value s) :
    (∃ k, x.Takes s k ∧ x.lowerBound s = Width.value.clamp k ∧ ∀ l, x.Takes s l → k ≤ l)
      ∧ ∃ k, x.Takes s k ∧ x.upperBound s = Width.value.clamp k ∧ ∀ l, x.Takes s l → l ≤ k := by
  have hd := hs.int x.base
  obtain ⟨hlower, hupper⟩ := bounds_eq_shown x s
  have hbetween : ∀ v, (s.int x.base).contains v = true →
      (s.int x.base).lower ≤ v ∧ v ≤ (s.int x.base).upper := fun v hv =>
    ⟨(IntegerDomain.contains_iff.mp hv).1, (IntegerDomain.contains_iff.mp hv).2.1⟩
  rw [hlower, hupper]
  cases hr : x.reverses with
  | false =>
    refine ⟨⟨_, takes_image hd.lower_mem, shown_eq_clamp hx hd.lower_mem, ?_⟩,
      _, takes_image hd.upper_mem, shown_eq_clamp hx hd.upper_mem, ?_⟩
    · rintro _ ⟨v, hv, rfl⟩
      exact (image_le_image hr).mpr (hbetween v hv).1
    · rintro _ ⟨v, hv, rfl⟩
      exact (image_le_image hr).mpr (hbetween v hv).2
  | true =>
    refine ⟨⟨_, takes_image hd.upper_mem, shown_eq_clamp hx hd.upper_mem, ?_⟩,
      _, takes_image hd.lower_mem, shown_eq_clamp hx hd.lower_mem, ?_⟩
    · rintro _ ⟨v, hv, rfl⟩
      exact (image_le_image_of_reverses hr).mpr (hbetween v hv).2
    · rintro _ ⟨v, hv, rfl⟩
      exact (image_le_image_of_reverses hr).mpr (hbetween v hv).1

/-- If one value is left below, both bounds are what is shown for it. -/
theorem bounds_of_single (x : IntVar) (hs : s.Wf)
    (hsingle : ∀ w, (s.int x.base).contains w = true → w = v) :
    x.lowerBound s = x.shown v ∧ x.upperBound s = x.shown v := by
  obtain ⟨hleast, hgreatest⟩ := bounds_eq_shown x s
  have hlower := hsingle _ (hs.int x.base).lower_mem
  have hupper := hsingle _ (hs.int x.base).upper_mem
  rw [hleast, hgreatest, hlower, hupper, ite_self]
  exact ⟨rfl, rfl⟩

/-! ### Tightening between the bounds -/

end IntVar

namespace AffineMap

variable {m : AffineMap} {k l n : Int}

/-- What is pulled back to above a value is not raised to the least value. -/
theorem pullLower?_of_lt (hl : minValue ≤ l) (h : l < m.pullUp k) :
    m.pullLower? k = if m.pullUp k ≤ maxValue then some (m.pullUp k) else none := by
  unfold pullLower?
  simp only [max_eq_left (hl.trans h.le)]

/-- What is pulled back to below a value is not lowered to the greatest value. -/
theorem pullUpper?_of_lt (hl : l ≤ maxValue) (h : m.pullDown k < l) :
    m.pullUpper? k = if minValue ≤ m.pullDown k then some (m.pullDown k) else none := by
  unfold pullUpper?
  simp only [min_eq_left (h.le.trans hl)]

/-- Above the least value a number compares with a saturated image as with the image. -/
theorem le_apply (hk : k ≤ maxValue) (h : m.apply l < k) :
    m.image l < k ∧ (k ≤ m.apply n ↔ k ≤ m.image n) := by
  unfold apply Width.clamp at *
  unfold maxValue at hk
  omega

/-- Below the greatest value a number compares with a saturated image as with the image. -/
theorem apply_le (hk : minValue ≤ k) (h : k < m.apply l) :
    k < m.image l ∧ (m.apply n ≤ k ↔ m.image n ≤ k) := by
  have hle : Width.value.least ≤ Width.value.greatest := by decide
  unfold apply Width.clamp at *
  unfold minValue at hk
  omega

end AffineMap

namespace IntVar

variable {x y inner : IntVar} {map : AffineMap} {s : Store} {k v w : Int}

/-- A bound between the bounds keeps the values for which the variable shows what obeys it. -/
theorem tighten_keeps_shown (hs : s.Wf) (hbase : (plain x.base).Ranges Width.value s) :
    (∀ k, x.lowerBound s < k → k ≤ maxValue →
        (x.tightenLower s k).Keeps s fun a => k ≤ x.shown (a.int x.base))
      ∧ ∀ k, minValue ≤ k → k < x.upperBound s →
        (x.tightenUpper s k).Keeps s fun a => x.shown (a.int x.base) ≤ k := by
  induction x with
  | plain y =>
    exact ⟨fun k _ _ => Store.tightenLower_keeps hs y k,
      fun k _ _ => Store.tightenUpper_keeps hs y k⟩
  | view inner map ih =>
    obtain ⟨ihlower, ihupper⟩ := ih hbase
    obtain ⟨⟨hleast, -⟩, -, hgreatest⟩ := fits_bounds hs (x := inner) hbase
    have hfits : ∀ a : Valuation, s.Admits a →
        Width.value.Fits (inner.shown (a.int inner.base)) := fun a ha =>
      fits_shown inner (hbase _ (ha.int inner.base))
    -- a bound that is pulled back lies beyond the one below, and maybe beyond the range
    have hraise : ∀ p, inner.lowerBound s < p →
        ((if p ≤ maxValue then some p else none).elim ⟨none, s⟩ (inner.tightenLower s)).Keeps s
          fun a => p ≤ inner.shown (a.int inner.base) := by
      intro p hp
      split
      next hle => exact ihlower p hp hle
      next hgt => exact Narrowed.keeps_never fun a ha hle => hgt (hle.trans (hfits a ha).2)
    have hdrop : ∀ p, p < inner.upperBound s →
        ((if minValue ≤ p then some p else none).elim ⟨none, s⟩ (inner.tightenUpper s)).Keeps s
          fun a => inner.shown (a.int inner.base) ≤ p := by
      intro p hp
      split
      next hle => exact ihupper p hle hp
      next hgt => exact Narrowed.keeps_never fun a ha hle => hgt ((hfits a ha).1.trans hle)
    constructor
    · intro k hk hmax
      show Narrowed.Keeps s (fun a => k ≤ map.apply (inner.shown (a.int inner.base)))
        (if map.reverses then (map.pullUpper? k).elim ⟨none, s⟩ (inner.tightenUpper s)
          else (map.pullLower? k).elim ⟨none, s⟩ (inner.tightenLower s))
      change map.apply (if map.reverses then inner.upperBound s else inner.lowerBound s) < k at hk
      cases hr : map.reverses with
      | false =>
        rw [hr, if_neg Bool.false_ne_true] at hk
        have hpull := (AffineMap.lt_pullUp hr).mpr (AffineMap.le_apply (n := k) hmax hk).1
        rw [if_neg Bool.false_ne_true, AffineMap.pullLower?_of_lt hleast hpull]
        refine (hraise _ hpull).congr hs fun a _ => ?_
        rw [(AffineMap.le_apply hmax hk).2, AffineMap.pullUp_le hr]
      | true =>
        rw [hr, if_pos rfl] at hk
        have hpull := (AffineMap.pullDown_lt_of_reverses hr).mpr
          (AffineMap.le_apply (n := k) hmax hk).1
        rw [if_pos rfl, AffineMap.pullUpper?_of_lt hgreatest hpull]
        refine (hdrop _ hpull).congr hs fun a _ => ?_
        rw [(AffineMap.le_apply hmax hk).2, AffineMap.le_pullDown_of_reverses hr]
    · intro k hmin hk
      show Narrowed.Keeps s (fun a => map.apply (inner.shown (a.int inner.base)) ≤ k)
        (if map.reverses then (map.pullLower? k).elim ⟨none, s⟩ (inner.tightenLower s)
          else (map.pullUpper? k).elim ⟨none, s⟩ (inner.tightenUpper s))
      change k < map.apply (if map.reverses then inner.lowerBound s else inner.upperBound s) at hk
      cases hr : map.reverses with
      | false =>
        rw [hr, if_neg Bool.false_ne_true] at hk
        have hpull := (AffineMap.pullDown_lt hr).mpr (AffineMap.apply_le (n := k) hmin hk).1
        rw [if_neg Bool.false_ne_true, AffineMap.pullUpper?_of_lt hgreatest hpull]
        refine (hdrop _ hpull).congr hs fun a _ => ?_
        rw [(AffineMap.apply_le hmin hk).2, AffineMap.le_pullDown hr]
      | true =>
        rw [hr, if_pos rfl] at hk
        have hpull := (AffineMap.lt_pullUp_of_reverses hr).mpr
          (AffineMap.apply_le (n := k) hmin hk).1
        rw [if_pos rfl, AffineMap.pullLower?_of_lt hleast hpull]
        refine (hraise _ hpull).congr hs fun a _ => ?_
        rw [(AffineMap.apply_le hmin hk).2, AffineMap.pullUp_le_of_reverses hr]

theorem tightenUpper_keeps_shown (hs : s.Wf) (hbase : (plain x.base).Ranges Width.value s)
    (hmin : minValue ≤ k) (hk : k < x.upperBound s) :
    (x.tightenUpper s k).Keeps s fun a => x.shown (a.int x.base) ≤ k :=
  (tighten_keeps_shown hs hbase).2 k hmin hk

/-! ### Changing the sign -/

/-- What the variable with its sign changed shows. -/
def opposite (x : IntVar) (v : Int) : Int := Width.value.clamp (-x.unsaturated v)

theorem shown_negated (h : x.negated = .ok y) (v : Int) : y.shown v = x.opposite v := by
  have himage : ∀ {m m' : AffineMap} {u : Int}, m.scaled (-1) = .ok m' → m'.image u = -m.image u := by
    intro m m' u hm
    unfold AffineMap.scaled AffineMap.make at hm
    split at hm
    · split at hm
      · cases hm
      · cases hm
        simp only [AffineMap.image]
        ring
    · cases hm
  cases x with
  | plain z =>
    cases h
    show Width.value.clamp (-1 * v + 0) = Width.value.clamp (-v)
    congr 1
    omega
  | view inner map =>
    simp only [negated, scaled, bind, Except.bind] at h
    split at h
    · cases h
    next m hm =>
      cases h
      exact congrArg Width.value.clamp (himage hm)

/-- Saturation may make the opposite too small, never too great. -/
theorem opposite_le (x : IntVar) (h : Width.value.Fits v) : x.opposite v ≤ -x.shown v := by
  have hle : Width.value.least = -Width.value.greatest - 1 := by decide
  have hpos : 0 ≤ Width.value.greatest := by decide
  cases x with
  | plain y =>
    obtain ⟨hleast, hgreatest⟩ := h
    show max _ (min (-v) _) ≤ -v
    omega
  | view inner map =>
    show max _ (min (-map.image (inner.shown v)) _) ≤ -(max _ (min (map.image (inner.shown v)) _))
    omega

/-- Unless the variable or its opposite leaves the range, nothing is saturated. -/
theorem shown_exact (x : IntVar) (hleast : minValue < x.unsaturated v)
    (hgreatest : x.unsaturated v ≤ maxValue) :
    x.shown v = x.unsaturated v ∧ x.opposite v = -x.unsaturated v := by
  have hle : Width.value.least = -Width.value.greatest - 1 := by decide
  unfold minValue at hleast
  unfold maxValue at hgreatest
  have hopposite : x.opposite v = -x.unsaturated v :=
    Width.clamp_of_fits ⟨by omega, by omega⟩
  refine ⟨?_, hopposite⟩
  cases x with
  | plain y => rfl
  | view inner map => exact Width.clamp_of_fits ⟨hleast.le, hgreatest⟩

end IntVar

end FiniteDomain
