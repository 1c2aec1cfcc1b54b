import FiniteDomain.Proofs.Contract.View
import FiniteDomain.Proofs.Variable.Saturation

/-! # Variables without holes

    A variable is seamless if it takes every number between its bounds.  A bounded
    domain is, and so are its mirror images and those that are shifted within the
    range (`seamless_plain`, `Seamless.view`).

    A bound that is tightened keeps what is taken beyond it
    (`takes_tightenLower`, `takes_tightenUpper`), so the other bound stays where it
    is; and of a seamless variable, the bound itself moves exactly to where it is
    demanded (`Seamless.lowerBound_tightenLower`). -/

namespace FiniteDomain.IntVar

variable {x y inner : IntVar} {map : AffineMap} {s t : Store} {k l : Int}

/-! ### What is taken after a narrowing -/

theorem takes_of_base (h : t.int x.base = s.int x.base) : x.Takes t k ↔ x.Takes s k := by
  unfold Takes
  rw [h]

/-- A narrowing that keeps the values with a property leaves those that have it. -/
theorem takes_of_keeps {n : Narrowed} (holds : Int → Prop) (hs : s.Wf)
    (h : n.Keeps s fun a => holds (x.exactValue a.int)) (hne : n.changed? ≠ none) :
    x.Takes n.store k ↔ x.Takes s k ∧ holds k := by
  have hsteps : s.Steps n.store := .of_narrowed h.toSteps
  constructor
  · rintro ⟨v, hv, rfl⟩
    obtain ⟨a, ha⟩ := (hsteps.wf hs).exists_admits
    have hobeys := h.exactly hne _ (ha.withInt hv)
    rw [exactValue_eq, Valuation.int_withInt_self] at hobeys
    exact ⟨takes_image ((hsteps.narrower hs).contains hv), hobeys⟩
  · rintro ⟨⟨v, hv, rfl⟩, hholds⟩
    obtain ⟨a, ha⟩ := hs.exists_admits
    have hkept := h.kept (a.withInt x.base v) (ha.withInt hv) (by
      rw [exactValue_eq, Valuation.int_withInt_self]
      exact hholds)
    have hcontains := hkept.int x.base
    rw [Valuation.int_withInt_self] at hcontains
    exact takes_image hcontains

section

variable (hs : s.Wf) (hx : x.source.Ranges Width.value s)

include hs hx

theorem takes_tightenLower (hne : (x.tightenLower s k).changed? ≠ none) :
    x.Takes (x.tightenLower s k).store l ↔ x.Takes s l ∧ k ≤ l :=
  takes_of_keeps (k ≤ ·) hs (tightenLower_keeps hs hx k) hne

theorem takes_tightenUpper (hne : (x.tightenUpper s k).changed? ≠ none) :
    x.Takes (x.tightenUpper s k).store l ↔ x.Takes s l ∧ l ≤ k :=
  takes_of_keeps (· ≤ k) hs (tightenUpper_keeps hs hx k) hne

/-- The variables over other variables of the store stay as they are. -/
theorem int_tighten {z : IntId} (hz : z ≠ x.base) :
    (x.tightenLower s k).store.int z = s.int z ∧ (x.tightenUpper s k).store.int z = s.int z :=
  ⟨(answers_comparison hs hx .atLeast k).others.1 z hz,
    (answers_comparison hs hx .atMost k).others.1 z hz⟩

/-! ### The other bound -/

/-- To raise the lower bound leaves the upper bound where it is. -/
theorem upperBound_tightenLower (hne : (x.tightenLower s k).changed? ≠ none) :
    x.upperBound (x.tightenLower s k).store = x.upperBound s := by
  have hsteps : s.Steps (x.tightenLower s k).store := .of_narrowed (tightenLower_keeps hs hx k).toSteps
  obtain ⟨-, great, hgreat, hupper, hgreatest⟩ := exists_ends hs hx
  obtain ⟨-, great', hgreat', hupper', hgreatest'⟩ :=
    exists_ends (hsteps.wf hs) (hx.narrower (hsteps.narrower hs))
  -- what is left is at least `k`, so the greatest number is left as well
  obtain ⟨htaken, hle⟩ := (takes_tightenLower hs hx hne).mp hgreat'
  have hbelow := hgreatest great' htaken
  have habove := hgreatest' great
    ((takes_tightenLower hs hx hne).mpr ⟨hgreat, Int.le_trans hle hbelow⟩)
  rw [hupper, hupper', Int.le_antisymm hbelow habove]

/-- To lower the upper bound leaves the lower bound where it is. -/
theorem lowerBound_tightenUpper (hne : (x.tightenUpper s k).changed? ≠ none) :
    x.lowerBound (x.tightenUpper s k).store = x.lowerBound s := by
  have hsteps : s.Steps (x.tightenUpper s k).store := .of_narrowed (tightenUpper_keeps hs hx k).toSteps
  obtain ⟨⟨least, hleast, hlower, hsmallest⟩, -⟩ := exists_ends hs hx
  obtain ⟨⟨least', hleast', hlower', hsmallest'⟩, -⟩ :=
    exists_ends (hsteps.wf hs) (hx.narrower (hsteps.narrower hs))
  obtain ⟨htaken, hle⟩ := (takes_tightenUpper hs hx hne).mp hleast'
  have habove := hsmallest least' htaken
  have hbelow := hsmallest' least
    ((takes_tightenUpper hs hx hne).mpr ⟨hleast, Int.le_trans habove hle⟩)
  rw [hlower, hlower', Int.le_antisymm hbelow habove]

end

/-! ### Seamless variables -/

/-- The variable takes every number between its bounds, and nothing is saturated. -/
structure Seamless (x : IntVar) (s : Store) : Prop where
  /-- Its values and those of what it is an image of lie in the range. -/
  ranges : x.Ranges Width.value s
  /-- There are no holes. -/
  filled : ∀ k, x.lowerBound s ≤ k → k ≤ x.upperBound s → x.Takes s k

/-- A bounded domain has no holes. -/
theorem seamless_plain {y : IntId} (hs : s.Wf) (hbounded : (s.int y).isEnumerated = false)
    (hranges : (plain y).Ranges Width.value s) : (plain y).Seamless s where
  ranges := hranges
  filled := fun _ hlow hhigh => takes_image (IntegerDomain.contains_of_between hbounded
    (hs.int y).lower_mem (hs.int y).upper_mem hlow hhigh)

namespace Seamless

theorem of_base (hx : x.Seamless s) (h : t.int x.base = s.int x.base) : x.Seamless t where
  ranges := fun v hv => hx.ranges v (h ▸ hv)
  filled := by
    obtain ⟨hlower, hupper⟩ := bounds_of_base h
    rw [hlower, hupper]
    exact fun k hlow hhigh => (takes_of_base h).mpr (hx.filled k hlow hhigh)

/-- A mirror image, or one that is shifted, has no holes either. -/
theorem view (hinner : inner.Seamless s) (hs : s.Wf) (hscale : map.scale = 1 ∨ map.scale = -1)
    (hranges : (view inner map).Ranges Width.value s) : (IntVar.view inner map).Seamless s where
  ranges := hranges
  filled := by
    intro k hlow hhigh
    -- the bounds are images of the bounds of the inner variable, in one order or the other
    obtain ⟨u, hu, hulow⟩ := takes_view.mp (takes_lowerBound hs hranges)
    obtain ⟨v, hv, hvhigh⟩ := takes_view.mp (takes_upperBound hs hranges)
    have hulower := lowerBound_le hs hinner.ranges hu
    have huupper := le_upperBound hs hinner.ranges hu
    have hvlower := lowerBound_le hs hinner.ranges hv
    have hvupper := le_upperBound hs hinner.ranges hv
    rw [← hulow] at hlow
    rw [← hvhigh] at hhigh
    unfold AffineMap.image at hlow hhigh
    rcases hscale with hscale | hscale
    · rw [hscale] at hlow hhigh
      refine takes_view.mpr ⟨k - map.offset, hinner.filled _ (by omega) (by omega), ?_⟩
      rw [AffineMap.image, hscale]
      omega
    · rw [hscale] at hlow hhigh
      refine takes_view.mpr ⟨map.offset - k, hinner.filled _ (by omega) (by omega), ?_⟩
      rw [AffineMap.image, hscale]
      omega

/-- Of what has no holes, the numbers between two that are left are left, if nothing between them is
    taken away. -/
theorem of_takes (hx : x.Seamless s) (hst : s.Steps t) (hs : s.Wf) {holds : Int → Prop}
    (htakes : ∀ k, x.Takes t k ↔ x.Takes s k ∧ holds k)
    (hconvex : ∀ k l m, holds k → holds l → k ≤ m → m ≤ l → holds m) : x.Seamless t where
  ranges := hx.ranges.steps hst hs
  filled := by
    intro k hlow hhigh
    have ht := hst.wf hs
    have hxt := hx.ranges.steps hst hs
    obtain ⟨hlower, hleast⟩ := (htakes _).mp (takes_lowerBound ht hxt)
    obtain ⟨hupper, hgreatest⟩ := (htakes _).mp (takes_upperBound ht hxt)
    have hl := lowerBound_le hs hx.ranges hlower
    have hu := le_upperBound hs hx.ranges hupper
    exact (htakes k).mpr ⟨hx.filled k (Int.le_trans hl hlow) (Int.le_trans hhigh hu),
      hconvex _ _ k hleast hgreatest hlow hhigh⟩

theorem tightenLower (hx : x.Seamless s) (hs : s.Wf)
    (hne : (x.tightenLower s k).changed? ≠ none) : x.Seamless (x.tightenLower s k).store :=
  hx.of_takes (.of_narrowed (tightenLower_keeps hs hx.ranges.source k).toSteps) hs
    (fun _ => takes_tightenLower hs hx.ranges.source hne)
    fun _ _ _ hle _ hbetween _ => Int.le_trans hle hbetween

theorem tightenUpper (hx : x.Seamless s) (hs : s.Wf)
    (hne : (x.tightenUpper s k).changed? ≠ none) : x.Seamless (x.tightenUpper s k).store :=
  hx.of_takes (.of_narrowed (tightenUpper_keeps hs hx.ranges.source k).toSteps) hs
    (fun _ => takes_tightenUpper hs hx.ranges.source hne)
    fun _ _ _ _ hle _ hbetween => Int.le_trans hbetween hle

/-- The lower bound is raised to the number that is demanded, not beyond. -/
theorem lowerBound_tightenLower (hx : x.Seamless s) (hs : s.Wf)
    (hne : (x.tightenLower s k).changed? ≠ none) (hle : x.lowerBound s ≤ k) :
    x.lowerBound (x.tightenLower s k).store = k := by
  have hsteps : s.Steps (x.tightenLower s k).store :=
    .of_narrowed (tightenLower_keeps hs hx.ranges.source k).toSteps
  have ht := hsteps.wf hs
  have hxt := hx.ranges.steps hsteps hs
  obtain ⟨htaken, habove⟩ :=
    (takes_tightenLower hs hx.ranges.source hne).mp (takes_lowerBound ht hxt)
  have hupper := le_upperBound hs hx.ranges htaken
  have hk : x.Takes (x.tightenLower s k).store k :=
    (takes_tightenLower hs hx.ranges.source hne).mpr
      ⟨hx.filled k hle (Int.le_trans habove hupper), Int.le_refl k⟩
  exact Int.le_antisymm (lowerBound_le ht hxt hk) habove

end Seamless

end FiniteDomain.IntVar
