import FiniteDomain.Proofs.Contract.Interval
import Mathlib.Data.Set.Card

/-! # What is read off a variable

    A variable shows the images of the values below it.  Its bounds, its size and
    the test for a value are right whenever the images stay in the range of
    values.  The neighbours of a number are not always: a view asks the variable
    below for a neighbour and takes an answer at an end of the range for "there is
    none", although the end may be a value, and a number that it pulls back to
    beyond the range it moves onto the end.

    `IntVar.Sheltered x v` says that this cannot happen at `v`.  A neighbour is
    found unless it is the image of a value that is not sheltered
    (`IntVar.finds`), and only the two bounds below can have such an image
    (`IntVar.within_of_between`); so the values are listed correctly unless the
    last one is hidden (`Store.reading_contract`). -/

namespace FiniteDomain

namespace IntVar

variable {x : IntVar} {s : Store} {k v : Int}

/-! ### Values between the bounds -/

/-- A value strictly between the bounds below and its images are no ends of the range. -/
theorem within_of_between (hs : s.Wf) (hx : x.Ranges Width.value s)
    (hlower : (s.int x.base).lower < v) (hupper : v < (s.int x.base).upper) :
    x.Within Width.interior v := by
  -- strictly between two numbers of the range is no end of it
  have hinside : ∀ {a b c : Int}, Width.value.Fits a → Width.value.Fits c → a < b → b < c →
      Width.interior.Fits b := by
    intro a b c ha hc hab hbc
    have hleast : minValue ≤ a := ha.1
    have hgreatest : c ≤ maxValue := hc.2
    exact ⟨by show minValue + 1 ≤ b; omega, by show b ≤ maxValue - 1; omega⟩
  have hd := hs.int x.base
  induction x with
  | plain y => exact hinside (hx _ hd.lower_mem) (hx _ hd.upper_mem) hlower hupper
  | view inner map ih =>
    refine ⟨ih hx.inner hlower hupper hd, ?_⟩
    have hleast := (hx _ hd.lower_mem).fits
    have hgreatest := (hx _ hd.upper_mem).fits
    cases hr : (view inner map).reverses with
    | false =>
      exact hinside hleast hgreatest ((image_lt_image hr).mpr hlower)
        ((image_lt_image hr).mpr hupper)
    | true =>
      exact hinside hgreatest hleast ((image_lt_image_of_reverses hr).mpr hupper)
        ((image_lt_image_of_reverses hr).mpr hlower)

/-- Numbers that are taken strictly between two others are sheltered. -/
theorem shelters_of_between (hs : s.Wf) (hx : x.Ranges Width.value s)
    (hlower : x.lowerBound s < k) (hupper : k < x.upperBound s) : x.Shelters s k := by
  rintro v hv rfl
  obtain ⟨hlow, hhigh⟩ := bounds_eq hs hx
  have hbetween : (s.int x.base).lower < v ∧ v < (s.int x.base).upper := by
    cases hr : x.reverses with
    | false =>
      rw [hlow, hr, if_neg Bool.false_ne_true, image_lt_image hr] at hlower
      rw [hhigh, hr, if_neg Bool.false_ne_true, image_lt_image hr] at hupper
      exact ⟨hlower, hupper⟩
    | true =>
      rw [hlow, hr, if_pos rfl, image_lt_image_of_reverses hr] at hlower
      rw [hhigh, hr, if_pos rfl, image_lt_image_of_reverses hr] at hupper
      exact ⟨hupper, hlower⟩
  exact ((within_interior_iff x v).mp (within_of_between hs hx hbetween.1 hbetween.2)).1

/-- If the greatest number can be read, every number below it is followed by the next one. -/
theorem climbs_of_readable (hs : s.Wf) (hx : x.Ranges Width.value s)
    (hread : x.Readable s maxValue (x.upperBound s)) :
    IntegerDomain.Climbs (x.Takes s) (x.nextValue s) (x.upperBound s) := by
  intro v hv hlt
  have hupper := takes_upperBound hs hx
  obtain ⟨n, hn⟩ := (exists_nearest x s v).1
  have hfound : x.nextValue s v = n := by
    refine nextValue_of_readable hs hx hn ?_
    rcases hn with ⟨rfl, -⟩ | ⟨htaken, hgt, hleast⟩
    · exact Or.inl rfl
    have hle := hleast _ hupper hlt
    rcases Int.lt_or_eq_of_le hle with hinside | rfl
    · have hlower := lowerBound_le hs hx hv
      exact Or.inr (shelters_of_between hs hx (by omega) hinside)
    · exact hread
  rw [hfound]
  rcases hn with ⟨-, hnone⟩ | hnext
  · exact absurd hlt (hnone _ hupper)
  · exact hnext

end IntVar

/-! ### Everything that is read -/

namespace Store

open IntVar
open IntegerDomain (IsNext IsPrevious)

variable {s : Store} {x : IntVar}

/-- The test for a value, the bounds and the size of a variable whose images stay in the range of
    values are those of the set of images.  A neighbour of a number is the nearest image, or the
    end of the range if there is none, unless the nearest image is hidden: unless it is the image
    of a value at an end of the range, and not an end itself.  If the greatest image is not hidden
    or the only one, the values are all images in ascending order. -/
theorem reading_contract (hs : s.Reachable) (hx : x.Ranges Width.value s) :
    (∀ k, x.contains s k = true ↔ x.Takes s k)
      ∧ IsLeast {k | x.Takes s k} (x.lowerBound s)
      ∧ IsGreatest {k | x.Takes s k} (x.upperBound s)
      ∧ x.size s = {k | x.Takes s k}.ncard
      ∧ (∀ k n, IsNext (x.Takes s) k n → x.Readable s maxValue n → x.nextValue s k = n)
      ∧ (∀ k n, IsPrevious (x.Takes s) k n → x.Readable s minValue n → x.previousValue s k = n)
      ∧ (x.isFixed s = true ∨ x.Readable s maxValue (x.upperBound s) →
        (∀ k, k ∈ x.values s ↔ x.Takes s k) ∧ (x.values s).Pairwise (· < ·)) := by
  have hwf := hs.traced.wf
  have hlower := takes_lowerBound hwf hx
  refine ⟨fun k => IntVar.contains_iff hx, ⟨hlower, fun k hk => lowerBound_le hwf hx hk⟩,
    ⟨takes_upperBound hwf hx, fun k hk => le_upperBound hwf hx hk⟩, ?_,
    fun k n => nextValue_of_readable hwf hx, fun k n => previousValue_of_readable hwf hx,
    fun hread => ?_⟩
  · have himage : {k | x.Takes s k} = ((s.int x.base).valueSet.image x.image : Finset Int) := by
      ext k
      rw [Finset.mem_coe, Finset.mem_image]
      simp only [IntegerDomain.mem_valueSet]
      rfl
    rw [himage, Set.ncard_coe_finset, Finset.card_image_of_injective _ fun v w => image_injective]
    exact (hwf.int x.base).size_eq
  · have hclimbs : IntegerDomain.Climbs (x.Takes s) (x.nextValue s) (x.upperBound s) := by
      -- a fixed variable has nothing to climb to
      rcases hread with hfixed | hread
      · intro v hv hlt
        have heq : x.lowerBound s = x.upperBound s := beq_iff_eq.mp hfixed
        have hle := lowerBound_le hwf hx hv
        omega
      · exact climbs_of_readable hwf hx hread
    refine ⟨fun k => ⟨fun hk => ?_, fun hk => ?_⟩, IntegerDomain.pairwise_ascend hclimbs _ hlower⟩
    · exact (IntegerDomain.member_of_mem_ascend hclimbs _ hlower hk).1
    · exact IntegerDomain.mem_ascend hclimbs hlower (span_bounds hwf hx.base) hk
        (lowerBound_le hwf hx hk) (le_upperBound hwf hx hk)

theorem contains_brink (v : Int) : (brink.int ⟨0⟩).contains v = true ↔ v = 0 ∨ v = maxValue := by
  have hsorted : ([0, maxValue] : List Int).Pairwise (· < ·) := by decide
  have hmem : (brink.int ⟨0⟩).contains v = true ↔ v ∈ [0, maxValue] :=
    IntegerDomain.contains_enumerated hsorted rfl v
  rw [hmem, List.mem_cons, List.mem_singleton]

theorem takes_brink (m : AffineMap) (k : Int) :
    (IntVar.view (.plain ⟨0⟩) m).Takes brink k ↔ k = m.image 0 ∨ k = m.image maxValue := by
  constructor
  · rintro ⟨v, hv, rfl⟩
    rcases (contains_brink v).mp hv with rfl | rfl
    · exact Or.inl rfl
    · exact Or.inr rfl
  · rintro (rfl | rfl)
    · exact ⟨0, (contains_brink 0).mpr (Or.inl rfl), rfl⟩
    · exact ⟨maxValue, (contains_brink maxValue).mpr (Or.inr rfl), rfl⟩

theorem ranges_brink {m : AffineMap} (hzero : Width.value.Fits (m.image 0))
    (hmax : Width.value.Fits (m.image maxValue)) :
    (IntVar.view (.plain ⟨0⟩) m).Ranges Width.value brink := by
  have hends : Width.value.Fits 0 ∧ Width.value.Fits maxValue := by decide
  intro v hv
  rcases (contains_brink v).mp hv with rfl | rfl
  · exact ⟨hends.1, hzero⟩
  · exact ⟨hends.2, hmax⟩

/-- The mirror image of the values 0 and `maxValue` is listed although one of them is an end of the
    range: it is not the last. -/
theorem reading_contract_mirrored :
    ∃ x : IntVar, x = .view (.plain ⟨0⟩) ⟨-1, 0, by decide⟩ ∧ x.nextValue brink (-maxValue) = 0
      ∧ ∀ k, k ∈ x.values brink ↔ k = 0 ∨ k = -maxValue := by
  refine ⟨.view (.plain ⟨0⟩) ⟨-1, 0, by decide⟩, rfl, ?_⟩
  have htakes := takes_brink ⟨-1, 0, by decide⟩
  obtain ⟨-, -, -, -, hnext, -, hvalues⟩ := reading_contract brink_reachable
    (x := .view (.plain ⟨0⟩) ⟨-1, 0, by decide⟩) (ranges_brink (by decide) (by decide))
  generalize hx : IntVar.view (.plain ⟨0⟩) ⟨-1, 0, by decide⟩ = x at *
  -- the greatest value of the view is the image of 0, which is no end of the range
  have hshelters : x.Shelters brink 0 := by
    subst hx
    intro v hv heq
    rcases (contains_brink v).mp hv with rfl | rfl
    · show Width.interior.Fits 0
      decide
    · exact absurd heq (by decide)
  have hupper : x.upperBound brink = 0 := by
    subst hx
    decide
  refine ⟨hnext _ 0 (Or.inr ⟨(htakes 0).mpr (Or.inl rfl), by decide, fun w hw hlt => ?_⟩)
    (Or.inr hshelters), fun k => ?_⟩
  · rcases (htakes w).mp hw with rfl | rfl
    · exact Int.le_refl 0
    · exact absurd hlt (by decide)
  · rw [(hvalues (Or.inr (Or.inr (hupper ▸ hshelters)))).1 k, htakes]
    exact Iff.rfl

/-- Under the map `v ↦ v - 1` the values 0 and `maxValue` have the images -1 and `maxValue - 1`, but
    the next one above -1 is said to be missing, and `maxValue` is listed in its place. -/
theorem reading_misses_greatest :
    brink.Reachable ∧ ∃ x : IntVar, x = .view (.plain ⟨0⟩) ⟨1, -1, by decide⟩
      ∧ x.Ranges Width.value brink ∧ (∀ k, x.Takes brink k ↔ k = -1 ∨ k = maxValue - 1)
      ∧ x.nextValue brink (-1) = maxValue ∧ ¬ IsNext (x.Takes brink) (-1) maxValue
      ∧ x.values brink = [-1, maxValue] ∧ ¬ x.Takes brink maxValue := by
  have htakes := takes_brink ⟨1, -1, by decide⟩
  have hmissing : ¬ (IntVar.view (.plain ⟨0⟩) ⟨1, -1, by decide⟩).Takes brink maxValue := by
    rw [htakes]
    decide
  refine ⟨brink_reachable, _, rfl, ranges_brink (by decide) (by decide), htakes, by decide, ?_,
    by decide, hmissing⟩
  rintro (⟨-, hnone⟩ | ⟨htaken, -⟩)
  · exact hnone (maxValue - 1) ((htakes _).mpr (Or.inr rfl)) (by decide)
  · exact hmissing htaken

end Store

end FiniteDomain
