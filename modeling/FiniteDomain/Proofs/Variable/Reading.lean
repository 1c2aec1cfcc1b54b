import FiniteDomain.Proofs.Domain.Integer.Values
import FiniteDomain.Proofs.Variable
import Mathlib.Data.Finset.Max

/-! # Reading views

    `x.Takes s k` says that `k` is the value of `x` for some value of the variable
    below it.  Where the images of all values stay in the range of values, the
    bounds of `x` are the least and the greatest number that it takes, and it is
    fixed if the variable below is.

    A view asks the variable below for a neighbour and takes an answer at an end of
    the range for "there is none".  So a neighbour is found unless it is the image
    of a value that is not sheltered (`finds`), and where no value is an end of the
    range `values` lists what is taken in ascending order. -/

namespace FiniteDomain.IntVar

open IntegerDomain (IsNext IsPrevious Finds)

variable {x inner : IntVar} {map : AffineMap} {s : Store} {k n v : Int}

/-- The variable has the value `k` for some value of the variable of the store below. -/
def Takes (x : IntVar) (s : Store) (k : Int) : Prop :=
  ∃ v, (s.int x.base).contains v = true ∧ x.image v = k

theorem takes_image (hv : (s.int x.base).contains v = true) : x.Takes s (x.image v) :=
  ⟨v, hv, rfl⟩

theorem takes_view : (view inner map).Takes s k ↔ ∃ u, inner.Takes s u ∧ map.image u = k := by
  constructor
  · rintro ⟨v, hv, rfl⟩
    exact ⟨inner.image v, takes_image hv, rfl⟩
  · rintro ⟨_, ⟨v, hv, rfl⟩, rfl⟩
    exact ⟨v, hv, rfl⟩

theorem Ranges.fits {width : Width} (hx : x.Ranges width s) (hk : x.Takes s k) :
    width.Fits k := by
  obtain ⟨v, hv, rfl⟩ := hk
  exact (hx v hv).fits

/-- The values can be read, and they stay clear of the ends of the range. -/
structure Clear (x : IntVar) (s : Store) : Prop where
  /-- The values of the variable and of those below it lie in the range. -/
  ranges : x.Ranges Width.value s
  /-- None of its own is an end of the range. -/
  inside : ∀ k, x.Takes s k → Width.interior.Fits k

theorem Ranges.clear (hx : x.Ranges Width.interior s) : x.Clear s :=
  ⟨hx.mono fun _ => Width.fits_of_interior, fun _ hk => hx.fits hk⟩

/-- An admitted valuation gives the variable one of its values. -/
theorem takes_exactValue {a : Valuation} (ha : s.Admits a) (x : IntVar) :
    x.Takes s (x.exactValue a.int) :=
  ⟨a.int x.base, ha.int x.base, (exactValue_eq a.int x).symm⟩

/-! ### Bounds -/

/-- The bounds are the images of the bounds below, which change places if the order is
    reversed. -/
theorem bounds_eq (hs : s.Wf) (hx : x.Ranges Width.value s) :
    x.lowerBound s = x.image (if x.reverses then (s.int x.base).upper else (s.int x.base).lower)
      ∧ x.upperBound s
        = x.image (if x.reverses then (s.int x.base).lower else (s.int x.base).upper) := by
  induction x with
  | plain y => exact ⟨rfl, rfl⟩
  | view inner map ih =>
    obtain ⟨ihlower, ihupper⟩ := ih hx.inner
    -- nothing saturates, so that showing is taking the image
    have hfits : ∀ v, (s.int inner.base).contains v = true →
        map.apply (inner.image v) = map.image (inner.image v) := by
      intro v hv
      exact Width.clamp_of_fits (hx v hv).2
    have hlower := hfits _ (hs.int inner.base).lower_mem
    have hupper := hfits _ (hs.int inner.base).upper_mem
    show map.apply (if map.reverses then inner.upperBound s else inner.lowerBound s)
        = map.image (inner.image (if inner.reverses ^^ map.reverses then _ else _))
      ∧ map.apply (if map.reverses then inner.lowerBound s else inner.upperBound s)
        = map.image (inner.image (if inner.reverses ^^ map.reverses then _ else _))
    rw [ihlower, ihupper]
    cases map.reverses <;> cases inner.reverses
    · exact ⟨hlower, hupper⟩
    · exact ⟨hupper, hlower⟩
    · exact ⟨hupper, hlower⟩
    · exact ⟨hlower, hupper⟩

theorem lowerBound_le (hs : s.Wf) (hx : x.Ranges Width.value s) (hk : x.Takes s k) :
    x.lowerBound s ≤ k := by
  obtain ⟨v, hv, rfl⟩ := hk
  obtain ⟨hlower, hupper, -⟩ := IntegerDomain.contains_iff.mp hv
  rw [(bounds_eq hs hx).1]
  cases hr : x.reverses with
  | false => exact (image_le_image hr).mpr hlower
  | true => exact (image_le_image_of_reverses hr).mpr hupper

theorem le_upperBound (hs : s.Wf) (hx : x.Ranges Width.value s) (hk : x.Takes s k) :
    k ≤ x.upperBound s := by
  obtain ⟨v, hv, rfl⟩ := hk
  obtain ⟨hlower, hupper, -⟩ := IntegerDomain.contains_iff.mp hv
  rw [(bounds_eq hs hx).2]
  cases hr : x.reverses with
  | false => exact (image_le_image hr).mpr hupper
  | true => exact (image_le_image_of_reverses hr).mpr hlower

theorem takes_lowerBound (hs : s.Wf) (hx : x.Ranges Width.value s) :
    x.Takes s (x.lowerBound s) := by
  rw [(bounds_eq hs hx).1]
  cases x.reverses with
  | false => exact takes_image (hs.int x.base).lower_mem
  | true => exact takes_image (hs.int x.base).upper_mem

theorem takes_upperBound (hs : s.Wf) (hx : x.Ranges Width.value s) :
    x.Takes s (x.upperBound s) := by
  rw [(bounds_eq hs hx).2]
  cases x.reverses with
  | false => exact takes_image (hs.int x.base).upper_mem
  | true => exact takes_image (hs.int x.base).lower_mem

/-- The bounds are in order, saturated or not. -/
theorem lowerBound_le_upperBound (hs : s.Wf) (x : IntVar) : x.lowerBound s ≤ x.upperBound s := by
  induction x with
  | plain y => exact (IntegerDomain.contains_iff.mp (hs.int y).lower_mem).2.1
  | view inner map ih =>
    show map.apply (if map.reverses then inner.upperBound s else inner.lowerBound s)
      ≤ map.apply (if map.reverses then inner.lowerBound s else inner.upperBound s)
    cases hr : map.reverses with
    | false => exact AffineMap.apply_mono hr ih
    | true => exact AffineMap.apply_mono_of_reverses hr ih

/-- A variable is fixed if the variable of the store below is. -/
theorem isFixed_eq (hs : s.Wf) (hx : x.Ranges Width.value s) :
    x.isFixed s = (s.int x.base).isFixed := by
  obtain ⟨hlower, hupper⟩ := bounds_eq hs hx
  rw [Bool.eq_iff_iff]
  unfold isFixed IntegerDomain.isFixed
  rw [hlower, hupper, beq_iff_eq, beq_iff_eq]
  constructor
  · intro h
    have hends := image_injective h
    cases hr : x.reverses with
    | false => simpa [hr] using hends
    | true => simpa [hr] using hends.symm
  · intro h
    rw [h, ite_self]

/-- A fixed variable takes its lower bound alone. -/
theorem eq_lowerBound_of_isFixed (hs : s.Wf) (hx : x.Ranges Width.value s)
    (hfixed : x.isFixed s = true) (hk : x.Takes s k) : k = x.lowerBound s := by
  have hlower := lowerBound_le hs hx hk
  have hupper := le_upperBound hs hx hk
  unfold isFixed at hfixed
  rw [beq_iff_eq] at hfixed
  omega

/-! ### Membership -/

theorem contains_iff (hx : x.Ranges Width.value s) : x.contains s k = true ↔ x.Takes s k := by
  induction x generalizing k with
  | plain y =>
    constructor
    · intro h
      exact ⟨k, h, rfl⟩
    · rintro ⟨v, hv, rfl⟩
      exact hv
  | view inner map ih =>
    rw [takes_view]
    unfold contains
    rw [Option.any_eq_true]
    constructor
    · rintro ⟨u, hu, hcontains⟩
      exact ⟨u, (ih hx.inner).mp hcontains, (AffineMap.preimage?_eq_some.mp hu).1⟩
    · rintro ⟨u, hu, rfl⟩
      exact ⟨u, AffineMap.preimage?_eq_some.mpr ⟨rfl, hx.inner.fits hu⟩, (ih hx.inner).mpr hu⟩

/-! ### Neighbours -/

theorem le_clamp_iff {u p : Int} (hu : Width.interior.Fits u) :
    u ≤ Width.value.clamp p ↔ u ≤ p := by
  have hleast : Width.value.least + 1 ≤ u := hu.1
  have hgreatest : u ≤ Width.value.greatest - 1 := hu.2
  unfold Width.clamp
  omega

theorem clamp_le_iff {u p : Int} (hu : Width.interior.Fits u) :
    Width.value.clamp p ≤ u ↔ p ≤ u := by
  have hleast : Width.value.least + 1 ≤ u := hu.1
  have hgreatest : u ≤ Width.value.greatest - 1 := hu.2
  unfold Width.clamp
  omega

/-- What lies beyond a saturated number lies beyond the number; inside the range also conversely. -/
theorem lt_of_clamp_lt {u p : Int} (hu : Width.value.Fits u) (h : Width.value.clamp p < u) :
    p < u := by
  rw [← Int.not_le] at h ⊢
  exact fun hle => h ((Width.le_clamp_iff hu).mpr (Or.inl hle))

theorem lt_of_lt_clamp {u p : Int} (hu : Width.value.Fits u) (h : u < Width.value.clamp p) :
    u < p := by
  rw [← Int.not_le] at h ⊢
  exact fun hle => h ((Width.clamp_le_iff hu).mpr (Or.inl hle))

theorem clamp_lt {u p : Int} (hu : Width.interior.Fits u) (h : p < u) :
    Width.value.clamp p < u := by
  rwa [← Int.not_le, le_clamp_iff hu, Int.not_le]

theorem lt_clamp {u p : Int} (hu : Width.interior.Fits u) (h : u < p) :
    u < Width.value.clamp p := by
  rwa [← Int.not_le, clamp_le_iff hu, Int.not_le]

theorem ne_ends {u : Int} (hu : Width.interior.Fits u) : ¬ (u = maxValue ∨ u = minValue) := by
  have hleast : minValue + 1 ≤ u := hu.1
  have hgreatest : u ≤ maxValue - 1 := hu.2
  omega

theorem nextValue_view (inner : IntVar) (map : AffineMap) (s : Store) (k : Int) :
    (view inner map).nextValue s k
      = (fun n => if n = maxValue ∨ n = minValue then maxValue else map.apply n)
        (if map.reverses then inner.previousValue s (Width.value.clamp (map.pullUp k))
          else inner.nextValue s (Width.value.clamp (map.pullDown k))) := rfl

theorem previousValue_view (inner : IntVar) (map : AffineMap) (s : Store) (k : Int) :
    (view inner map).previousValue s k
      = (fun n => if n = maxValue ∨ n = minValue then minValue else map.apply n)
        (if map.reverses then inner.nextValue s (Width.value.clamp (map.pullDown k))
          else inner.previousValue s (Width.value.clamp (map.pullUp k))) := rfl

/-! ### Sheltered values -/

/-- None of the values that the views of the variable are images of is an end of the range when the
    variable of the store below has the value `v`. -/
def Sheltered : IntVar → Int → Prop
  | .plain _, _ => True
  | .view inner _, v => inner.Within Width.interior v

/-- A number that is taken is not the image of a value that is not sheltered. -/
def Shelters (x : IntVar) (s : Store) (k : Int) : Prop :=
  ∀ v, (s.int x.base).contains v = true → x.image v = k → x.Sheltered v

/-- A view shelters what comes from below if this is sheltered and no end of the range. -/
theorem within_interior_iff (x : IntVar) (v : Int) :
    x.Within Width.interior v ↔ x.Sheltered v ∧ Width.interior.Fits (x.image v) := by
  cases x with
  | plain y => exact (and_iff_right trivial).symm
  | view inner map => exact Iff.rfl

theorem Shelters.below {u : Int} (h : (view inner map).Shelters s (map.image u))
    (hu : inner.Takes s u) : inner.Shelters s u ∧ Width.interior.Fits u := by
  have hwithin : ∀ v, (s.int inner.base).contains v = true → inner.image v = u →
      inner.Within Width.interior v :=
    fun v hv heq => h v hv (congrArg map.image heq)
  obtain ⟨v, hv, rfl⟩ := hu
  exact ⟨fun w hw heq => ((within_interior_iff inner w).mp (hwithin w hw heq)).1, (hwithin v hv rfl).fits⟩

/-! ### Finding neighbours -/

/-- The neighbours of a number are found where they are sheltered, and there is never another
    answer than a number that is taken, on the right side, or the end. -/
theorem finds (hs : s.Wf) (hx : x.Ranges Width.value s) (k : Int) :
    Finds (x.Takes s) (x.Shelters s) (k < ·) (· ≤ ·) maxValue (x.nextValue s k)
      ∧ Finds (x.Takes s) (x.Shelters s) (· < k) (fun n v => v ≤ n) minValue
        (x.previousValue s k) := by
  induction x generalizing k with
  | plain y =>
    have htakes : (plain y).Takes s = fun w => (s.int y).contains w = true := by
      funext w
      refine propext ⟨?_, fun hw => ⟨w, hw, rfl⟩⟩
      rintro ⟨v, hv, rfl⟩
      exact hv
    rw [htakes]
    exact ⟨(IntegerDomain.isNext_nextValue (hs.int y) k).finds fun _ _ => Int.le_antisymm,
      (IntegerDomain.isPrevious_previousValue (hs.int y) k).finds
        fun _ _ h h' => Int.le_antisymm h' h⟩
  | view inner map ih =>
    have hinner := hx.inner
    have htakes : (view inner map).Takes s = fun w => ∃ u, inner.Takes s u ∧ map.image u = w := by
      funext w
      exact propext takes_view
    have himage : ∀ u, inner.Takes s u → map.apply u = map.image u := fun u hu =>
      Width.clamp_of_fits (hx.fits (takes_view.mpr ⟨u, hu, rfl⟩))
    have hclear : ∀ u, inner.Takes s u → (view inner map).Shelters s (map.image u) →
        inner.Shelters s u ∧ ¬ (u = maxValue ∨ u = minValue) := fun u hu h =>
      ⟨(h.below hu).1, ne_ends (h.below hu).2⟩
    have hnext := (ih hinner (Width.value.clamp (map.pullDown k))).1
    have hprevious := (ih hinner (Width.value.clamp (map.pullUp k))).2
    rw [htakes, nextValue_view, previousValue_view]
    cases hr : map.reverses with
    | false =>
      exact ⟨hnext.map (Or.inl rfl) himage hclear
          (fun u hu h => (AffineMap.pullDown_lt hr).mp (lt_of_clamp_lt (hinner.fits hu) h))
          (fun u hu h h' => clamp_lt (h.below hu).2 ((AffineMap.pullDown_lt hr).mpr h'))
          fun u w => (AffineMap.image_le_image hr).mp,
        hprevious.map (Or.inr rfl) himage hclear
          (fun u hu h => (AffineMap.lt_pullUp hr).mp (lt_of_lt_clamp (hinner.fits hu) h))
          (fun u hu h h' => lt_clamp (h.below hu).2 ((AffineMap.lt_pullUp hr).mpr h'))
          fun u w => (AffineMap.image_le_image hr).mp⟩
    | true =>
      -- the order is turned round: above `k` are the images of what is below its preimage
      exact ⟨hprevious.map (Or.inr rfl) himage hclear
          (fun u hu h => (AffineMap.lt_pullUp_of_reverses hr).mp
            (lt_of_lt_clamp (hinner.fits hu) h))
          (fun u hu h h' => lt_clamp (h.below hu).2
            ((AffineMap.lt_pullUp_of_reverses hr).mpr h'))
          fun u w => (AffineMap.image_le_image_of_reverses hr).mp,
        hnext.map (Or.inl rfl) himage hclear
          (fun u hu h => (AffineMap.pullDown_lt_of_reverses hr).mp
            (lt_of_clamp_lt (hinner.fits hu) h))
          (fun u hu h h' => clamp_lt (h.below hu).2
            ((AffineMap.pullDown_lt_of_reverses hr).mpr h'))
          fun u w => (AffineMap.image_le_image_of_reverses hr).mp⟩

/-- The answer "there is none" at the end of the range is no different from a value there, and any
    other value is told from it where it is sheltered. -/
def Readable (x : IntVar) (s : Store) (ending k : Int) : Prop := k = ending ∨ x.Shelters s k

/-- There is a nearest number among those that are taken on one side of a number. -/
theorem exists_nearest (x : IntVar) (s : Store) (k : Int) :
    (∃ n, IsNext (x.Takes s) k n) ∧ ∃ n, IsPrevious (x.Takes s) k n := by
  have hmem : ∀ n, n ∈ (s.int x.base).valueSet.image x.image ↔ x.Takes s n := by
    intro n
    rw [Finset.mem_image]
    simp only [IntegerDomain.mem_valueSet]
    rfl
  constructor
  · by_cases hsome : ∃ m, x.Takes s m ∧ k < m
    · obtain ⟨m, hm, hlt⟩ := hsome
      obtain ⟨n, hn, hleast⟩ := (((s.int x.base).valueSet.image x.image).filter (k < ·)).exists_min_image
        id ⟨m, Finset.mem_filter.mpr ⟨(hmem m).mpr hm, hlt⟩⟩
      obtain ⟨htaken, hgt⟩ := Finset.mem_filter.mp hn
      exact ⟨n, Or.inr ⟨(hmem n).mp htaken, hgt, fun w hw hw' =>
        hleast w (Finset.mem_filter.mpr ⟨(hmem w).mpr hw, hw'⟩)⟩⟩
    · exact ⟨maxValue, Or.inl ⟨rfl, fun v hv hlt => hsome ⟨v, hv, hlt⟩⟩⟩
  · by_cases hsome : ∃ m, x.Takes s m ∧ m < k
    · obtain ⟨m, hm, hlt⟩ := hsome
      obtain ⟨n, hn, hgreatest⟩ := (((s.int x.base).valueSet.image x.image).filter (· < k)).exists_max_image
        id ⟨m, Finset.mem_filter.mpr ⟨(hmem m).mpr hm, hlt⟩⟩
      obtain ⟨htaken, hgt⟩ := Finset.mem_filter.mp hn
      exact ⟨n, Or.inr ⟨(hmem n).mp htaken, hgt, fun w hw hw' =>
        hgreatest w (Finset.mem_filter.mpr ⟨(hmem w).mpr hw, hw'⟩)⟩⟩
    · exact ⟨minValue, Or.inl ⟨rfl, fun v hv hlt => hsome ⟨v, hv, hlt⟩⟩⟩

/-- The next number is found if it can be read. -/
theorem nextValue_of_readable (hs : s.Wf) (hx : x.Ranges Width.value s)
    (hn : IsNext (x.Takes s) k n) (hread : x.Readable s maxValue n) : x.nextValue s k = n := by
  obtain ⟨honest, hnearest⟩ := (finds hs hx k).1
  rcases hn with ⟨rfl, hnone⟩ | ⟨htaken, hgt, hleast⟩
  · exact honest.resolve_right fun h => hnone _ h.1 h.2
  rcases hread with rfl | hclear
  · refine honest.elim id fun h => Int.le_antisymm (hx.fits h.1).2 (hleast _ h.1 h.2)
  · exact hnearest n htaken hgt hleast hclear

/-- The previous number is found if it can be read. -/
theorem previousValue_of_readable (hs : s.Wf) (hx : x.Ranges Width.value s)
    (hn : IsPrevious (x.Takes s) k n) (hread : x.Readable s minValue n) :
    x.previousValue s k = n := by
  obtain ⟨honest, hnearest⟩ := (finds hs hx k).2
  rcases hn with ⟨rfl, hnone⟩ | ⟨htaken, hlt, hgreatest⟩
  · exact honest.resolve_right fun h => hnone _ h.1 h.2
  rcases hread with rfl | hclear
  · refine honest.elim id fun h => Int.le_antisymm (hgreatest _ h.1 h.2) (hx.fits h.1).1
  · exact hnearest n htaken hlt hgreatest hclear

/-- The neighbours of a number are found where everything is sheltered. -/
theorem nearest_of_shelters (hs : s.Wf) (hx : x.Ranges Width.value s)
    (hshelters : ∀ n, x.Shelters s n) (k : Int) :
    IsNext (x.Takes s) k (x.nextValue s k) ∧ IsPrevious (x.Takes s) k (x.previousValue s k) := by
  obtain ⟨⟨next, hnext⟩, previous, hprevious⟩ := exists_nearest x s k
  rw [nextValue_of_readable hs hx hnext (Or.inr (hshelters next)),
    previousValue_of_readable hs hx hprevious (Or.inr (hshelters previous))]
  exact ⟨hnext, hprevious⟩

theorem Ranges.shelters (hx : x.Ranges Width.interior s) (n : Int) : x.Shelters s n :=
  fun v hv _ => ((within_interior_iff x v).mp (hx v hv)).1

/-- The neighbours of a number among values that are no ends of the range. -/
theorem isNext_and_isPrevious (hs : s.Wf) (hx : x.Ranges Width.interior s) (k : Int) :
    IsNext (x.Takes s) k (x.nextValue s k) ∧ IsPrevious (x.Takes s) k (x.previousValue s k) :=
  nearest_of_shelters hs (hx.mono fun _ => Width.fits_of_interior) hx.shelters k

/-! ### Saturated views -/

theorem Ranges.base {width : Width} (h : x.Ranges width s) : (plain x.base).Ranges width s := by
  induction x with
  | plain y => exact h
  | view inner map ih => exact ih h.inner

/-- Bounds are in the range of values, saturated or not. -/
theorem fits_bounds (hs : s.Wf) (hbase : (plain x.base).Ranges Width.value s) :
    Width.value.Fits (x.lowerBound s) ∧ Width.value.Fits (x.upperBound s) := by
  cases x with
  | plain y => exact ⟨hbase _ (hs.int y).lower_mem, hbase _ (hs.int y).upper_mem⟩
  | view inner map => exact ⟨Width.fits_clamp _ (by decide), Width.fits_clamp _ (by decide)⟩

/-- The neighbours of a number are in the range of values, and unless there is none the next one is
    greater and the previous one less, even where images are saturated. -/
theorem neighbours_saturated (hs : s.Wf) (hbase : (plain x.base).Ranges Width.value s) (k : Int) :
    (Width.value.Fits (x.nextValue s k) ∧ (k < x.nextValue s k ∨ x.nextValue s k = maxValue))
      ∧ Width.value.Fits (x.previousValue s k)
        ∧ (x.previousValue s k < k ∨ x.previousValue s k = minValue) := by
  have hends : Width.value.Fits maxValue ∧ Width.value.Fits minValue := by decide
  induction x generalizing k with
  | plain y =>
    constructor
    · change Width.value.Fits ((s.int y).nextValue k) ∧ _
      rcases IntegerDomain.isNext_nextValue (hs.int y) k with ⟨hnone, -⟩ | ⟨hin, hgt, -⟩
      · exact ⟨hnone ▸ hends.1, Or.inr hnone⟩
      · exact ⟨hbase _ hin, Or.inl hgt⟩
    · change Width.value.Fits ((s.int y).previousValue k) ∧ _
      rcases IntegerDomain.isPrevious_previousValue (hs.int y) k with ⟨hnone, -⟩ | ⟨hin, hlt, -⟩
      · exact ⟨hnone ▸ hends.2, Or.inr hnone⟩
      · exact ⟨hbase _ hin, Or.inl hlt⟩
  | view inner map ih =>
    have hle : Width.value.least ≤ Width.value.greatest := by decide
    -- an image above `k` stays above it when it is saturated, or is the greatest value
    have habove : ∀ {n : Int}, (¬ (n = maxValue ∨ n = minValue) → k < map.image n) →
        Width.value.Fits (if n = maxValue ∨ n = minValue then maxValue else map.apply n)
          ∧ (k < (if n = maxValue ∨ n = minValue then maxValue else map.apply n)
            ∨ (if n = maxValue ∨ n = minValue then maxValue else map.apply n) = maxValue) := by
      intro n hn
      split
      next => exact ⟨hends.1, Or.inr rfl⟩
      next hend =>
        have hgt := hn hend
        refine ⟨Width.fits_clamp _ hle, ?_⟩
        unfold AffineMap.apply Width.clamp maxValue
        omega
    have hbelow : ∀ {n : Int}, (¬ (n = maxValue ∨ n = minValue) → map.image n < k) →
        Width.value.Fits (if n = maxValue ∨ n = minValue then minValue else map.apply n)
          ∧ ((if n = maxValue ∨ n = minValue then minValue else map.apply n) < k
            ∨ (if n = maxValue ∨ n = minValue then minValue else map.apply n) = minValue) := by
      intro n hn
      split
      next => exact ⟨hends.2, Or.inr rfl⟩
      next hend =>
        have hlt := hn hend
        refine ⟨Width.fits_clamp _ hle, ?_⟩
        unfold AffineMap.apply Width.clamp minValue
        omega
    obtain ⟨⟨hfitsNext, hgt⟩, -⟩ := ih hbase (Width.value.clamp (map.pullDown k))
    obtain ⟨-, hfitsPrevious, hlt⟩ := ih hbase (Width.value.clamp (map.pullUp k))
    -- an answer from below that is no end lies beyond the number that was pulled back
    have hnext := fun hne => lt_of_clamp_lt hfitsNext (hgt.resolve_right hne)
    have hprevious := fun hne => lt_of_lt_clamp hfitsPrevious (hlt.resolve_right hne)
    rw [nextValue_view, previousValue_view]
    cases hr : map.reverses with
    | false =>
      exact ⟨habove fun hend => (AffineMap.pullDown_lt hr).mp (hnext fun h => hend (Or.inl h)),
        hbelow fun hend => (AffineMap.lt_pullUp hr).mp (hprevious fun h => hend (Or.inr h))⟩
    | true =>
      exact ⟨habove fun hend =>
          (AffineMap.lt_pullUp_of_reverses hr).mp (hprevious fun h => hend (Or.inr h)),
        hbelow fun hend =>
          (AffineMap.pullDown_lt_of_reverses hr).mp (hnext fun h => hend (Or.inl h))⟩

/-! ### All values -/

theorem climbs (hs : s.Wf) (hx : x.Ranges Width.value s) (hshelters : ∀ n, x.Shelters s n) :
    IntegerDomain.Climbs (x.Takes s) (x.nextValue s) (x.upperBound s) := by
  intro v hv hlt
  rcases (nearest_of_shelters hs hx hshelters v).1 with ⟨-, hnone⟩ | hnext
  · exact absurd hlt (hnone _ (takes_upperBound hs hx))
  · exact hnext

/-- The list of values is as long as the distance of the bounds allows. -/
theorem span_bounds (hs : s.Wf) (hbase : (plain x.base).Ranges Width.value s) :
    (x.upperBound s - x.lowerBound s).toNat
      < IntegerDomain.span (x.lowerBound s) (x.upperBound s) + 1 := by
  obtain ⟨⟨hleast, -⟩, -, hgreatest⟩ := fits_bounds hs hbase
  have hle := lowerBound_le_upperBound hs x
  simp only [Width.value] at hleast hgreatest
  unfold IntegerDomain.span
  rw [Int.emod_eq_of_lt (by omega) (by omega)]
  omega

/-- The list of values ends by itself: it would not get longer if it was allowed to. -/
theorem firstValues_add (hs : s.Wf) (hbase : (plain x.base).Ranges Width.value s) (extra : Nat) :
    x.firstValues s (IntegerDomain.span (x.lowerBound s) (x.upperBound s) + 1 + extra)
      = x.values s := by
  refine IntegerDomain.ascend_add (fun v hv => ?_) (span_bounds hs hbase) extra
  obtain ⟨-, -, hgreatest⟩ := fits_bounds hs hbase
  change x.upperBound s ≤ maxValue at hgreatest
  rcases (neighbours_saturated hs hbase v).1.2 with hgt | hnone
  · exact hgt
  · omega

/-- Where everything is sheltered the list has the values that are taken, in ascending order. -/
theorem values_of_shelters (hs : s.Wf) (hx : x.Ranges Width.value s)
    (hshelters : ∀ n, x.Shelters s n) :
    (∀ k, k ∈ x.values s ↔ x.Takes s k) ∧ (x.values s).Pairwise (· < ·) := by
  have hclimbs := climbs hs hx hshelters
  have hlower := takes_lowerBound hs hx
  refine ⟨fun k => ⟨fun hk => ?_, fun hk => ?_⟩, IntegerDomain.pairwise_ascend hclimbs _ hlower⟩
  · exact (IntegerDomain.member_of_mem_ascend hclimbs _ hlower hk).1
  · exact IntegerDomain.mem_ascend hclimbs hlower (span_bounds hs hx.base) hk
      (lowerBound_le hs hx hk) (le_upperBound hs hx hk)

theorem mem_values (hs : s.Wf) (hx : x.Ranges Width.interior s) :
    k ∈ x.values s ↔ x.Takes s k :=
  (values_of_shelters hs (hx.mono fun _ => Width.fits_of_interior) hx.shelters).1 k

theorem pairwise_values (hs : s.Wf) (hx : x.Ranges Width.interior s) :
    (x.values s).Pairwise (· < ·) :=
  (values_of_shelters hs (hx.mono fun _ => Width.fits_of_interior) hx.shelters).2

theorem nodup_values (hs : s.Wf) (hx : x.Ranges Width.interior s) : (x.values s).Nodup :=
  (pairwise_values hs hx).imp Int.ne_of_lt

theorem length_values (hs : s.Wf) (hx : x.Ranges Width.interior s) :
    (x.values s).length = x.size s := by
  have himage : (x.values s).toFinset = (s.int x.base).valueSet.image x.image := by
    ext k
    rw [List.mem_toFinset, mem_values hs hx, Finset.mem_image]
    simp only [IntegerDomain.mem_valueSet]
    rfl
  rw [← List.toFinset_card_of_nodup (nodup_values hs hx), himage,
    Finset.card_image_of_injective _ fun v w => image_injective]
  exact (hs.int x.base).size_eq.symm

/-- There is a value at every position below the size. -/
theorem valueAt?_eq_some (hs : s.Wf) (hx : x.Ranges Width.interior s) {i : Nat}
    (hi : i < x.size s) : ∃ k, x.valueAt? s i = some k ∧ x.Takes s k := by
  rw [← length_values hs hx] at hi
  have hle : (x.values s).length ≤ IntegerDomain.span (x.lowerBound s) (x.upperBound s) + 1 :=
    IntegerDomain.length_ascend_le _ _ _ _
  obtain ⟨extra, hextra⟩ := Nat.exists_eq_add_of_le (Nat.le_trans hi hle)
  have htake : (x.values s).take (i + 1) = x.firstValues s (i + 1) := by
    unfold values firstValues
    rw [hextra]
    exact IntegerDomain.take_ascend _ _ _ _ _
  refine ⟨(x.values s)[i], ?_, (mem_values hs hx).mp (List.getElem_mem hi)⟩
  rw [valueAt?_eq, ← htake, List.getElem?_take_of_lt (Nat.lt_succ_self i)]
  exact List.getElem?_eq_getElem hi

end FiniteDomain.IntVar
