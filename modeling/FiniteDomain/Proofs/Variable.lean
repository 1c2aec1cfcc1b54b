import FiniteDomain.Variable
import FiniteDomain.Proofs.Store.Step
import Mathlib.Algebra.Order.Ring.Int

/-! # Views as affine images

    A view is an affine image of the variable of the store below it, and a chain
    of views is one as well: `IntVar.image x v` is the exact value of `x` when the
    variable below has the value `v`.

    A number is pulled back through a map by a rounded division.  The lemmas on
    `AffineMap.pullUp` and `AffineMap.pullDown` say that this is adjoint to the
    image, with the order turned round when the scale is negative.

    `IntVar.Within w x v` says that none of the images between `v` and the value
    of `x` leaves the width `w`.  As long as that is so, reading a view shows the
    images of the values below it. -/

namespace FiniteDomain

/-! ### Rounded quotients -/

theorem le_divFloor_iff_of_pos {n d v : Int} (hd : 0 < d) : v ≤ divFloor n d ↔ v * d ≤ n := by
  unfold divFloor
  rw [Int.fdiv_eq_ediv_of_nonneg n (Int.le_of_lt hd)]
  exact Int.le_ediv_iff_mul_le hd

theorem le_divFloor_iff_of_neg {n d v : Int} (hd : d < 0) : v ≤ divFloor n d ↔ n ≤ v * d := by
  have hflip : divFloor n d = divFloor (-n) (-d) := by
    unfold divFloor
    rw [Int.neg_fdiv_neg]
  rw [hflip, le_divFloor_iff_of_pos (by omega), Int.mul_neg]
  omega

theorem divCeil_le_iff_of_pos {n d v : Int} (hd : 0 < d) : divCeil n d ≤ v ↔ n ≤ v * d := by
  have h := le_divFloor_iff_of_pos (n := -n) (v := -v) hd
  rw [Int.neg_mul] at h
  unfold divCeil
  unfold divFloor at h
  omega

theorem divCeil_le_iff_of_neg {n d v : Int} (hd : d < 0) : divCeil n d ≤ v ↔ v * d ≤ n := by
  have h := le_divFloor_iff_of_neg (n := -n) (v := -v) hd
  rw [Int.neg_mul] at h
  unfold divCeil
  unfold divFloor at h
  omega

/-- Saturation keeps the order. -/
theorem Width.clamp_mono {width : Width} {v w : Int} (h : v ≤ w) :
    width.clamp v ≤ width.clamp w := by
  unfold clamp
  omega

theorem Width.fits_clamp {width : Width} (n : Int) (h : width.least ≤ width.greatest) :
    width.Fits (width.clamp n) := by
  unfold Fits clamp
  omega

/-- A lower end that saturates also admits the greatest value. -/
theorem Width.clamp_le_iff {n v : Int} (hv : Width.value.Fits v) :
    Width.value.clamp n ≤ v ↔ n ≤ v ∨ v = maxValue := by
  have hleast : Width.value.least ≤ v := hv.1
  have hgreatest : v ≤ Width.value.greatest := hv.2
  show max Width.value.least (min n Width.value.greatest) ≤ v ↔ n ≤ v ∨ v = Width.value.greatest
  omega

/-- An upper end that saturates also admits the least value. -/
theorem Width.le_clamp_iff {n v : Int} (hv : Width.value.Fits v) :
    v ≤ Width.value.clamp n ↔ v ≤ n ∨ v = minValue := by
  have hleast : Width.value.least ≤ v := hv.1
  have hgreatest : v ≤ Width.value.greatest := hv.2
  show v ≤ max Width.value.least (min n Width.value.greatest) ↔ v ≤ n ∨ v = Width.value.least
  omega

/-! ### Affine maps -/

namespace AffineMap

variable {m : AffineMap} {k v w : Int}

theorem neg_one_ne_zero : (-1 : Int) ≠ 0 := by decide

theorem two_ne_zero : (2 : Int) ≠ 0 := by decide

theorem reverses_eq_true : m.reverses = true ↔ m.scale < 0 := by simp [reverses]

theorem reverses_eq_false : m.reverses = false ↔ 0 < m.scale := by
  have hne := m.scale_ne_zero
  simp only [reverses, decide_eq_false_iff_not]
  omega

theorem image_le_image (h : m.reverses = false) : m.image v ≤ m.image w ↔ v ≤ w := by
  have hpos := reverses_eq_false.mp h
  unfold image
  rw [Int.add_le_add_iff_right]
  exact Int.mul_le_mul_left hpos

theorem image_le_image_of_reverses (h : m.reverses = true) :
    m.image v ≤ m.image w ↔ w ≤ v := by
  have hneg := reverses_eq_true.mp h
  unfold image
  rw [Int.add_le_add_iff_right]
  exact Int.mul_le_mul_left_of_neg hneg

theorem image_injective (h : m.image v = m.image w) : v = w := by
  unfold image at h
  exact Int.eq_of_mul_eq_mul_left m.scale_ne_zero (by omega)

theorem apply_mono (h : m.reverses = false) (hle : v ≤ w) : m.apply v ≤ m.apply w :=
  Width.clamp_mono ((image_le_image h).mpr hle)

theorem apply_mono_of_reverses (h : m.reverses = true) (hle : v ≤ w) : m.apply w ≤ m.apply v :=
  Width.clamp_mono ((image_le_image_of_reverses h).mpr hle)

theorem pullUp_le (h : m.reverses = false) : m.pullUp k ≤ v ↔ k ≤ m.image v := by
  unfold pullUp image
  rw [divCeil_le_iff_of_pos (reverses_eq_false.mp h), Int.mul_comm]
  omega

theorem pullUp_le_of_reverses (h : m.reverses = true) : m.pullUp k ≤ v ↔ m.image v ≤ k := by
  unfold pullUp image
  rw [divCeil_le_iff_of_neg (reverses_eq_true.mp h), Int.mul_comm]
  omega

theorem le_pullDown (h : m.reverses = false) : v ≤ m.pullDown k ↔ m.image v ≤ k := by
  unfold pullDown image
  rw [le_divFloor_iff_of_pos (reverses_eq_false.mp h), Int.mul_comm]
  omega

theorem le_pullDown_of_reverses (h : m.reverses = true) : v ≤ m.pullDown k ↔ k ≤ m.image v := by
  unfold pullDown image
  rw [le_divFloor_iff_of_neg (reverses_eq_true.mp h), Int.mul_comm]
  omega

theorem lt_pullUp (h : m.reverses = false) : v < m.pullUp k ↔ m.image v < k := by
  rw [← Int.not_le, pullUp_le h, Int.not_le]

theorem lt_pullUp_of_reverses (h : m.reverses = true) : v < m.pullUp k ↔ k < m.image v := by
  rw [← Int.not_le, pullUp_le_of_reverses h, Int.not_le]

theorem pullDown_lt (h : m.reverses = false) : m.pullDown k < v ↔ k < m.image v := by
  rw [← Int.not_le, le_pullDown h, Int.not_le]

theorem pullDown_lt_of_reverses (h : m.reverses = true) : m.pullDown k < v ↔ m.image v < k := by
  rw [← Int.not_le, le_pullDown_of_reverses h, Int.not_le]

/-- The least value that is pulled back is a lower bound as good as the exact preimage. -/
theorem pullLower?_spec (hv : Width.value.Fits v) :
    (m.pullLower? k).elim False (· ≤ v) ↔ m.pullUp k ≤ v := by
  have hleast : minValue ≤ v := hv.1
  have hgreatest : v ≤ maxValue := hv.2
  unfold pullLower?
  simp only
  by_cases h : m.pullUp k ≤ maxValue
  · rw [if_pos h, Option.elim_some]
    omega
  · rw [if_neg h, Option.elim_none, false_iff]
    omega

/-- The greatest value that is pulled back is an upper bound as good as the exact preimage. -/
theorem pullUpper?_spec (hv : Width.value.Fits v) :
    (m.pullUpper? k).elim False (v ≤ ·) ↔ v ≤ m.pullDown k := by
  have hleast : minValue ≤ v := hv.1
  have hgreatest : v ≤ maxValue := hv.2
  unfold pullUpper?
  simp only
  by_cases h : minValue ≤ m.pullDown k
  · rw [if_pos h, Option.elim_some]
    omega
  · rw [if_neg h, Option.elim_none, false_iff]
    omega

theorem preimage?_eq_some : m.preimage? k = some v ↔ m.image v = k ∧ Width.value.Fits v := by
  have hne := m.scale_ne_zero
  unfold preimage? image
  constructor
  · intro h
    split at h
    next hdvd =>
      have hmul := Int.mul_tdiv_cancel_of_dvd (Int.dvd_of_emod_eq_zero hdvd)
      simp only at h
      split at h
      next hfits =>
        cases h
        exact ⟨by omega, hfits⟩
      next => cases h
    next => cases h
  · rintro ⟨rfl, hfits⟩
    have hsub : m.scale * v + m.offset - m.offset = m.scale * v := by omega
    simp only [hsub, Int.mul_emod_right, if_true, Int.mul_tdiv_cancel_left v hne, hfits]

end AffineMap

/-! ### Exact values -/

namespace IntVar

/-- The exact value of the variable when the variable of the store below has the value `v`. -/
def image : IntVar → Int → Int
  | .plain _, v => v
  | .view inner map, v => map.image (inner.image v)

/-- The variable falls when the variable of the store below rises. -/
def reverses : IntVar → Bool
  | .plain _ => false
  | .view inner map => inner.reverses ^^ map.reverses

/-- The exact value is the image of the value below. -/
theorem exactValue_eq (value : IntId → Int) (x : IntVar) :
    x.exactValue value = x.image (value x.base) := by
  induction x with
  | plain y => rfl
  | view inner map ih =>
    show map.image (inner.exactValue value) = map.image (inner.image (value inner.base))
    rw [ih]

variable {x : IntVar} {v w : Int}

theorem image_injective (h : x.image v = x.image w) : v = w := by
  induction x with
  | plain y => exact h
  | view inner map ih => exact ih (AffineMap.image_injective h)

theorem image_le_image_iff (x : IntVar) (v w : Int) :
    (x.reverses = false → (x.image v ≤ x.image w ↔ v ≤ w))
      ∧ (x.reverses = true → (x.image v ≤ x.image w ↔ w ≤ v)) := by
  induction x generalizing v w with
  | plain y =>
    refine ⟨fun _ => Iff.rfl, fun h => ?_⟩
    cases h
  | view inner map ih =>
    show ((inner.reverses ^^ map.reverses) = false → (map.image (inner.image v)
        ≤ map.image (inner.image w) ↔ v ≤ w)) ∧ ((inner.reverses ^^ map.reverses) = true →
        (map.image (inner.image v) ≤ map.image (inner.image w) ↔ w ≤ v))
    cases hm : map.reverses with
    | false =>
      rw [AffineMap.image_le_image hm, Bool.xor_false]
      exact ih v w
    | true =>
      rw [AffineMap.image_le_image_of_reverses hm, Bool.xor_true]
      cases hi : inner.reverses with
      | false => exact ⟨fun h => absurd h (by decide), fun _ => (ih w v).1 hi⟩
      | true => exact ⟨fun _ => (ih w v).2 hi, fun h => absurd h (by decide)⟩

theorem image_le_image (h : x.reverses = false) : x.image v ≤ x.image w ↔ v ≤ w :=
  (image_le_image_iff x v w).1 h

theorem image_le_image_of_reverses (h : x.reverses = true) : x.image v ≤ x.image w ↔ w ≤ v :=
  (image_le_image_iff x v w).2 h

theorem image_lt_image (h : x.reverses = false) : x.image v < x.image w ↔ v < w := by
  rw [← Int.not_le, ← Int.not_le, image_le_image h]

theorem image_lt_image_of_reverses (h : x.reverses = true) : x.image v < x.image w ↔ w < v := by
  rw [← Int.not_le, ← Int.not_le, image_le_image_of_reverses h]

/-! ### Scaled variables -/

theorem base_scaled {x y : IntVar} {k : Int} (h : x.scaled k = .ok y) : y.base = x.base := by
  cases x with
  | plain z =>
    simp only [scaled, bind, Except.bind] at h
    split at h <;> cases h
    rfl
  | view inner map =>
    simp only [scaled, bind, Except.bind] at h
    split at h <;> cases h
    rfl

/-! ### Images that stay in a width -/

/-- The value below and all images on the way to the value of the variable lie in a width. -/
def Within (width : Width) : IntVar → Int → Prop
  | .plain _, v => width.Fits v
  | .view inner map, v => inner.Within width v ∧ width.Fits (map.image (inner.image v))

/-- The images of all values of the store lie in a width. -/
def Ranges (width : Width) (x : IntVar) (s : Store) : Prop :=
  ∀ v, (s.int x.base).contains v = true → x.Within width v

theorem Within.fits {width : Width} (h : x.Within width v) : width.Fits (x.image v) := by
  cases x with
  | plain y => exact h
  | view inner map => exact h.2

theorem Within.mono {small great : Width} (hle : ∀ n, small.Fits n → great.Fits n)
    (h : x.Within small v) : x.Within great v := by
  induction x with
  | plain y => exact hle v h
  | view inner map ih => exact ⟨ih h.1, hle _ h.2⟩

theorem Ranges.inner {width : Width} {inner : IntVar} {map : AffineMap} {s : Store}
    (h : (view inner map).Ranges width s) : inner.Ranges width s :=
  fun v hv => (h v hv).1

theorem Ranges.mono {small great : Width} {s : Store} (hle : ∀ n, small.Fits n → great.Fits n)
    (h : x.Ranges small s) : x.Ranges great s :=
  fun v hv => (h v hv).mono hle

end IntVar

/-- The range of values without its two ends, which also stand for "no value". -/
def Width.interior : Width := ⟨minValue + 1, maxValue - 1⟩

theorem Width.fits_of_interior {n : Int} (h : Width.interior.Fits n) : Width.value.Fits n := by
  obtain ⟨hleast, hgreatest⟩ := h
  constructor
  · show minValue ≤ n
    exact Int.le_trans (by decide) hleast
  · show n ≤ maxValue
    exact Int.le_trans hgreatest (by decide)

end FiniteDomain
