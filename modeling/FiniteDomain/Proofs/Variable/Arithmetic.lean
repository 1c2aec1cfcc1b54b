import FiniteDomain.Proofs.Variable.Reading

/-! # The arithmetic of views fits

    A view computes with the width of sums: the product and the image when a
    bound is read, the difference and its rounded quotients when a bound is pulled
    back.  As long as its coefficients have the width of values all of this fits,
    since what comes in has that width too: bounds are saturated when they are
    read (`IntVar.fits_bounds`), and cut off when they are pulled back
    (`IntVar.narrowsExactly`). -/

namespace FiniteDomain

/-! ### Rounded quotients -/

/-- A quotient is no further from zero than the dividend. -/
theorem divFloor_between {n d size : Int} (hd : d ≠ 0) (hlow : -size ≤ n) (hhigh : n ≤ size) :
    -size ≤ divFloor n d ∧ divFloor n d ≤ size := by
  have hpos : ∀ {n d : Int}, 0 < d → -size ≤ n → n ≤ size →
      -size ≤ divFloor n d ∧ divFloor n d ≤ size := by
    intro n d hd hlow hhigh
    have hmul : size ≤ size * d := le_mul_of_one_le_right (by omega) hd
    constructor
    · rw [le_divFloor_iff_of_pos hd, Int.neg_mul]
      omega
    · refine Int.not_lt.mp fun hlt => ?_
      have hle : (size + 1) * d ≤ n := (le_divFloor_iff_of_pos hd).mp hlt
      rw [Int.add_mul, Int.one_mul] at hle
      omega
  rcases lt_or_gt_of_ne hd with hneg | hgt
  · have hflip : divFloor n d = divFloor (-n) (-d) := by
      unfold divFloor
      rw [Int.neg_fdiv_neg]
    rw [hflip]
    exact hpos (by omega) (by omega) (by omega)
  · exact hpos hgt hlow hhigh

theorem divCeil_between {n d size : Int} (hd : d ≠ 0) (hlow : -size ≤ n) (hhigh : n ≤ size) :
    -size ≤ divCeil n d ∧ divCeil n d ≤ size := by
  obtain ⟨hleast, hgreatest⟩ := divFloor_between (n := -n) hd (by omega : -size ≤ -n) (by omega)
  unfold divCeil
  unfold divFloor at hleast hgreatest
  omega

/-! ### Maps -/

namespace AffineMap

variable {m : AffineMap} {v : Int}

/-- The numbers that a map computes from a value fit in the width of sums. -/
structure Computes (m : AffineMap) (v : Int) : Prop where
  /-- The product, on the way to the image. -/
  product : Width.sum.Fits (m.scale * v)
  /-- The image. -/
  image : Width.sum.Fits (m.image v)
  /-- The dividend, on the way back. -/
  dividend : Width.sum.Fits (v - m.offset)
  /-- The preimage, rounded up. -/
  up : Width.sum.Fits (m.pullUp v)
  /-- The preimage, rounded down. -/
  down : Width.sum.Fits (m.pullDown v)

/-- The coefficients have the width of values. -/
def Slim (m : AffineMap) : Prop := Width.value.Fits m.scale ∧ Width.value.Fits m.offset

theorem Slim.computes (hm : m.Slim) (hv : Width.value.Fits v) : m.Computes v := by
  obtain ⟨⟨hscale, hscale'⟩, hoffset, hoffset'⟩ := hm
  obtain ⟨hlow, hhigh⟩ := hv
  simp only [Width.value] at hscale hscale' hoffset hoffset' hlow hhigh
  have hproduct : (m.scale * v).natAbs ≤ 2147483648 * 2147483648 := by
    rw [Int.natAbs_mul]
    exact Nat.mul_le_mul (by omega) (by omega)
  have hdividend : -4294967296 ≤ v - m.offset ∧ v - m.offset ≤ 4294967296 := by omega
  have hup := divCeil_between m.scale_ne_zero hdividend.1 hdividend.2
  have hdown := divFloor_between m.scale_ne_zero hdividend.1 hdividend.2
  constructor
  · constructor <;> simp only [Width.sum] <;> omega
  · constructor <;> simp only [Width.sum, image] <;> omega
  · constructor <;> simp only [Width.sum] <;> omega
  · constructor <;> simp only [Width.sum, pullUp] <;> omega
  · constructor <;> simp only [Width.sum, pullDown] <;> omega

/-- A bound that is pulled back has the width of values: where the preimage lies beyond an end that
    does not matter, the end takes its place. -/
theorem fits_pulled {w : Int} (h : m.pullLower? v = some w ∨ m.pullUpper? v = some w) :
    Width.value.Fits w := by
  rcases h with hlower | hupper
  · unfold pullLower? at hlower
    simp only at hlower
    split at hlower
    next hle =>
      cases hlower
      exact ⟨le_max_right _ _, max_le hle (by decide)⟩
    next => cases hlower
  · unfold pullUpper? at hupper
    simp only at hupper
    split at hupper
    next hle =>
      cases hupper
      exact ⟨le_min hle (by decide), min_le_right _ _⟩
    next => cases hupper

end AffineMap

/-! ### Chains of views -/

namespace IntVar

variable {x : IntVar} {s : Store} {k : Int}

/-- The maps of all views have coefficients of the width of values. -/
def Slim : IntVar → Prop
  | .plain _ => True
  | .view inner map => inner.Slim ∧ map.Slim

/-- What is computed when the bounds are read fits. -/
def ReadsExactly (s : Store) : IntVar → Prop
  | .plain _ => True
  | .view inner map =>
    inner.ReadsExactly s ∧ map.Computes (inner.lowerBound s) ∧ map.Computes (inner.upperBound s)

/-- What is computed when a bound is pulled back fits. -/
def NarrowsExactly : IntVar → Int → Prop
  | .plain _, _ => True
  | .view inner map, k => map.Computes k
      ∧ ∀ l, map.pullLower? k = some l ∨ map.pullUpper? k = some l → inner.NarrowsExactly l

theorem readsExactly (hs : s.Wf) (hbase : (plain x.base).Ranges Width.value s) (hx : x.Slim) :
    x.ReadsExactly s := by
  induction x with
  | plain y => trivial
  | view inner map ih =>
    obtain ⟨hinner, hmap⟩ := hx
    obtain ⟨hlower, hupper⟩ := fits_bounds (x := inner) hs hbase
    exact ⟨ih hbase hinner, hmap.computes hlower, hmap.computes hupper⟩

theorem narrowsExactly (hx : x.Slim) (hk : Width.value.Fits k) : x.NarrowsExactly k := by
  induction x generalizing k with
  | plain y => trivial
  | view inner map ih =>
    obtain ⟨hinner, hmap⟩ := hx
    exact ⟨hmap.computes hk, fun l hl => ih hinner (AffineMap.fits_pulled hl)⟩

end IntVar

end FiniteDomain
