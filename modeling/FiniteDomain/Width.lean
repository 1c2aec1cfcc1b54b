import FiniteDomain.Fault

/-! # Widths

    Numbers are mathematical integers.  A width is a range of integers that a
    quantity has to stay in: values of variables and coefficients of views have
    the width `Width.value` (32 bits), sums of them `Width.sum` (64 bits).
    A computation that has to stay in a width either checks its result
    (`Width.checked`, a fault outside the range), saturates (`Width.clamp`) or
    wraps around (`Width.wrap`).

    The two divisions round to the neighbour named: `divFloor n d` is the
    greatest integer at most `n / d`, `divCeil n d` the least at least `n / d`. -/

namespace FiniteDomain

/-- A range of integers. -/
structure Width where
  /-- The least number of the range. -/
  least : Int
  /-- The greatest number of the range. -/
  greatest : Int
deriving DecidableEq, Repr

namespace Width

/-- The width of values, bounds and coefficients: 32 bits with a sign. -/
def value : Width := ⟨-2147483648, 2147483647⟩

/-- The width of sums of values: 64 bits with a sign. -/
def sum : Width := ⟨-9223372036854775808, 9223372036854775807⟩

/-- The number lies in the range. -/
def Fits (w : Width) (n : Int) : Prop := w.least ≤ n ∧ n ≤ w.greatest

instance (w : Width) (n : Int) : Decidable (w.Fits n) :=
  inferInstanceAs (Decidable (_ ∧ _))

/-- The number itself, or a fault if it lies outside the range. -/
def checked (w : Width) (n : Int) : Except Fault Int :=
  if w.Fits n then .ok n else .error .overflow

/-- The number of the range that is nearest to `n`. -/
def clamp (w : Width) (n : Int) : Int := max w.least (min n w.greatest)

/-- The number of the range that differs from `n` by a multiple of the size of the range. -/
def wrap (w : Width) (n : Int) : Int :=
  w.least + (n - w.least) % (w.greatest - w.least + 1)

theorem checked_of_fits {w : Width} {n : Int} (h : w.Fits n) : w.checked n = .ok n := by
  simp [checked, h]

theorem clamp_of_fits {w : Width} {n : Int} (h : w.Fits n) : w.clamp n = n := by
  obtain ⟨hl, hg⟩ := h
  simp only [clamp]
  omega

theorem fits_wrap {w : Width} (n : Int) (h : w.least ≤ w.greatest) : w.Fits (w.wrap n) := by
  have hsize : 0 < w.greatest - w.least + 1 := by omega
  have hnonneg := Int.emod_nonneg (n - w.least) (Int.ne_of_gt hsize)
  have hlt := Int.emod_lt_of_pos (n - w.least) hsize
  unfold Fits wrap
  omega

theorem wrap_of_fits {w : Width} {n : Int} (h : w.Fits n) : w.wrap n = n := by
  obtain ⟨hl, hg⟩ := h
  rw [wrap, Int.emod_eq_of_lt (by omega) (by omega)]
  omega

end Width

/-- The least value of a variable; also the answer "there is no previous value". -/
def minValue : Int := Width.value.least

/-- The greatest value of a variable; also the answer "there is no next value". -/
def maxValue : Int := Width.value.greatest

/-- The quotient rounded down. -/
def divFloor (n d : Int) : Int := Int.fdiv n d

/-- The quotient rounded up. -/
def divCeil (n d : Int) : Int := -Int.fdiv (-n) d

/-- A rounded quotient of two numbers of a width; the quotient has to exist and fit. -/
def Width.divide (w : Width) (round : Int → Int → Int) (n d : Int) : Except Fault Int :=
  if d = 0 then .error .divisionByZero else w.checked (round n d)

end FiniteDomain
