import FiniteDomain.Proofs.Contract.View

/-! # What removing an interval through a view comes to

    The two ends of the interval are pulled back through the map and saturated to
    the range of values.  An end that lies beyond all images is thereby moved onto
    an end of the range, so that the value there is taken for one of the interval.
    `AffineMap.Strays` says which value this is and when it happens; all other
    values are removed exactly if their image lies in the interval
    (`removeInterval_view_contract`).

    The other narrowings of a view tell an end beyond the range from one at the
    range (`AffineMap.pullLower?`, `AffineMap.pullUpper?`), and are exact. -/

namespace FiniteDomain

namespace AffineMap

/-- The value of the range whose image is greatest. -/
def summit (m : AffineMap) : Int := if m.reverses then minValue else maxValue

/-- The value of the range whose image is least. -/
def valley (m : AffineMap) : Int := if m.reverses then maxValue else minValue

/-- The value is at an end of the range, and the interval lies beyond its image or, if it is
    empty, on both sides of it. -/
def Strays (m : AffineMap) (lower upper v : Int) : Prop :=
  v = m.summit ∧ m.image v < lower ∧ m.image v ≤ upper
    ∨ v = m.valley ∧ lower ≤ m.image v ∧ upper < m.image v

/-- The first value of the range that the interval pulls back to. -/
def pullFirst (m : AffineMap) (lower upper : Int) : Int :=
  Width.value.clamp (m.pullUp (if m.reverses then upper else lower))

/-- The last value of the range that the interval pulls back to. -/
def pullLast (m : AffineMap) (lower upper : Int) : Int :=
  Width.value.clamp (m.pullDown (if m.reverses then lower else upper))

end AffineMap

namespace AffineMap

variable {v : Int}

/-- What is pulled back are the values whose image is in the interval, and the one that strays. -/
theorem pulled_iff (m : AffineMap) (lower upper : Int) (hv : Width.value.Fits v) :
    (m.pullFirst lower upper ≤ v ∧ v ≤ m.pullLast lower upper)
      ↔ (lower ≤ m.image v ∧ m.image v ≤ upper) ∨ m.Strays lower upper v := by
  -- a value cannot be at both ends of the range
  have hends : ¬ (v = maxValue ∧ v = minValue) := by
    intro ⟨hmax, hmin⟩
    exact absurd (hmax.symm.trans hmin) (by decide)
  unfold pullFirst pullLast Strays summit valley
  rw [Width.clamp_le_iff hv, Width.le_clamp_iff hv]
  cases hm : m.reverses with
  | false =>
    simp only [Bool.false_eq_true, if_false]
    rw [pullUp_le hm, le_pullDown hm]
    omega
  | true =>
    simp only [if_true]
    rw [pullUp_le_of_reverses hm, le_pullDown_of_reverses hm]
    omega

end AffineMap

namespace Store

open IntegerDomain

variable {s : Store} {y : IntId}

/-- An interval that pulls back to nothing is not asked for, the others below the view. -/
theorem apply_removeInterval_view (s : Store) (y : IntId) (m : AffineMap) (lower upper : Int) :
    (Narrowing.removeInterval (.view (.plain y) m) lower upper).apply s
      = s.commitInt y (if m.pullLast lower upper < m.pullFirst lower upper then .unchanged
        else (s.int y).removeInterval (m.pullFirst lower upper) (m.pullLast lower upper)) := by
  show IntVar.removeInterval (.view (.plain y) m) s lower upper = _
  have hpull : IntVar.pullInterval? (.view (.plain y) m) lower upper
      = if m.pullLast lower upper < m.pullFirst lower upper then none
        else some (m.pullFirst lower upper, m.pullLast lower upper) := rfl
  unfold IntVar.removeInterval
  rw [hpull]
  by_cases hempty : m.pullLast lower upper < m.pullFirst lower upper
  · rw [if_pos hempty, if_pos hempty]
    rfl
  · rw [if_neg hempty, if_neg hempty]
    rfl

/-- The request keeps the values outside the interval that is pulled back. -/
theorem answers_removeInterval_view (hs : s.Wf) (y : IntId) (m : AffineMap) (lower upper : Int) :
    s.Answers y (fun v => v < m.pullFirst lower upper ∨ m.pullLast lower upper < v)
      ((Narrowing.removeInterval (.view (.plain y) m) lower upper).apply s) := by
  have hd := hs.int y
  rw [apply_removeInterval_view]
  split
  next hempty =>
    have hall : ∀ v, v < m.pullFirst lower upper ∨ m.pullLast lower upper < v := by
      intro v
      omega
    exact answers_commitInt hs ⟨⟨trivial, trivial⟩, Or.inl fun v _ => hall v, trivial⟩
  next => exact answers_commitInt hs (Request.fulfils hd (.removeInterval _ _))

/-- Removing an interval through a view of a variable whose values are in range keeps the values
    whose image lies outside, but for the one that strays; where none strays it keeps exactly
    the values whose image lies outside. -/
theorem removeInterval_view_contract (hs : s.Reachable)
    (hy : ∀ v, (s.int y).contains v = true → Width.value.Fits v) (m : AffineMap)
    (lower upper : Int) :
    s.Answers y (fun v => (m.image v < lower ∨ upper < m.image v) ∧ ¬ m.Strays lower upper v)
        ((Narrowing.removeInterval (.view (.plain y) m) lower upper).apply s)
      ∧ ((∀ v, (s.int y).contains v = true → ¬ m.Strays lower upper v) →
        s.Answers y (fun v => m.image v < lower ∨ upper < m.image v)
          ((Narrowing.removeInterval (.view (.plain y) m) lower upper).apply s)) := by
  have hkept : s.Answers y
      (fun v => (m.image v < lower ∨ upper < m.image v) ∧ ¬ m.Strays lower upper v)
      ((Narrowing.removeInterval (.view (.plain y) m) lower upper).apply s) := by
    refine (answers_removeInterval_view hs.traced.wf y m lower upper).congr fun v hv => ?_
    have hpulled := m.pulled_iff lower upper (hy v hv)
    rw [← Int.not_le (a := m.pullFirst lower upper), ← Int.not_le (b := m.pullLast lower upper),
      ← not_and_or, hpulled, not_or]
    refine and_congr_left fun _ => ?_
    omega
  refine ⟨hkept, fun hnone => hkept.congr fun v hv => ?_⟩
  exact (and_iff_left (hnone v hv)).symm

/-- Under the map `v ↦ 3 - 2 v` the interval from -9 to 1 takes 1, 4 and 6 away and leaves 9,
    whose image is -15. -/
theorem removeInterval_view_contract_sieved :
    ∃ n, n = (Narrowing.removeInterval (.view (.plain ⟨0⟩) ⟨-2, 3, by decide⟩) (-9) 1).apply sieved
      ∧ n.changed? = some true
      ∧ ∀ v, (n.store.int ⟨0⟩).contains v = true
        ↔ (sieved.int ⟨0⟩).contains v = true ∧ (-2 * v + 3 < -9 ∨ 1 < -2 * v + 3) := by
  have hbetween : ∀ v, (sieved.int ⟨0⟩).contains v = true → 1 ≤ v ∧ v ≤ 9 := by
    intro v hv
    obtain ⟨hlower, hupper, -⟩ := contains_iff.mp hv
    exact ⟨hlower, hupper⟩
  have hrange : ∀ v, (sieved.int ⟨0⟩).contains v = true → Width.value.Fits v := by
    intro v hv
    obtain ⟨hlower, hupper⟩ := hbetween v hv
    exact ⟨Int.le_trans (by decide) hlower, Int.le_trans hupper (by decide)⟩
  obtain ⟨-, hexact⟩ := removeInterval_view_contract sieved_reachable hrange ⟨-2, 3, by decide⟩ (-9) 1
  have hanswers := hexact fun v hv hstrays => by
    obtain ⟨hlower, hupper⟩ := hbetween v hv
    -- no value is at an end of the range
    obtain ⟨rfl, -⟩ | ⟨rfl, -⟩ := hstrays
    · exact absurd hlower (by decide)
    · exact absurd hupper (by decide)
  exact ⟨_, rfl, by decide, (hanswers.hull (by decide)).2⟩

/-- The values 0 and `maxValue`. -/
def brink : Store :=
  (Store.empty.addInt
    (match IntegerDomain.enumerated [0, maxValue] with | .ok d => d | .error _ => default)).2

theorem brink_reachable : brink.Reachable := by
  have hsorted : ([0, maxValue] : List Int).Pairwise (· < ·) := by decide
  exact .addEnumerated .empty hsorted rfl

/-- Under the map `v ↦ v - 1` no value has the image `maxValue`, and yet removing the interval
    that holds `maxValue` alone takes the greatest value away. -/
theorem removeInterval_loses_greatest :
    brink.Reachable ∧ (brink.int ⟨0⟩).contains maxValue = true
      ∧ (∀ v, (brink.int ⟨0⟩).contains v = true →
        Width.value.Fits v ∧ ((⟨1, -1, by decide⟩ : AffineMap).image v < maxValue
          ∨ maxValue < (⟨1, -1, by decide⟩ : AffineMap).image v))
      ∧ ¬ brink.Answers ⟨0⟩ (fun v => (⟨1, -1, by decide⟩ : AffineMap).image v < maxValue
          ∨ maxValue < (⟨1, -1, by decide⟩ : AffineMap).image v)
        ((Narrowing.removeInterval (.view (.plain ⟨0⟩) ⟨1, -1, by decide⟩) maxValue maxValue).apply
          brink) := by
  have hbetween : ∀ v, (brink.int ⟨0⟩).contains v = true → 0 ≤ v ∧ v ≤ maxValue := by
    intro v hv
    obtain ⟨hlower, hupper, -⟩ := contains_iff.mp hv
    exact ⟨hlower, hupper⟩
  refine ⟨brink_reachable, by decide, fun v hv => ?_, fun hanswers => ?_⟩
  · obtain ⟨hlower, hupper⟩ := hbetween v hv
    refine ⟨⟨Int.le_trans (by decide) hlower, hupper⟩, Or.inl ?_⟩
    show 1 * v + -1 < maxValue
    omega
  · have hkept : ((Narrowing.removeInterval (.view (.plain ⟨0⟩) ⟨1, -1, by decide⟩) maxValue
        maxValue).apply brink).store.int ⟨0⟩ |>.contains maxValue := by
      refine ((hanswers.hull (by decide)).2 maxValue).mpr ?_
      show if _ then _ else _
      rw [if_pos (by decide)]
      exact ⟨by decide, by decide⟩
    exact absurd hkept (by decide)

end Store

end FiniteDomain
