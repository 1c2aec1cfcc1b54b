import FiniteDomain.Proofs.Domain.Integer.Narrowing
import Mathlib.Data.List.Sort

/-! # Requests that come to the same

    What an integer domain makes of a bound, a value or an interval depends only
    on which of its values obey: two requests that the same values obey have the
    same outcome, with the same domain, the same entries and the same event.  The
    numbers in the two requests may differ, by a gap of the domain or beyond its
    bounds. -/

namespace FiniteDomain.IntegerDomain

variable {d : IntegerDomain} {a a' b b' k k' : Int}

/-! ### Bounds -/

theorem tightenLower_congr (hd : d.Wf) (h : ∀ v, d.contains v = true → (k ≤ v ↔ k' ≤ v)) :
    d.tightenLower k = d.tightenLower k' := by
  have hlower := h _ hd.lower_mem
  have hupper := h _ hd.upper_mem
  unfold tightenLower
  by_cases hall : k ≤ d.lower
  · rw [if_pos hall, if_pos (hlower.mp hall)]
  rw [if_neg hall, if_neg (mt hlower.mpr hall)]
  by_cases hnone : d.upper < k
  · rw [if_pos hnone, if_pos (by omega)]
  rw [if_neg hnone, if_neg (by omega)]
  -- the least value that obeys is the same
  obtain ⟨hge, hin, hleast⟩ := firstFrom_spec hd (v := k) (by omega) (by omega)
  obtain ⟨hge', hin', hleast'⟩ := firstFrom_spec hd (v := k') (by omega) (by omega)
  have hfirst : d.firstFrom k = d.firstFrom k' :=
    Int.le_antisymm (hleast _ ((h _ hin').mpr hge') hin') (hleast' _ ((h _ hin).mp hge) hin)
  rw [hfirst]

theorem tightenUpper_congr (hd : d.Wf) (h : ∀ v, d.contains v = true → (v ≤ k ↔ v ≤ k')) :
    d.tightenUpper k = d.tightenUpper k' := by
  have hlower := h _ hd.lower_mem
  have hupper := h _ hd.upper_mem
  unfold tightenUpper
  by_cases hall : d.upper ≤ k
  · rw [if_pos hall, if_pos (hupper.mp hall)]
  rw [if_neg hall, if_neg (mt hupper.mpr hall)]
  by_cases hnone : k < d.lower
  · rw [if_pos hnone, if_pos (by omega)]
  rw [if_neg hnone, if_neg (by omega)]
  -- the greatest value that obeys is the same
  obtain ⟨hle, hin, hgreatest⟩ := lastUpTo_spec hd (v := k) (by omega) (by omega)
  obtain ⟨hle', hin', hgreatest'⟩ := lastUpTo_spec hd (v := k') (by omega) (by omega)
  have hlast : d.lastUpTo k = d.lastUpTo k' :=
    Int.le_antisymm (hgreatest' _ ((h _ hin).mp hle) hin) (hgreatest _ ((h _ hin').mpr hle') hin')
  rw [hlast]

/-- A bound that no value obeys is refused. -/
theorem tightenLower_of_none (hd : d.Wf) (h : ∀ v, d.contains v = true → ¬ k ≤ v) :
    d.tightenLower k = .empty := by
  have hlower := h _ hd.lower_mem
  have hupper := h _ hd.upper_mem
  unfold tightenLower
  rw [if_neg hlower, if_pos (by omega)]

theorem tightenUpper_of_none (hd : d.Wf) (h : ∀ v, d.contains v = true → ¬ v ≤ k) :
    d.tightenUpper k = .empty := by
  have hlower := h _ hd.lower_mem
  have hupper := h _ hd.upper_mem
  unfold tightenUpper
  rw [if_neg hupper, if_pos (by omega)]

/-! ### Intervals -/

/-- Inside the bounds an interval of values is what the interval has in common with them. -/
theorem between_iff_clipped {v : Int} (hv : d.contains v = true) :
    (a ≤ v ∧ v ≤ b) ↔ max a d.lower ≤ v ∧ v ≤ min b d.upper := by
  obtain ⟨hlower, hupper, -⟩ := contains_iff.mp hv
  omega

/-- The values from one number to another are the values of the domain there. -/
theorem mem_valuesIn_iff (hd : d.Wf) {s : Enumeration} (hs : d.values? = some s) {v : Int}
    (ha : d.lower ≤ a) (hab : a ≤ b) (hb : b ≤ d.upper) :
    v ∈ s.valuesIn a b ↔ d.contains v = true ∧ a ≤ v ∧ v ≤ b := by
  have hoff := hd.offset_le s hs
  rw [Enumeration.mem_valuesIn (by omega) hab, contains_iff]
  simp only [holds, hs]
  constructor
  · rintro ⟨hlow, hhigh, hin⟩
    exact ⟨⟨by omega, by omega, hin⟩, hlow, hhigh⟩
  · rintro ⟨⟨-, -, hin⟩, hlow, hhigh⟩
    exact ⟨hlow, hhigh, hin⟩

theorem pairwise_valuesIn (s : Enumeration) (a b : Int) : (s.valuesIn a b).Pairwise (· < ·) := by
  refine List.Pairwise.map s.value (fun i j hij => ?_) (s.present.pairwise_membersIn _ _)
  unfold Enumeration.value
  omega

/-- The values in an interval between the bounds depend only on which values lie in it. -/
theorem valuesIn_congr (hd : d.Wf) {s : Enumeration} (hs : d.values? = some s)
    (ha : d.lower ≤ a) (hab : a ≤ b) (hb : b ≤ d.upper) (ha' : d.lower ≤ a') (hab' : a' ≤ b')
    (hb' : b' ≤ d.upper)
    (h : ∀ v, d.contains v = true → ((a ≤ v ∧ v ≤ b) ↔ (a' ≤ v ∧ v ≤ b'))) :
    s.valuesIn a b = s.valuesIn a' b' := by
  refine (pairwise_valuesIn s a b).eq_of_mem_iff (pairwise_valuesIn s a' b') fun v => ?_
  rw [mem_valuesIn_iff hd hs ha hab hb, mem_valuesIn_iff hd hs ha' hab' hb']
  exact and_congr_right fun hv => h v hv

/-- Nothing is removed if no value lies in the interval. -/
theorem removeInterval_of_none (hd : d.Wf) (h : ∀ v, d.contains v = true → ¬ (a ≤ v ∧ v ≤ b)) :
    d.removeInterval a b = .unchanged := by
  have hclipped := fun v hv => mt (between_iff_clipped hv).mpr (h v hv)
  have hlower := hclipped _ hd.lower_mem
  have hupper := hclipped _ hd.upper_mem
  unfold removeInterval
  simp only
  split
  · rfl
  next hle =>
    rw [if_neg (by omega), if_neg (by omega)]
    cases hs : d.values? with
    | none => rfl
    | some s =>
      have hempty : s.valuesIn (max a d.lower) (min b d.upper) = [] := by
        refine List.eq_nil_iff_forall_not_mem.mpr fun v hv => ?_
        obtain ⟨hin, hinside⟩ := (mem_valuesIn_iff hd hs (by omega) (by omega) (by omega)).mp hv
        exact hclipped v hin hinside
      simp only [hempty, List.isEmpty_nil, if_true]

theorem removeInterval_congr (hd : d.Wf)
    (h : ∀ v, d.contains v = true → ((a ≤ v ∧ v ≤ b) ↔ (a' ≤ v ∧ v ≤ b'))) :
    d.removeInterval a b = d.removeInterval a' b' := by
  by_cases hnone : ∀ v, d.contains v = true → ¬ (a ≤ v ∧ v ≤ b)
  · rw [removeInterval_of_none hd hnone,
      removeInterval_of_none hd fun v hv => mt (h v hv).mpr (hnone v hv)]
  push Not at hnone
  obtain ⟨u, hu, hulow, huhigh⟩ := hnone
  -- only what the intervals have in common with the bounds matters
  have hinside := (between_iff_clipped hu).mp ⟨hulow, huhigh⟩
  have hinside' := (between_iff_clipped hu).mp ((h u hu).mp ⟨hulow, huhigh⟩)
  have hclipped : ∀ v, d.contains v = true → ((max a d.lower ≤ v ∧ v ≤ min b d.upper)
      ↔ (max a' d.lower ≤ v ∧ v ≤ min b' d.upper)) := fun v hv =>
    (between_iff_clipped hv).symm.trans ((h v hv).trans (between_iff_clipped hv))
  have hlower := hclipped _ hd.lower_mem
  have hupper := hclipped _ hd.upper_mem
  have hbounds := hd.lower_le_upper
  unfold removeInterval
  simp only
  have hleft : max a d.lower = d.lower ↔ max a' d.lower = d.lower := by omega
  have hright : min b d.upper = d.upper ↔ min b' d.upper = d.upper := by omega
  rw [if_neg (show ¬ min b d.upper < max a d.lower by omega),
    if_neg (show ¬ min b' d.upper < max a' d.lower by omega)]
  by_cases hl : max a d.lower = d.lower
  · rw [if_pos hl, if_pos (hleft.mp hl)]
    refine tightenLower_congr hd fun v hv => ?_
    have hsame := hclipped v hv
    have hge := (contains_iff.mp hv).1
    omega
  rw [if_neg hl, if_neg (mt hleft.mpr hl)]
  by_cases hr : min b d.upper = d.upper
  · rw [if_pos hr, if_pos (hright.mp hr)]
    refine tightenUpper_congr hd fun v hv => ?_
    have hsame := hclipped v hv
    have hle := (contains_iff.mp hv).2.1
    omega
  rw [if_neg hr, if_neg (mt hright.mpr hr)]
  cases hs : d.values? with
  | none => rfl
  | some s =>
    simp only [valuesIn_congr hd hs (by omega) (by omega) (by omega) (by omega) (by omega)
      (by omega) hclipped]

end FiniteDomain.IntegerDomain
