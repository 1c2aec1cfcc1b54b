import FiniteDomain.Filter.AllDifferent.Bounds
import FiniteDomain.Proofs.Domain.Integer
import Mathlib.Data.Finset.Card

/-! # Hall intervals

    The variables whose domains lie within an interval take pairwise different
    values of it.  So there are no more of them than values (`countP_le_room`),
    and if there are as many they use all of them up: no other variable takes a
    value of the interval (`outside_of_full`). -/

namespace FiniteDomain.AllDifferent

variable {l : List (IntVar × Int × Int)} {value : IntVar → Int} {low high : Int}

/-- The values of the variables whose bounds lie in the interval. -/
def insiders (l : List (IntVar × Int × Int)) (value : IntVar → Int) (low high : Int) : List Int :=
  (l.filter fun p => encloses low high p.2).map fun p => value p.1

theorem mem_insiders (hbounds : ∀ p ∈ l, p.2.1 ≤ value p.1 ∧ value p.1 ≤ p.2.2) {v : Int}
    (hv : v ∈ insiders l value low high) : v ∈ interval low high := by
  obtain ⟨p, hp, rfl⟩ := List.mem_map.mp hv
  obtain ⟨hmem, hencloses⟩ := List.mem_filter.mp hp
  obtain ⟨hlower, hupper⟩ := hbounds p hmem
  unfold encloses at hencloses
  rw [Bool.and_eq_true, decide_eq_true_eq, decide_eq_true_eq] at hencloses
  rw [mem_interval]
  omega

theorem nodup_insiders (hnodup : (l.map fun p => value p.1).Nodup) :
    (insiders l value low high).Nodup :=
  hnodup.sublist (List.filter_sublist.map _)

theorem length_insiders :
    (insiders l value low high).length = (l.map (·.2)).countP (encloses low high) := by
  rw [insiders, List.length_map, List.countP_map, List.countP_eq_length_filter]
  rfl

/-- There is room in an interval for the variables whose domains lie in it. -/
theorem countP_le_room (hnodup : (l.map fun p => value p.1).Nodup)
    (hbounds : ∀ p ∈ l, p.2.1 ≤ value p.1 ∧ value p.1 ≤ p.2.2) :
    (l.map (·.2)).countP (encloses low high) ≤ (high + 1 - low).toNat := by
  have hsubset : (insiders l value low high).toFinset ⊆ interval low high := by
    intro v hv
    exact mem_insiders hbounds (List.mem_toFinset.mp hv)
  have hcard := Finset.card_le_card hsubset
  rw [List.toFinset_card_of_nodup (nodup_insiders hnodup), length_insiders, card_interval]
    at hcard
  exact hcard

/-- If they take all the room, the others take their values elsewhere. -/
theorem outside_of_full (hnodup : (l.map fun p => value p.1).Nodup)
    (hbounds : ∀ p ∈ l, p.2.1 ≤ value p.1 ∧ value p.1 ≤ p.2.2)
    (hfull : (high + 1 - low).toNat ≤ (l.map (·.2)).countP (encloses low high))
    {p : IntVar × Int × Int} (hp : p ∈ l) (hout : encloses low high p.2 = false) :
    ¬ (low ≤ value p.1 ∧ value p.1 ≤ high) := by
  intro hin
  have hnot : value p.1 ∉ insiders l value low high := by
    intro hmem
    obtain ⟨q, hq, heq⟩ := List.mem_map.mp hmem
    obtain ⟨hq, hencloses⟩ := List.mem_filter.mp hq
    rw [List.inj_on_of_nodup_map hnodup hq hp heq, hout] at hencloses
    cases hencloses
  have hsubset : (insiders l value low high).toFinset ⊆ (interval low high).erase (value p.1) := by
    intro v hv
    have hv := List.mem_toFinset.mp hv
    refine Finset.mem_erase.mpr ⟨fun heq => ?_, mem_insiders hbounds hv⟩
    rw [heq] at hv
    exact hnot hv
  have hcard := Finset.card_le_card hsubset
  have hmem : value p.1 ∈ interval low high := mem_interval.mpr hin
  rw [List.toFinset_card_of_nodup (nodup_insiders hnodup), length_insiders,
    Finset.card_erase_of_mem hmem, card_interval] at hcard
  omega

/-! ### Bounds -/

/-- The bounds of the variables. -/
def boundsOf (vars : List IntVar) (s : Store) : List (Int × Int) :=
  vars.map fun x => (x.lowerBound s, x.upperBound s)

theorem zip_boundsOf (vars : List IntVar) (s : Store) :
    vars.zip (boundsOf vars s) = vars.map fun x => (x, x.lowerBound s, x.upperBound s) :=
  List.map_prod_left_eq_zip.symm

end FiniteDomain.AllDifferent
