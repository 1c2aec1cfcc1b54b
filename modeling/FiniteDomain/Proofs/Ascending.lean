import Mathlib.Data.List.Sort

/-! # Ascending lists

    Sorting a list of numbers and dropping repetitions leaves the same numbers in
    ascending order, each once. -/

namespace FiniteDomain

/-- Dropping repetitions from a list in weakly ascending order, behind what was kept so far. -/
theorem pairwise_eraseReps_loop {rest : List Int} {a : Int} {kept : List Int}
    (hkept : (a :: kept).Pairwise (· > ·)) (hrest : (a :: rest).Pairwise (· ≤ ·)) :
    (List.eraseRepsBy.loop (· == ·) a rest kept).Pairwise (· < ·)
      ∧ ∀ v, v ∈ List.eraseRepsBy.loop (· == ·) a rest kept ↔ v ∈ kept ∨ v = a ∨ v ∈ rest := by
  -- what was kept so far is in reverse: it descends from the element at hand
  induction rest generalizing a kept with
  | nil =>
    refine ⟨List.pairwise_reverse.mpr hkept, fun v => ?_⟩
    simp [List.eraseRepsBy.loop, or_comm]
  | cons b rest ih =>
    have hab : a ≤ b := (List.pairwise_cons.mp hrest).1 b (List.mem_cons_self ..)
    have htail : (b :: rest).Pairwise (· ≤ ·) := (List.pairwise_cons.mp hrest).2
    rw [List.eraseRepsBy.loop]
    by_cases heq : a = b
    · subst heq
      simp only [beq_self_eq_true]
      obtain ⟨hsorted, hmem⟩ := ih hkept htail
      exact ⟨hsorted, fun v => (hmem v).trans (by rw [List.mem_cons]; tauto)⟩
    · have hne : (a == b) = false := by simpa using heq
      simp only [hne]
      have hnext : (b :: a :: kept).Pairwise (· > ·) := by
        refine List.pairwise_cons.mpr ⟨fun v hv => ?_, hkept⟩
        rcases List.mem_cons.mp hv with rfl | hv
        · omega
        · have := (List.pairwise_cons.mp hkept).1 v hv
          omega
      obtain ⟨hsorted, hmem⟩ := ih hnext htail
      exact ⟨hsorted, fun v => (hmem v).trans (by rw [List.mem_cons, List.mem_cons]; tauto)⟩

theorem pairwise_sortedReps (values : List Int) :
    ((values.mergeSort fun a b => decide (a ≤ b)).eraseReps).Pairwise (· < ·)
      ∧ ∀ v, v ∈ (values.mergeSort fun a b => decide (a ≤ b)).eraseReps ↔ v ∈ values := by
  have hsorted : (values.mergeSort fun a b => decide (a ≤ b)).Pairwise (· ≤ ·) := by
    have h := List.pairwise_mergeSort
      (fun (a b c : Int) (hab : decide (a ≤ b) = true) (hbc : decide (b ≤ c) = true) => by simp only [decide_eq_true_eq] at *; omega)
      (fun a b => by simp only [Bool.or_eq_true, decide_eq_true_eq]; omega) values
    exact h.imp fun h => by simpa using h
  have hmem : ∀ v, v ∈ values.mergeSort (fun a b => decide (a ≤ b)) ↔ v ∈ values := fun v =>
    List.mem_mergeSort
  generalize values.mergeSort (fun a b => decide (a ≤ b)) = sorted at hsorted hmem ⊢
  cases sorted with
  | nil => exact ⟨List.Pairwise.nil, hmem⟩
  | cons a rest =>
    obtain ⟨hascending, hall⟩ := pairwise_eraseReps_loop (List.pairwise_singleton _ a) hsorted
    refine ⟨hascending, fun v => (hall v).trans (Iff.trans ?_ (hmem v))⟩
    rw [List.mem_cons]
    simp

end FiniteDomain
