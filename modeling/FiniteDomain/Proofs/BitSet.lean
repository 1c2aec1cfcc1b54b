import FiniteDomain.BitSet
import FiniteDomain.Proofs.IndexTree

/-! # Sets of indices as mathematical sets

    What the searches and counts of a `BitSet` answer, told by `contains`
    alone.  `rank n` is the number of members below `n`.

    The tree of a set is canonical from its construction on, so erasing a
    member and inserting it again gives back the same set, bit for bit. -/

namespace FiniteDomain.BitSet

/-! ### Canonical sets -/

/-- The tree of the set is the only one with these slots. -/
def Canonical (s : BitSet) : Prop := s.filled.Canonical s.height

theorem canonical_empty (capacity : Nat) : (empty capacity).Canonical :=
  IndexTree.canonical_nothing _

theorem canonical_full (capacity : Nat) : (full capacity).Canonical :=
  IndexTree.canonical_firsts _ _

theorem Canonical.put {s : BitSet} (hs : s.Canonical) (i : Nat) (member : Bool) :
    (s.put i member).Canonical := by
  unfold BitSet.put
  split
  · exact IndexTree.canonical_put hs i member
  · exact hs

theorem Canonical.insert {s : BitSet} (hs : s.Canonical) (i : Nat) : (s.insert i).Canonical :=
  hs.put i true

theorem Canonical.erase {s : BitSet} (hs : s.Canonical) (i : Nat) : (s.erase i).Canonical :=
  hs.put i false

theorem lt_capacity_of_contains {s : BitSet} {i : Nat} (h : s.contains i = true) :
    i < s.capacity := by
  simp only [contains, Bool.and_eq_true, decide_eq_true_eq] at h
  exact h.1

theorem Canonical.put_put_self {s : BitSet} (hs : s.Canonical) {i : Nat} (hi : i < s.capacity)
    (member : Bool) : (s.put i member).put i (s.contains i) = s := by
  have hslot : i < s.slots := by simp only [slots]; omega
  have hrange : i < IndexTree.range s.height := lt_range_heightFor (by omega)
  have hcontains : s.contains i = s.filled.contains s.height i := by simp [contains, hi]
  have hslot' : i < (s.put i member).slots := by simpa [slots] using hslot
  rw [BitSet.put, if_pos hslot', hcontains]
  simp only [BitSet.put, hslot, if_true]
  obtain ⟨filled, capacity⟩ := s
  exact congrArg (BitSet.mk · capacity) (IndexTree.put_put_self hs hrange member)

/-- Erasing a member is taken back by inserting it. -/
theorem Canonical.insert_erase {s : BitSet} (hs : s.Canonical) {i : Nat}
    (hi : s.contains i = true) : (s.erase i).insert i = s := by
  have h := hs.put_put_self (lt_capacity_of_contains hi) false
  rwa [hi] at h

/-- Inserting an index that is no member is taken back by erasing it. -/
theorem Canonical.erase_insert {s : BitSet} (hs : s.Canonical) {i : Nat} (hcap : i < s.capacity)
    (hi : s.contains i = false) : (s.insert i).erase i = s := by
  have h := hs.put_put_self hcap true
  rwa [hi] at h

/-! ### Searching -/

theorem contains_of_lt {s : BitSet} {i : Nat} (hi : i < s.capacity) :
    s.contains i = s.filled.contains s.height i := by
  simp [contains, hi]

theorem lt_range_of_lt {s : BitSet} {i : Nat} (hi : i < s.capacity) :
    i < IndexTree.range s.height :=
  lt_range_heightFor (by omega)

/-- The answer of `next?` is the least member from `start` on. -/
theorem next?_eq_some {s : BitSet} {start i : Nat} (h : s.next? start = some i) :
    start ≤ i ∧ s.contains i = true ∧ ∀ j, start ≤ j → j < i → s.contains j = false := by
  have hspec := s.filled.next?_spec s.height start
  rw [next?, Option.filter_eq_some_iff] at h
  obtain ⟨h, hcap⟩ := h
  rw [h] at hspec
  obtain ⟨hle, -, hin, hmin⟩ := hspec
  have hcap' : i < s.capacity := by simpa using hcap
  refine ⟨hle, by rwa [contains_of_lt hcap'], ?_⟩
  intro j hj hji
  rw [contains_of_lt (by omega)]
  exact hmin j hj hji

theorem next?_eq_none {s : BitSet} {start : Nat} (h : s.next? start = none) :
    ∀ j, start ≤ j → s.contains j = false := by
  intro j hj
  by_cases hcap : j < s.capacity
  · have hspec := s.filled.next?_spec s.height start
    rw [contains_of_lt hcap]
    rw [next?] at h
    cases hn : s.filled.next? s.height start with
    | none =>
      rw [hn] at hspec
      exact hspec j hj (lt_range_of_lt hcap)
    | some i =>
      -- the first filled slot lies beyond the capacity
      rw [hn] at hspec h
      have hi : s.capacity ≤ i := by simpa using h
      exact hspec.2.2.2 j hj (by omega)
  · simp [contains, hcap]

/-- The answer of `previous?` is the greatest member up to `start`. -/
theorem previous?_eq_some {s : BitSet} {start i : Nat} (h : s.previous? start = some i) :
    i ≤ start ∧ s.contains i = true ∧ ∀ j, i < j → j ≤ start → s.contains j = false := by
  rw [previous?] at h
  split at h
  · cases h
  · next hcap =>
    have hspec := s.filled.previous?_spec s.height (min start (s.capacity - 1))
    rw [h] at hspec
    obtain ⟨-, hlt, hin, hmax⟩ := hspec
    have hi : i < s.capacity := by omega
    refine ⟨by omega, by rwa [contains_of_lt hi], ?_⟩
    intro j hij hj
    by_cases hjcap : j < s.capacity
    · have hrange := lt_range_of_lt hjcap
      rw [contains_of_lt hjcap]
      exact hmax j hij (by omega)
    · simp [contains, hjcap]

theorem previous?_eq_none {s : BitSet} {start : Nat} (h : s.previous? start = none) :
    ∀ j, j ≤ start → s.contains j = false := by
  intro j hj
  by_cases hjcap : j < s.capacity
  · have hspec := s.filled.previous?_spec s.height (min start (s.capacity - 1))
    rw [previous?, if_neg (by omega)] at h
    rw [h] at hspec
    have hrange := lt_range_of_lt hjcap
    rw [contains_of_lt hjcap]
    exact hspec j (Nat.zero_le j) (by omega)
  · simp [contains, hjcap]

/-! ### Counting -/

/-- The number of members below `n`. -/
def rank (s : BitSet) (n : Nat) : Nat := Nat.count (fun i => s.contains i = true) n

theorem rank_succ (s : BitSet) (n : Nat) :
    s.rank (n + 1) = s.rank n + if s.contains n = true then 1 else 0 :=
  Nat.count_succ _ n

theorem rank_mono (s : BitSet) {m n : Nat} (h : m ≤ n) : s.rank m ≤ s.rank n :=
  Nat.count_monotone _ h

/-- Below the capacity the filled slots are the members. -/
theorem countBelow_eq_rank {s : BitSet} {n : Nat} (h : n ≤ s.capacity) :
    s.filled.countBelow s.height n = s.rank n := by
  have hrange : s.capacity < IndexTree.range s.height := lt_range_heightFor (by omega)
  rw [IndexTree.countBelow_eq, Nat.min_eq_left (by omega), rank]
  apply Nat.le_antisymm <;> apply Nat.count_mono_left <;> intro j hj <;>
    rw [contains_of_lt (by omega)] <;> exact id

theorem rank_of_capacity_le {s : BitSet} {n : Nat} (h : s.capacity ≤ n) :
    s.rank n = s.rank s.capacity := by
  obtain ⟨k, rfl⟩ := Nat.exists_eq_add_of_le h
  rw [rank, Nat.count_add]
  have hzero : Nat.count (fun k => s.contains (s.capacity + k) = true) k = 0 := by
    rw [Nat.count_iff_forall_not]
    intro m _
    simp [contains]
  rw [hzero, Nat.add_zero, rank]

theorem countIn_eq (s : BitSet) (lower upper : Nat) :
    s.countIn lower upper = s.rank (upper + 1) - s.rank lower := by
  rw [countIn]
  have hupper : s.filled.countBelow s.height (min (upper + 1) s.capacity) = s.rank (upper + 1) := by
    rw [countBelow_eq_rank (Nat.min_le_right _ _)]
    rcases Nat.le_total (upper + 1) s.capacity with h | h
    · rw [Nat.min_eq_left h]
    · rw [Nat.min_eq_right h, rank_of_capacity_le h]
  rcases Nat.le_total lower s.capacity with h | h
  · rw [hupper, countBelow_eq_rank h]
  · -- nothing is left above the capacity, and filled slots there do not count
    have hle : s.rank (upper + 1) ≤ s.filled.countBelow s.height lower := by
      calc s.rank (upper + 1) ≤ s.rank (max (upper + 1) s.capacity) :=
            s.rank_mono (Nat.le_max_left _ _)
        _ = s.rank s.capacity := rank_of_capacity_le (Nat.le_max_right _ _)
        _ = s.filled.countBelow s.height s.capacity := (countBelow_eq_rank (Nat.le_refl _)).symm
        _ ≤ s.filled.countBelow s.height lower := by
            rw [IndexTree.countBelow_eq, IndexTree.countBelow_eq]
            exact Nat.count_monotone _ (by omega)
    have hle' : s.rank (upper + 1) ≤ s.rank lower := by
      rw [rank_of_capacity_le h]
      calc s.rank (upper + 1) ≤ s.rank (max (upper + 1) s.capacity) :=
            s.rank_mono (Nat.le_max_left _ _)
        _ = s.rank s.capacity := rank_of_capacity_le (Nat.le_max_right _ _)
    omega

theorem rank_eq_of_not_contains {s : BitSet} {m n : Nat} (hmn : m ≤ n)
    (h : ∀ j, m ≤ j → j < n → s.contains j = false) : s.rank n = s.rank m := by
  obtain ⟨k, rfl⟩ := Nat.exists_eq_add_of_le hmn
  have hzero : Nat.count (fun i => s.contains (m + i) = true) k = 0 := by
    rw [Nat.count_iff_forall_not]
    intro i hi
    simp [h (m + i) (by omega) (by omega)]
  rw [rank, Nat.count_add, hzero, Nat.add_zero, rank]

theorem rank_insert {s : BitSet} {i n : Nat} (hcap : i < s.capacity)
    (hi : s.contains i = false) :
    (s.insert i).rank n = s.rank n + if i < n then 1 else 0 := by
  induction n with
  | zero => simp [rank]
  | succ n ih =>
    rw [rank_succ, rank_succ, ih, contains_insert]
    by_cases hn : n = i
    · subst hn; simp [hcap, hi]
    · by_cases hlt : n < s.capacity
      · simp only [hlt, hn, decide_true, decide_false, Bool.false_or, Bool.true_and]
        have : i < n + 1 ↔ i < n := by omega
        simp only [this]
        omega
      · have hnot : s.contains n = false := by simp [contains, hlt]
        have hin : i < n := by omega
        simp [hlt, hnot, hin, Nat.lt_succ_of_lt hin]

theorem rank_erase {s : BitSet} {i n : Nat} (hs : s.Canonical) (hi : s.contains i = true) :
    (s.erase i).rank n + (if i < n then 1 else 0) = s.rank n := by
  have hcap := lt_capacity_of_contains hi
  have h := rank_insert (s := s.erase i) (n := n) (by simpa using hcap) (by simp)
  rw [← h, hs.insert_erase hi]

/-! ### Listing -/

theorem mem_membersFrom {s : BitSet} {upper count start : Nat}
    (hcount : count = s.rank (upper + 1) - s.rank start) (i : Nat) :
    i ∈ s.membersFrom count start ↔ start ≤ i ∧ i ≤ upper ∧ s.contains i = true := by
  induction count generalizing start with
  | zero =>
    simp only [membersFrom, List.not_mem_nil, false_iff]
    rintro ⟨h₁, h₂, h₃⟩
    -- an element in between would raise the rank
    have hlt : s.rank i < s.rank (i + 1) := by rw [rank_succ]; simp [h₃]
    have := s.rank_mono h₁
    have := s.rank_mono (show i + 1 ≤ upper + 1 by omega)
    omega
  | succ count ih =>
    rw [membersFrom]
    cases hn : s.next? start with
    | none =>
      have hnone := next?_eq_none hn
      simp only [List.not_mem_nil, false_iff]
      rintro ⟨h₁, -, h₃⟩
      rw [hnone i h₁] at h₃
      cases h₃
    | some first =>
      obtain ⟨hle, hin, hmin⟩ := next?_eq_some hn
      have hskip : s.rank first = s.rank start := rank_eq_of_not_contains hle hmin
      have hstep : s.rank (first + 1) = s.rank start + 1 := by rw [rank_succ, hskip]; simp [hin]
      have hupper : first ≤ upper := by
        by_contra hgt
        have := s.rank_mono (show upper + 1 ≤ first by omega)
        omega
      have hrest := @ih (first + 1) (by omega)
      rw [List.mem_cons, hrest]
      constructor
      · rintro (rfl | ⟨h₁, h₂, h₃⟩)
        · exact ⟨hle, hupper, hin⟩
        · exact ⟨by omega, h₂, h₃⟩
      · rintro ⟨h₁, h₂, h₃⟩
        by_cases hi : i = first
        · exact Or.inl hi
        · refine Or.inr ⟨?_, h₂, h₃⟩
          by_contra hlt
          rw [hmin i h₁ (by omega)] at h₃
          cases h₃

theorem mem_membersIn {s : BitSet} {lower upper i : Nat} :
    i ∈ s.membersIn lower upper ↔ lower ≤ i ∧ i ≤ upper ∧ s.contains i = true :=
  mem_membersFrom (s.countIn_eq lower upper) i

theorem le_of_mem_membersFrom {s : BitSet} {count start i : Nat}
    (h : i ∈ s.membersFrom count start) : start ≤ i := by
  induction count generalizing start with
  | zero => simp [membersFrom] at h
  | succ count ih =>
    rw [membersFrom] at h
    cases hn : s.next? start with
    | none => simp [hn] at h
    | some first =>
      have hle := (next?_eq_some hn).1
      simp only [hn, List.mem_cons] at h
      rcases h with rfl | h
      · exact hle
      · have := ih h
        omega

theorem pairwise_membersFrom (s : BitSet) (count start : Nat) :
    (s.membersFrom count start).Pairwise (· < ·) := by
  induction count generalizing start with
  | zero => exact List.Pairwise.nil
  | succ count ih =>
    rw [membersFrom]
    cases hn : s.next? start with
    | none => exact List.Pairwise.nil
    | some first =>
      refine List.Pairwise.cons ?_ (ih _)
      intro i hi
      have := le_of_mem_membersFrom hi
      omega

theorem pairwise_membersIn (s : BitSet) (lower upper : Nat) :
    (s.membersIn lower upper).Pairwise (· < ·) :=
  s.pairwise_membersFrom _ _

theorem pairwise_toList (s : BitSet) : s.toList.Pairwise (· < ·) :=
  (IndexTree.pairwise_members _ _ _).filter _

end FiniteDomain.BitSet
