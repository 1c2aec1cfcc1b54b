import FiniteDomain.BitSet.Words
import FiniteDomain.Proofs.BitSet.Members
import Mathlib.Data.List.TakeWhile

/-! # Words keep sets of indices

    A `WordSet` shows the finite set of the indices whose bit is set
    (`WordSet.Shows`).  Masks and shifts are described bit by bit, so that each
    operation is described by what it does to, or finds among, the bits.

    A search upwards goes with the invariant that what is left of the word at
    hand is its members from the start on, and that no member from the start on
    lies in an earlier word; a search downwards with its mirror image.  Walking
    with `next?` lists the members from the start on in ascending order.

    The last theorem is the promise for both layouts, words and trees. -/

namespace FiniteDomain

/-! ### Bits of words -/

namespace Word64

variable {w : Word64} {distance bit b : Nat}

theorem shiftUp_eq (h : distance < 64) : shiftUp w distance = .ok (w <<< distance) := if_pos h

theorem shiftDown_eq (h : distance < 64) : shiftDown w distance = .ok (w >>> distance) := if_pos h

theorem single_eq (h : bit < 64) : single bit = .ok (BitVec.twoPow 64 bit) := if_pos h

/-- A search downwards sees the bits up to the last one that it may see. -/
theorem getLsbD_maskDown (w : Word64) {last : Nat} (h : last < 64) (b : Nat) :
    (w &&& full >>> (63 - last)).getLsbD b = (decide (b ≤ last) && w.getLsbD b) := by
  rw [BitVec.getLsbD_and, BitVec.getLsbD_ushiftRight, full, BitVec.getLsbD_allOnes, Bool.and_comm]
  have hin : 63 - last + b < 64 ↔ b ≤ last := by omega
  simp only [hin]

/-- A bit is tested by masking all others. -/
theorem and_twoPow_ne_zero (w : Word64) (h : bit < 64) :
    (w &&& BitVec.twoPow 64 bit != 0) = w.getLsbD bit := by
  rw [BitVec.and_twoPow]
  cases hbit : w.getLsbD bit with
  | false => rfl
  | true =>
    have hne : BitVec.twoPow 64 bit ≠ 0 := by
      intro hzero
      have hset : (BitVec.twoPow 64 bit).getLsbD bit = true := by
        simp [h]
      rw [hzero] at hset
      simp at hset
    simpa using hne

/-- The bits below a power of two. -/
theorem getLsbD_twoPow_sub_one (h : bit < 64) (b : Nat) :
    (BitVec.twoPow 64 bit - 1).getLsbD b = decide (b < bit) := by
  have hle : 2 ^ bit < 2 ^ 64 := Nat.pow_lt_pow_right (by decide) h
  have hpos : 0 < 2 ^ bit := Nat.two_pow_pos bit
  have hnat : (BitVec.twoPow 64 bit - 1).toNat = 2 ^ bit - 1 := by
    rw [BitVec.toNat_sub, BitVec.toNat_twoPow, Nat.mod_eq_of_lt hle]
    show (2 ^ 64 - 1 + 2 ^ bit) % 2 ^ 64 = 2 ^ bit - 1
    omega
  rw [BitVec.getLsbD, hnat, Nat.testBit_two_pow_sub_one]

/-- Above its leading zeros a word has no bits. -/
theorem getLsbD_of_leadingZeros (h : 64 - leadingZeros w ≤ b) : w.getLsbD b = false := by
  have hlt : w.toNat < 2 ^ (64 - leadingZeros w) := BitVec.toNat_lt_two_pow_sub_clz
  exact Nat.testBit_lt_two_pow (Nat.lt_of_lt_of_le hlt (Nat.pow_le_pow_right (by decide) h))

end Word64

namespace WordSet

variable {s t : WordSet} {members : Finset Nat} {start k i : Nat}

/-! ### What a set shows -/

/-- The bit of an index; beyond the last word there are none. -/
def bit (s : WordSet) (i : Nat) : Bool := (s.words.getD (i / 64) 0).getLsbD (i % 64)

/-- The members are the indices whose bit is set, and there are as many words as the capacity
    needs. -/
structure Shows (s : WordSet) (members : Finset Nat) : Prop where
  /-- The number of words. -/
  size : s.words.size = (s.capacity + 63) / 64
  /-- The bits that are set. -/
  bit : ∀ i, s.bit i = decide (i ∈ members)
  /-- Bits beyond the capacity are not set. -/
  below : ∀ i ∈ members, i < s.capacity

/-- A word can be read if it is one of those of the set; its bits tell its members. -/
theorem Shows.word (h : s.Shows members) (hk : k < s.words.size) :
    ∃ w, s.word k = .ok w ∧ ∀ b < 64, w.getLsbD b = decide (k * 64 + b ∈ members) := by
  refine ⟨s.words[k], ?_, ?_⟩
  · simp only [WordSet.word, Array.getElem?_eq_getElem hk]
  · intro b hb
    rw [← h.bit, WordSet.bit]
    have hword : (k * 64 + b) / 64 = k := by omega
    have hbit : (k * 64 + b) % 64 = b := by omega
    rw [hword, hbit, Array.getD_eq_getD_getElem?, Array.getElem?_eq_getElem hk, Option.getD_some]

/-- Every index below the capacity lies in a word. -/
theorem Shows.div_lt (h : s.Shows members) (hi : i < s.capacity) : i / 64 < s.words.size := by
  rw [h.size]
  omega

/-- Every member lies in a word. -/
theorem Shows.lt_of_mem (h : s.Shows members) (hi : i ∈ members) : i < s.words.size * 64 := by
  have hbelow := h.below i hi
  rw [h.size]
  omega

/-! ### New sets -/

theorem getD_replicate (n : Nat) (w : Word64) (k : Nat) :
    (Array.replicate n w).getD k 0 = if k < n then w else 0 := by
  rw [Array.getD_eq_getD_getElem?, Array.getElem?_replicate]
  split <;> rfl

theorem getD_setIfInBounds {words : Array Word64} (hk : k < words.size) (w : Word64) (j : Nat) :
    (words.setIfInBounds k w).getD j 0 = if j = k then w else words.getD j 0 := by
  simp only [Array.getD_eq_getD_getElem?, Array.getElem?_setIfInBounds]
  by_cases hj : j = k
  · subst hj
    rw [if_pos rfl, if_pos hk, if_pos rfl, Option.getD_some]
  · rw [if_neg (Ne.symm hj), if_neg hj]

/-- The bits of full words. -/
theorem getLsbD_full (n k b : Nat) :
    ((Array.replicate n Word64.full).getD k 0).getLsbD b = decide (k < n ∧ b < 64) := by
  rw [getD_replicate]
  by_cases hk : k < n
  · simp only [hk, if_true, Word64.full, BitVec.getLsbD_allOnes, true_and]
  · simp only [hk, if_false, false_and, decide_false]
    exact BitVec.getLsbD_zero

/-- A new set has the members that it is asked for. -/
theorem create_shows (capacity : Nat) (filled : Bool) :
    ∃ s, create capacity filled = .ok s ∧ s.capacity = capacity
      ∧ s.Shows (IndexChange.initial capacity filled) := by
  have hrest : capacity % 64 < 64 := Nat.mod_lt _ (by decide)
  have hbelow : ∀ filled, ∀ i ∈ IndexChange.initial capacity filled, i < capacity := by
    intro filled i hi
    cases filled with
    | true => exact Finset.mem_range.mp hi
    | false => exact absurd hi (Finset.notMem_empty i)
  cases filled with
  | false =>
    refine ⟨_, rfl, rfl, Array.size_replicate, fun i => ?_, hbelow false⟩
    have hnone : i ∉ IndexChange.initial capacity false := Finset.notMem_empty i
    rw [bit, getD_replicate, decide_eq_false hnone]
    split <;> exact BitVec.getLsbD_zero
  | true =>
    have hmem : ∀ i, i ∈ IndexChange.initial capacity true ↔ i < capacity := fun i =>
      Finset.mem_range
    by_cases hcut : capacity % 64 = 0
    · refine ⟨⟨Array.replicate ((capacity + 63) / 64) Word64.full, capacity⟩, ?_, rfl,
        Array.size_replicate, fun i => ?_, hbelow true⟩
      · simp [create, Word64.size, hcut, pure, Except.pure]
      · rw [bit, getLsbD_full, decide_eq_decide, hmem]
        omega
    · -- the last word, which is the one of the capacity, keeps the bits below the capacity
      have hlast : (capacity + 63) / 64 - 1 = capacity / 64 := by omega
      refine ⟨⟨(Array.replicate ((capacity + 63) / 64) Word64.full).setIfInBounds (capacity / 64)
        (BitVec.twoPow 64 (capacity % 64) - 1), capacity⟩, ?_, rfl,
        Array.size_setIfInBounds.trans Array.size_replicate, fun i => ?_, hbelow true⟩
      · simp [create, Word64.size, hcut, Word64.single_eq hrest, hlast, bind, Except.bind,
          pure, Except.pure]
      · have hword : capacity / 64 < (Array.replicate ((capacity + 63) / 64) Word64.full).size := by
          rw [Array.size_replicate]
          omega
        rw [bit, getD_setIfInBounds hword]
        split
        next heq =>
          rw [Word64.getLsbD_twoPow_sub_one hrest, decide_eq_decide, hmem]
          omega
        next hne =>
          rw [getLsbD_full, decide_eq_decide, hmem]
          omega

/-! ### Changes -/

/-- Combining the word of an index with the bit of the index decides this bit and no other. -/
theorem Shows.combine (h : s.Shows members) (hi : i < s.capacity)
    (change : Word64 → Word64 → Word64) {member : Bool}
    (hchange : ∀ w b, b < 64 → (change w (BitVec.twoPow 64 (i % 64))).getLsbD b
      = if b = i % 64 then member else w.getLsbD b) :
    ∃ t, s.combine i change = .ok t ∧ t.capacity = s.capacity ∧ t.words.size = s.words.size
      ∧ ∀ j, t.bit j = if j = i then member else s.bit j := by
  have hbit : i % 64 < 64 := Nat.mod_lt _ (by decide)
  have hword := h.div_lt hi
  refine ⟨⟨s.words.setIfInBounds (i / 64) (change (s.words.getD (i / 64) 0)
    (BitVec.twoPow 64 (i % 64))), s.capacity⟩, ?_, rfl, Array.size_setIfInBounds, ?_⟩
  · simp only [WordSet.combine, WordSet.word, Word64.size, Array.getD_eq_getD_getElem?,
      Array.getElem?_eq_getElem hword, Word64.single_eq hbit, bind, Except.bind, pure, Except.pure,
      Option.getD_some]
  · intro j
    rw [WordSet.bit, getD_setIfInBounds hword]
    by_cases hj : j / 64 = i / 64
    · have hsame : j % 64 = i % 64 ↔ j = i := by omega
      rw [if_pos hj, hchange _ _ (Nat.mod_lt _ (by decide)), WordSet.bit, hj]
      simp only [hsame]
    · have hne : j ≠ i := fun heq => hj (congrArg (· / 64) heq)
      rw [if_neg hj, if_neg hne, WordSet.bit]

theorem Shows.contains (h : s.Shows members) (i : Nat) :
    s.contains i = .ok (decide (i ∈ members)) := by
  have hbit : i % 64 < 64 := Nat.mod_lt _ (by decide)
  by_cases hi : i < s.capacity
  · obtain ⟨w, hword, hmem⟩ := h.word (h.div_lt hi)
    have hindex : i / 64 * 64 + i % 64 = i := by omega
    simp only [WordSet.contains, hi, if_true, Word64.size, hword, Word64.single_eq hbit, bind,
      Except.bind, pure, Except.pure]
    rw [Word64.and_twoPow_ne_zero w hbit, hmem _ hbit, hindex]
  · have hout : i ∉ members := fun hmem => hi (h.below i hmem)
    simp only [WordSet.contains, hi, if_false, hout, decide_false, pure, Except.pure]

theorem Shows.insert (h : s.Shows members) (hi : i < s.capacity) :
    ∃ t, s.insert i = .ok (decide (i ∉ members), t) ∧ t.capacity = s.capacity
      ∧ t.Shows (Insert.insert i members) := by
  have hbits : ∀ (w : Word64) (b : Nat), b < 64 → (w ||| BitVec.twoPow 64 (i % 64)).getLsbD b
      = if b = i % 64 then true else w.getLsbD b := by
    intro w b hb
    rw [BitVec.getLsbD_or, BitVec.getLsbD_twoPow]
    by_cases heq : b = i % 64
    · simp [heq, Nat.mod_lt]
    · simp [heq, Ne.symm heq]
  obtain ⟨t, ht, hcapacity, hsize, hbit⟩ := h.combine hi (fun w bit => w ||| bit) hbits
  refine ⟨t, ?_, hcapacity, ⟨by rw [hsize, hcapacity, h.size], fun j => ?_, fun j hj => ?_⟩⟩
  · simp only [WordSet.insert, h.contains, ht, bind, Except.bind, pure, Except.pure, decide_not]
  · rw [hbit, h.bit]
    by_cases heq : j = i <;> simp [heq]
  · rw [hcapacity]
    rcases Finset.mem_insert.mp hj with rfl | hj
    · exact hi
    · exact h.below j hj

theorem Shows.remove (h : s.Shows members) (hi : i < s.capacity) :
    ∃ t, s.remove i = .ok (decide (i ∈ members), t) ∧ t.capacity = s.capacity
      ∧ t.Shows (members.erase i) := by
  have hbits : ∀ (w : Word64) (b : Nat), b < 64 → (w &&& ~~~BitVec.twoPow 64 (i % 64)).getLsbD b
      = if b = i % 64 then false else w.getLsbD b := by
    intro w b hb
    rw [BitVec.getLsbD_and, BitVec.getLsbD_not, BitVec.getLsbD_twoPow]
    by_cases heq : b = i % 64
    · simp [heq, Nat.mod_lt]
    · simp [heq, Ne.symm heq, hb]
  obtain ⟨t, ht, hcapacity, hsize, hbit⟩ := h.combine hi (fun w bit => w &&& ~~~bit) hbits
  refine ⟨t, ?_, hcapacity, ⟨by rw [hsize, hcapacity, h.size], fun j => ?_, fun j hj => ?_⟩⟩
  · simp only [WordSet.remove, h.contains, ht, bind, Except.bind, pure, Except.pure]
  · rw [hbit, h.bit]
    by_cases heq : j = i <;> simp [heq]
  · rw [hcapacity]
    exact h.below j (Finset.mem_of_mem_erase hj)

/-! ### Searching upwards -/

/-- What a search upwards has left when it looks at word `k`. -/
structure LeftUp (members : Finset Nat) (start k : Nat) (w : Word64) : Prop where
  /-- The bits that are left are the members from the start on. -/
  bits : ∀ b < 64, w.getLsbD b = decide (k * 64 + b ∈ members ∧ start ≤ k * 64 + b)
  /-- The start is not in a later word. -/
  reached : start < (k + 1) * 64
  /-- No member from the start on is in an earlier word. -/
  earlier : ∀ i ∈ members, start ≤ i → k * 64 ≤ i

variable {w : Word64}

/-- If nothing is left of a word, the members from the start on are in later words. -/
theorem LeftUp.of_zero (h : LeftUp members start k 0) {i : Nat} (hi : i ∈ members)
    (hle : start ≤ i) : (k + 1) * 64 ≤ i := by
  have hfirst := h.earlier i hi hle
  by_contra hlt
  have hindex : k * 64 + (i - k * 64) = i := by omega
  have hset := h.bits (i - k * 64) (by omega)
  rw [hindex, decide_eq_true ⟨hi, hle⟩] at hset
  simp at hset

/-- After a word of which nothing is left, all members of the next one are left. -/
theorem LeftUp.next (h : LeftUp members start k 0)
    (hbits : ∀ b < 64, w.getLsbD b = decide ((k + 1) * 64 + b ∈ members)) :
    LeftUp members start (k + 1) w where
  bits b hb := by
    have hreached := h.reached
    have hle : start ≤ (k + 1) * 64 + b := by omega
    rw [hbits b hb, decide_eq_decide, and_iff_left hle]
  reached := Nat.lt_of_lt_of_le h.reached (Nat.mul_le_mul_right 64 (Nat.le_succ (k + 1)))
  earlier i hi hle := h.of_zero hi hle

/-- The lowest bit that is left is the least member from the start on. -/
theorem LeftUp.isLeast (h : LeftUp members start k w) (hw : w ≠ 0) :
    IsLeast {i | i ∈ members ∧ start ≤ i} (k * 64 + Word64.trailingZeros w) := by
  have hset : w.getLsbD (Word64.trailingZeros w) = true := BitVec.getLsbD_true_ctz_of_ne_zero hw
  have hlow : Word64.trailingZeros w < 64 := BitVec.lt_of_getLsbD hset
  rw [h.bits _ hlow, decide_eq_true_eq] at hset
  refine ⟨hset, ?_⟩
  intro j hj
  obtain ⟨hmem, hle⟩ := hj
  have hfirst := h.earlier j hmem hle
  by_contra hlt
  -- a smaller member would have its bit below the lowest one
  have hindex : k * 64 + (j - k * 64) = j := by omega
  have hbit := h.bits (j - k * 64) (by omega)
  have hclear : w.getLsbD (j - k * 64) = false :=
    BitVec.getLsbD_false_of_lt_ctz (show j - k * 64 < Word64.trailingZeros w by omega)
  rw [hindex, decide_eq_true ⟨hmem, hle⟩, hclear] at hbit
  cases hbit

theorem Shows.scanUp (h : s.Shows members) (hk : k < s.words.size)
    (hleft : LeftUp members start k w) :
    ∃ found, s.scanUp k w = .ok found ∧ IsLeast? {i | i ∈ members ∧ start ≤ i} found := by
  induction k, w using scanUp.induct (s := s) with
  | case1 k w hw =>
    have hleast := hleft.isLeast hw
    have hin : k * 64 + Word64.trailingZeros w < s.capacity := h.below _ hleast.1.1
    refine ⟨some (k * 64 + Word64.trailingZeros w), ?_, hleast⟩
    rw [WordSet.scanUp, if_pos hw]
    simp only [Word64.size, hin, if_true]
  -- a word that is used up hands the search on to the next one
  | case2 k w hw hnext ih =>
    obtain rfl : w = 0 := not_not.mp hw
    obtain ⟨next, hword, hbits⟩ := h.word hnext
    obtain ⟨found, hscan, hfound⟩ := ih next hnext (hleft.next hbits)
    refine ⟨found, ?_, hfound⟩
    rw [WordSet.scanUp, if_neg hw, if_pos hnext, hword]
    exact hscan
  | case3 k w hw hlast =>
    obtain rfl : w = 0 := not_not.mp hw
    refine ⟨none, ?_, Set.eq_empty_of_forall_notMem ?_⟩
    · rw [WordSet.scanUp, if_neg hw, if_neg hlast]
    · intro i hi
      have hlater := hleft.of_zero hi.1 hi.2
      have hword := h.lt_of_mem hi.1
      omega

theorem Shows.next (h : s.Shows members) (start : Nat) :
    ∃ found, s.next? start = .ok found ∧ IsLeast? {i | i ∈ members ∧ start ≤ i} found := by
  have hdistance : start % 64 < 64 := Nat.mod_lt _ (by decide)
  by_cases hstart : start < s.capacity
  · obtain ⟨w, hword, hbits⟩ := h.word (h.div_lt hstart)
    -- the mask takes what lies before the start out of the first word
    have hleft : LeftUp members start (start / 64) (w &&& Word64.full <<< (start % 64)) :=
      { bits := by
          intro b hb
          have hle : start % 64 ≤ b ↔ start ≤ start / 64 * 64 + b := by omega
          rw [getLsbD_maskUp, hbits b hb, ← Bool.decide_and]
          simp only [hle, and_comm]
        reached := by omega
        earlier := by
          intro i _ hle
          omega }
    obtain ⟨found, hscan, hfound⟩ := h.scanUp (h.div_lt hstart) hleft
    refine ⟨found, ?_, hfound⟩
    simp only [WordSet.next?, hstart, if_true, Word64.size, hword, Word64.shiftUp_eq hdistance,
      bind, Except.bind]
    exact hscan
  · refine ⟨none, ?_, Set.eq_empty_of_forall_notMem ?_⟩
    · simp only [WordSet.next?, hstart, if_false, pure, Except.pure]
    · intro i hi
      exact hstart (Nat.lt_of_le_of_lt hi.2 (h.below i hi.1))

/-! ### Searching downwards -/

/-- What a search downwards has left when it looks at word `k`. -/
structure LeftDown (members : Finset Nat) (last k : Nat) (w : Word64) : Prop where
  /-- The bits that are left are the members up to the last one. -/
  bits : ∀ b < 64, w.getLsbD b = decide (k * 64 + b ∈ members ∧ k * 64 + b ≤ last)
  /-- The last one is not in an earlier word. -/
  reached : k * 64 ≤ last
  /-- No member up to the last one is in a later word. -/
  later : ∀ i ∈ members, i ≤ last → i < (k + 1) * 64

variable {last : Nat}

/-- If nothing is left of a word, the members up to the last one are in earlier words. -/
theorem LeftDown.of_zero (h : LeftDown members last k 0) {i : Nat} (hi : i ∈ members)
    (hle : i ≤ last) : i < k * 64 := by
  have hend := h.later i hi hle
  by_contra hlt
  have hindex : k * 64 + (i - k * 64) = i := by omega
  have hset := h.bits (i - k * 64) (by omega)
  rw [hindex, decide_eq_true ⟨hi, hle⟩] at hset
  simp at hset

/-- Before a word of which nothing is left, all members of the one before it are left. -/
theorem LeftDown.next (h : LeftDown members last (k + 1) 0)
    (hbits : ∀ b < 64, w.getLsbD b = decide (k * 64 + b ∈ members)) :
    LeftDown members last k w where
  bits b hb := by
    have hreached := h.reached
    have hle : k * 64 + b ≤ last := by omega
    rw [hbits b hb, decide_eq_decide, and_iff_left hle]
  reached := by
    have hreached := h.reached
    omega
  later i hi hle := h.of_zero hi hle

/-- The highest bit that is left is the greatest member up to the last one. -/
theorem LeftDown.isGreatest (h : LeftDown members last k w) (hw : w ≠ 0) :
    IsGreatest {i | i ∈ members ∧ i ≤ last} (k * 64 + 64 - 1 - Word64.leadingZeros w) := by
  have hset : w.getLsbD (64 - 1 - Word64.leadingZeros w) = true :=
    BitVec.getLsbD_true_clz_of_ne_zero (by decide) hw
  have hzeros : Word64.leadingZeros w < 64 := BitVec.clz_lt_iff_ne_zero.mpr hw
  have hplace : k * 64 + (64 - 1 - Word64.leadingZeros w)
      = k * 64 + 64 - 1 - Word64.leadingZeros w := by omega
  rw [h.bits _ (by omega), decide_eq_true_eq, hplace] at hset
  refine ⟨hset, ?_⟩
  intro j hj
  obtain ⟨hmem, hle⟩ := hj
  have hend := h.later j hmem hle
  by_contra hlt
  -- a greater member would have its bit among the leading zeros
  have hindex : k * 64 + (j - k * 64) = j := by omega
  have hbit := h.bits (j - k * 64) (by omega)
  have hclear : w.getLsbD (j - k * 64) = false := Word64.getLsbD_of_leadingZeros (by omega)
  rw [hindex, decide_eq_true ⟨hmem, hle⟩, hclear] at hbit
  cases hbit

theorem Shows.scanDown (h : s.Shows members) (hk : k < s.words.size)
    (hleft : LeftDown members last k w) :
    ∃ found, s.scanDown k w = .ok found ∧ IsGreatest? {i | i ∈ members ∧ i ≤ last} found := by
  -- the answer of the word at hand, if anything is left of it
  have hhere : ∀ {k : Nat} {w : Word64}, LeftDown members last k w → w ≠ 0 →
      ∃ found, s.scanDown k w = .ok found ∧ IsGreatest? {i | i ∈ members ∧ i ≤ last} found := by
    intro k w hleft hw
    refine ⟨some (k * 64 + 64 - 1 - Word64.leadingZeros w), ?_, hleft.isGreatest hw⟩
    rw [WordSet.scanDown.eq_def, if_pos hw]
    rfl
  induction k generalizing w with
  | zero =>
    by_cases hw : w ≠ 0
    · exact hhere hleft hw
    obtain rfl : w = 0 := not_not.mp hw
    refine ⟨none, by rw [WordSet.scanDown, if_neg hw], Set.eq_empty_of_forall_notMem ?_⟩
    intro i hi
    have hearlier := hleft.of_zero hi.1 hi.2
    omega
  | succ k ih =>
    by_cases hw : w ≠ 0
    · exact hhere hleft hw
    obtain rfl : w = 0 := not_not.mp hw
    have hnext : k < s.words.size := Nat.lt_of_succ_lt hk
    obtain ⟨next, hword, hbits⟩ := h.word hnext
    obtain ⟨found, hscan, hfound⟩ := ih hnext (hleft.next hbits)
    refine ⟨found, ?_, hfound⟩
    rw [WordSet.scanDown, if_neg hw, hword]
    exact hscan

theorem Shows.previous (h : s.Shows members) (start : Nat) :
    ∃ found, s.previous? start = .ok found
      ∧ IsGreatest? {i | i ∈ members ∧ i ≤ start} found := by
  by_cases hempty : s.capacity = 0
  · refine ⟨none, ?_, Set.eq_empty_of_forall_notMem ?_⟩
    · simp only [WordSet.previous?, hempty, if_true, pure, Except.pure]
    · intro i hi
      have hin := h.below i hi.1
      omega
  -- no member is beyond the capacity, so the search may start below it
  have hset : {i | i ∈ members ∧ i ≤ start} = {i | i ∈ members ∧ i ≤ min start (s.capacity - 1)} := by
    ext i
    refine and_congr_right fun hi => ?_
    have hin := h.below i hi
    omega
  rw [hset]
  generalize hlast : min start (s.capacity - 1) = last
  have hdistance : 63 - last % 64 < 64 := by omega
  have hbit : last % 64 < 64 := Nat.mod_lt _ (by decide)
  have hin : last / 64 < s.words.size := h.div_lt (by omega)
  obtain ⟨w, hword, hbits⟩ := h.word hin
  have hleft : LeftDown members last (last / 64) (w &&& Word64.full >>> (63 - last % 64)) :=
    { bits := by
        intro b hb
        have hle : b ≤ last % 64 ↔ last / 64 * 64 + b ≤ last := by omega
        rw [Word64.getLsbD_maskDown w hbit, hbits b hb, ← Bool.decide_and]
        simp only [hle, and_comm]
      reached := by omega
      later := by
        intro i _ hle
        omega }
  obtain ⟨found, hscan, hfound⟩ := h.scanDown hin hleft
  refine ⟨found, ?_, hfound⟩
  simp only [WordSet.previous?, hempty, if_false, hlast, Word64.size, hword,
    Word64.shiftDown_eq hdistance, bind, Except.bind]
  exact hscan

/-! ### Walking -/

/-- The members from a number on, in ascending order. -/
def tail (members : Finset Nat) (start : Nat) : List Nat :=
  (members.filter fun i => start ≤ i).sort

theorem tail_eq_nil (h : IsLeast? {i | i ∈ members ∧ start ≤ i} none) :
    tail members start = [] := by
  have hnone : (members.filter fun i => start ≤ i) = ∅ := by
    refine Finset.filter_eq_empty_iff.mpr fun i hi hle => ?_
    exact Set.eq_empty_iff_forall_notMem.mp h i ⟨hi, hle⟩
  rw [tail, hnone, Finset.sort_empty]

theorem tail_eq_cons (h : IsLeast? {i | i ∈ members ∧ start ≤ i} (some i)) :
    tail members start = i :: tail members (i + 1) := by
  obtain ⟨⟨hmem, hle⟩, hleast⟩ := h
  -- nothing lies between the start and the least member from there on
  have hset : (members.filter fun j => start ≤ j)
      = Insert.insert i (members.filter fun j => i + 1 ≤ j) := by
    ext j
    simp only [Finset.mem_filter, Finset.mem_insert]
    constructor
    · intro hj
      have hij : i ≤ j := hleast hj
      rcases Nat.eq_or_lt_of_le hij with heq | hlt
      · exact Or.inl heq.symm
      · exact Or.inr ⟨hj.1, hlt⟩
    · rintro (rfl | hj)
      · exact ⟨hmem, hle⟩
      · exact ⟨hj.1, by omega⟩
  rw [tail, hset, Finset.sort_insert, tail]
  · intro j hj
    have hlt := (Finset.mem_filter.mp hj).2
    omega
  · intro hi
    have hlt := (Finset.mem_filter.mp hi).2
    omega

/-- Walking gathers the members from the start on, up to the first one beyond the end. -/
theorem Shows.walk {α : Type} (h : s.Shows members) (beyond : Nat → Bool) (gather : α → Nat → α)
    (gathered : α) {current : Option Nat} (hstart : IsLeast? {i | i ∈ members ∧ start ≤ i} current) :
    s.walk beyond gather gathered current
      = .ok (((tail members start).takeWhile fun i => !beyond i).foldl gather gathered) := by
  generalize htail : tail members start = rest
  induction rest generalizing start gathered current with
  | nil =>
    cases current with
    | none => rw [WordSet.walk]; rfl
    | some i =>
      rw [tail_eq_cons hstart] at htail
      cases htail
  | cons i rest ih =>
    cases current with
    | none =>
      rw [tail_eq_nil hstart] at htail
      cases htail
    | some j =>
      rw [tail_eq_cons hstart] at htail
      obtain ⟨rfl, hrest⟩ := List.cons.inj htail
      rw [WordSet.walk]
      cases hbeyond : beyond j with
      | true => simp [hbeyond]
      | false =>
        obtain ⟨found, hnext, hfound⟩ := h.next (j + 1)
        rw [if_neg Bool.false_ne_true, List.takeWhile_cons_of_pos (by simp [hbeyond]),
          List.foldl_cons]
        split
        next following hfollowing =>
          obtain rfl : found = following := Except.ok.inj (hnext.symm.trans hfollowing)
          exact ih (gather gathered j) hfound hrest
        next f hfault =>
          rw [hnext] at hfault
          cases hfault

/-- In an ascending list the numbers up to an end are those that come before the first one beyond
    it. -/
theorem takeWhile_eq_filter {l : List Nat} (h : l.Pairwise (· < ·)) (upper : Nat) :
    (l.takeWhile fun i => !decide (upper < i)) = l.filter fun i => !decide (upper < i) := by
  induction l with
  | nil => rfl
  | cons a rest ih =>
    obtain ⟨hfirst, hrest⟩ := List.pairwise_cons.mp h
    by_cases hend : upper < a
    · have hnone : rest.filter (fun i => !decide (upper < i)) = [] := by
        refine List.filter_eq_nil_iff.mpr fun i hi => ?_
        have hlt := hfirst i hi
        simp only [Bool.not_eq_true', decide_eq_false_iff_not, not_not]
        omega
      simp [hend, hnone]
    · simp [hend, ih hrest]

theorem pairwise_tail (members : Finset Nat) (start : Nat) :
    (tail members start).Pairwise (· < ·) :=
  (Finset.sortedLT_sort _).pairwise

/-- The members from one number to another one, counted on the way. -/
theorem length_takeWhile_tail (members : Finset Nat) (lower upper : Nat) :
    ((tail members lower).takeWhile fun i => !decide (upper < i)).length
      = (members.filter fun i => lower ≤ i ∧ i ≤ upper).card := by
  have hpairwise := pairwise_tail members lower
  have hnodup : ((tail members lower).filter fun i => !decide (upper < i)).Nodup :=
    (hpairwise.imp Nat.ne_of_lt).filter _
  rw [takeWhile_eq_filter hpairwise, ← List.toFinset_card_of_nodup hnodup, List.toFinset_filter,
    tail, Finset.sort_toFinset, Finset.filter_filter]
  refine congrArg Finset.card (Finset.filter_congr fun i _ => ?_)
  simp only [Bool.not_eq_true', decide_eq_false_iff_not, not_lt]

theorem Shows.count (h : s.Shows members) (lower upper : Nat) :
    s.count lower upper = .ok (members.filter fun i => lower ≤ i ∧ i ≤ upper).card := by
  obtain ⟨first, hnext, hfirst⟩ := h.next lower
  have hwalk := h.walk (fun i => decide (upper < i)) (fun n _ => n + 1) 0 hfirst
  have hcount : ∀ (l : List Nat) (n : Nat), l.foldl (fun n _ => n + 1) n = n + l.length := by
    intro l
    induction l with
    | nil => exact fun n => rfl
    | cons a rest ih =>
      intro n
      rw [List.foldl_cons, ih, List.length_cons]
      omega
  rw [hcount, Nat.zero_add, length_takeWhile_tail] at hwalk
  simp only [WordSet.count, hnext, bind, Except.bind]
  exact hwalk

theorem Shows.toList (h : s.Shows members) : s.toList = .ok members.sort := by
  obtain ⟨first, hnext, hfirst⟩ := h.next 0
  have hwalk := h.walk (fun _ => false) Array.push #[] hfirst
  have hall : tail members 0 = members.sort := by
    rw [tail, Finset.filter_true_of_mem fun i _ => Nat.zero_le i]
  have hpush : (members.sort.foldl Array.push #[]).toList = members.sort := by
    simp
  have hwhole : members.sort.takeWhile (fun _ => !false) = members.sort :=
    List.takeWhile_eq_self_iff.mpr fun _ _ => rfl
  rw [hall, hwhole] at hwalk
  simp only [WordSet.toList, hnext, hwalk, hpush, bind, Except.bind, pure, Except.pure]

/-! ### The promise -/

/-- Sets of indices kept in words. -/
def layout : Layout WordSet where
  create := create
  insert := insert
  remove := remove
  contains := contains
  next? := next?
  previous? := previous?
  count := count
  toList := toList

/-- A change below the capacity is reported truly, and the words have the members after it. -/
theorem Shows.change (h : s.Shows members) {c : IndexChange} (hc : c.index < s.capacity) :
    ∃ t, layout.change s c = .ok (decide (c.apply members ≠ members), t)
      ∧ t.capacity = s.capacity ∧ t.Shows (c.apply members) := by
  cases c with
  | insert i =>
    obtain ⟨t, ht, hcapacity, hshows⟩ := h.insert hc
    refine ⟨t, ?_, hcapacity, hshows⟩
    rw [decide_eq_decide.mpr IndexChange.apply_insert_ne]
    exact ht
  | remove i =>
    obtain ⟨t, ht, hcapacity, hshows⟩ := h.remove hc
    refine ⟨t, ?_, hcapacity, hshows⟩
    rw [decide_eq_decide.mpr IndexChange.apply_remove_ne]
    exact ht

theorem Shows.answers (h : s.Shows members) : layout.Answers s members where
  contains := h.contains
  next := h.next
  previous := h.previous
  count := h.count
  toList := h.toList

/-- Words keep the members of their sets. -/
def simulation : Simulation layout where
  shows s capacity members := s.capacity = capacity ∧ s.Shows members
  create := create_shows
  change := by
    rintro s capacity members c ⟨rfl, h⟩ hc
    exact h.change hc
  answers h := h.2.answers

end WordSet

/-- Both layouts keep sets of indices: made with any capacity, empty or filled, and changed at any
    indices below the capacity, a set reports which changes changed its members, and answers
    whatever it is asked as its members tell, without a fault. -/
theorem Layout.refine_members (capacity : Nat) (filled : Bool) (changes : List IndexChange)
    (h : ∀ c ∈ changes, c.index < capacity) :
    WordSet.layout.Refines capacity filled changes
      ∧ BitSet.layout.Refines capacity filled changes :=
  ⟨WordSet.simulation.refines filled changes h, BitSet.simulation.refines filled changes h⟩

/-- Changes on both sides of the boundary between the second word and the third one, which has
    two indices only. -/
theorem Layout.refine_members_straddling :
    let changes : List IndexChange := [.remove 127, .remove 128, .remove 128, .insert 127]
    (∀ c ∈ changes, c.index < 130)
      ∧ IndexChange.reports (IndexChange.initial 130 true) changes = [true, true, false, true]
      ∧ WordSet.layout.Refines 130 true changes ∧ BitSet.layout.Refines 130 true changes :=
  ⟨by decide, by decide +kernel, Layout.refine_members 130 true _ (by decide)⟩

end FiniteDomain
