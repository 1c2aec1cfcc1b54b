import FiniteDomain.Fault

/-! # Sets of indices in words

    A `WordSet` is a set of natural numbers below a capacity, kept in words of 64
    bits: index `i` is bit `i % 64` of word `i / 64`.  The last word may have bits
    beyond the capacity; an index there is never a member.

    A search masks the bits of its first word that it must not see and goes on
    from word to word until one has a bit left.  `count` and `toList` go from
    member to member with `next?`.

    A word that does not exist and a shift by the size of a word are faults. -/

namespace FiniteDomain

/-! ### Words -/

/-- A word; bit 0 is the least significant one. -/
abbrev Word64 := BitVec 64

namespace Word64

/-- The number of bits of a word. -/
def size : Nat := 64

/-- The word with all bits set. -/
def full : Word64 := BitVec.allOnes 64

/-- The word shifted towards its higher bits; the distance has to be less than its size. -/
def shiftUp (w : Word64) (distance : Nat) : Except Fault Word64 :=
  if distance < size then .ok (w <<< distance) else .error .overflow

/-- The word shifted towards its lower bits; the distance has to be less than its size. -/
def shiftDown (w : Word64) (distance : Nat) : Except Fault Word64 :=
  if distance < size then .ok (w >>> distance) else .error .overflow

/-- The word with one bit set. -/
def single (bit : Nat) : Except Fault Word64 := shiftUp 1 bit

/-- The number of bits below the lowest one that is set. -/
def trailingZeros (w : Word64) : Nat := w.ctz.toNat

/-- The number of bits above the highest one that is set. -/
def leadingZeros (w : Word64) : Nat := w.clz.toNat

end Word64

/-! ### Sets -/

/-- A set of indices below a capacity, in words. -/
structure WordSet where
  /-- The words; bit `b` of word `k` is index `64 * k + b`. -/
  words : Array Word64
  /-- Members are below this number. -/
  capacity : Nat
deriving DecidableEq, Repr

namespace WordSet

/-- The set without members, or with all indices below the capacity as members. -/
def create (capacity : Nat) (filled : Bool) : Except Fault WordSet := do
  let words := Array.replicate ((capacity + 63) / Word64.size) (if filled then Word64.full else 0)
  if filled ∧ capacity % Word64.size ≠ 0 then
    -- the bits of the last word that are beyond the capacity are not set
    let first ← Word64.single (capacity % Word64.size)
    return ⟨words.setIfInBounds (words.size - 1) (first - 1), capacity⟩
  else return ⟨words, capacity⟩

/-- The word with a number. -/
def word (s : WordSet) (k : Nat) : Except Fault Word64 :=
  match s.words[k]? with
  | some w => .ok w
  | none => .error .indexOutOfBounds

/-! ### Membership -/

/-- The index is below the capacity and its bit is set. -/
def contains (s : WordSet) (i : Nat) : Except Fault Bool := do
  if i < s.capacity then
    let w ← s.word (i / Word64.size)
    let bit ← Word64.single (i % Word64.size)
    return w &&& bit != 0
  else return false

/-- Combines the word of an index with the bit of the index. -/
def combine (s : WordSet) (i : Nat) (change : Word64 → Word64 → Word64) : Except Fault WordSet := do
  let w ← s.word (i / Word64.size)
  let bit ← Word64.single (i % Word64.size)
  return { s with words := s.words.setIfInBounds (i / Word64.size) (change w bit) }

/-- Sets the bit of an index; tells whether the index was no member. -/
def insert (s : WordSet) (i : Nat) : Except Fault (Bool × WordSet) := do
  let present ← s.contains i
  return (!present, ← s.combine i fun w bit => w ||| bit)

/-- Clears the bit of an index; tells whether the index was a member. -/
def remove (s : WordSet) (i : Nat) : Except Fault (Bool × WordSet) := do
  let present ← s.contains i
  return (present, ← s.combine i fun w bit => w &&& ~~~bit)

/-! ### Searching -/

/-- The lowest index with a bit in `w`, which is what is left of word `k`, or in the words after
    it. -/
def scanUp (s : WordSet) (k : Nat) (w : Word64) : Except Fault (Option Nat) :=
  if w ≠ 0 then
    let i := k * Word64.size + Word64.trailingZeros w
    .ok (if i < s.capacity then some i else none)
  else if k + 1 < s.words.size then do
    s.scanUp (k + 1) (← s.word (k + 1))
  else .ok none
termination_by s.words.size - k

/-- The least member that is at least `start`. -/
def next? (s : WordSet) (start : Nat) : Except Fault (Option Nat) := do
  if start < s.capacity then
    let w ← s.word (start / Word64.size)
    let mask ← Word64.shiftUp Word64.full (start % Word64.size)
    s.scanUp (start / Word64.size) (w &&& mask)
  else return none

/-- The highest index with a bit in `w`, which is what is left of word `k`, or in the words before
    it. -/
def scanDown (s : WordSet) (k : Nat) (w : Word64) : Except Fault (Option Nat) :=
  if w ≠ 0 then .ok (some (k * Word64.size + Word64.size - 1 - Word64.leadingZeros w))
  else
    match k with
    | 0 => .ok none
    | k + 1 => do s.scanDown k (← s.word k)

/-- The greatest member that is at most `start`. -/
def previous? (s : WordSet) (start : Nat) : Except Fault (Option Nat) := do
  if s.capacity = 0 then return none
  else
    let last := min start (s.capacity - 1)
    let w ← s.word (last / Word64.size)
    let mask ← Word64.shiftDown Word64.full (Word64.size - 1 - last % Word64.size)
    s.scanDown (last / Word64.size) (w &&& mask)

/-! ### Bounds of a search -/

/-- A search upwards sees the bits from its distance on. -/
theorem getLsbD_maskUp (w : Word64) (distance b : Nat) :
    (w &&& Word64.full <<< distance).getLsbD b = (decide (distance ≤ b) && w.getLsbD b) := by
  rw [BitVec.getLsbD_and, BitVec.getLsbD_shiftLeft, Word64.full, BitVec.getLsbD_allOnes]
  by_cases hb : b < 64
  · by_cases hle : distance ≤ b
    · have hin : b - distance < 64 := by omega
      simp only [hb, hle, hin, Nat.not_lt_of_le hle, decide_true, decide_false, Bool.not_false,
        Bool.and_true, Bool.true_and]
    · simp only [hle, Nat.lt_of_not_le hle, decide_true, decide_false, Bool.not_true,
        Bool.and_false, Bool.false_and]
  · rw [BitVec.getLsbD_of_ge w b (Nat.le_of_not_lt hb), Bool.false_and, Bool.and_false]

/-- What is found upwards is below the capacity, and not below a bound that all bits on the way
    obey. -/
theorem scanUp_bounds {s : WordSet} {start k i : Nat} {w : Word64}
    (hfirst : ∀ b, w.getLsbD b = true → start ≤ k * 64 + b) (hrest : start ≤ (k + 1) * 64)
    (h : s.scanUp k w = .ok (some i)) : start ≤ i ∧ i < s.capacity := by
  induction k, w using scanUp.induct (s := s) with
  | case1 k w hw =>
    have hle := hfirst _ (BitVec.getLsbD_true_ctz_of_ne_zero hw)
    rw [scanUp, if_pos hw] at h
    simp only [Except.ok.injEq, Option.ite_none_right_eq_some, Option.some.injEq] at h
    obtain ⟨hlt, rfl⟩ := h
    exact ⟨hle, hlt⟩
  | case2 k w hw hk ih =>
    rw [scanUp, if_neg hw, if_pos hk] at h
    cases hword : s.word (k + 1) with
    | error f =>
      rw [hword] at h
      cases h
    | ok next =>
      rw [hword] at h
      -- the bits of the words after this one are not below those of the next one
      have hlater : (k + 1) * 64 ≤ (k + 1 + 1) * 64 := Nat.mul_le_mul_right 64 (Nat.le_succ _)
      exact ih next (fun b _ => Nat.le_trans hrest (Nat.le_add_right _ b))
        (Nat.le_trans hrest hlater) h
  | case3 k w hw hk =>
    rw [scanUp, if_neg hw, if_neg hk] at h
    cases h

/-- What is found is at least what the search starts from, and below the capacity. -/
theorem next?_bounds {s : WordSet} {start i : Nat} (h : s.next? start = .ok (some i)) :
    start ≤ i ∧ i < s.capacity := by
  unfold next? at h
  split at h
  next hlt =>
    simp only [Word64.size] at h
    cases hword : s.word (start / 64) with
    | error f =>
      rw [hword] at h
      cases h
    | ok w =>
      have hdistance : start % 64 < 64 := Nat.mod_lt _ (by decide)
      have hscan : s.scanUp (start / 64) (w &&& Word64.full <<< (start % 64)) = .ok (some i) := by
        simpa only [hword, Word64.shiftUp, Word64.size, hdistance, if_true, bind, Except.bind]
          using h
      refine scanUp_bounds (fun b hb => ?_) (by omega) hscan
      rw [getLsbD_maskUp, Bool.and_eq_true, decide_eq_true_eq] at hb
      omega
  next => cases h

/-! ### Walking -/

/-- Goes from a member to the members after it, up to the first one that is beyond an end, and
    gathers them. -/
def walk {α : Type} (s : WordSet) (beyond : Nat → Bool) (gather : α → Nat → α) (gathered : α)
    (current : Option Nat) : Except Fault α :=
  match current with
  | none => .ok gathered
  | some i =>
    if beyond i then .ok gathered
    else
      match _hnext : s.next? (i + 1) with
      | .ok following => s.walk beyond gather (gather gathered i) following
      | .error f => .error f
termination_by current.elim 0 fun i => s.capacity - i + 1
decreasing_by
  cases following with
  | none => simp
  | some j =>
    obtain ⟨hle, hlt⟩ := next?_bounds _hnext
    simp only [Option.elim_some]
    omega

/-- The number of members from `lower` to `upper`, both included. -/
def count (s : WordSet) (lower upper : Nat) : Except Fault Nat := do
  s.walk (fun i => decide (upper < i)) (fun n _ => n + 1) 0 (← s.next? lower)

/-- All members in ascending order. -/
def toList (s : WordSet) : Except Fault (List Nat) := do
  return (← s.walk (fun _ => false) Array.push #[] (← s.next? 0)).toList

end WordSet

end FiniteDomain
