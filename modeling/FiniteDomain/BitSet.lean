import FiniteDomain.BitSet.Tree
import FiniteDomain.Fault

/-! # Sets of indices

    A `BitSet` is a set of natural numbers below a capacity, kept as a tree.
    `contains` is the view in which the operations are described: `insert` and
    `erase` change it at one index, `next?` and `previous?` look for the nearest
    member on either side, `countIn` counts the members of an interval,
    `membersIn` lists them and `toList` lists all members in ascending order.

    Storage is allotted in blocks of 64 slots.  The checked operations
    `insertChecked` and `eraseChecked` accept every index that has a slot, also
    when it is not below the capacity, and are a fault beyond; such a slot is
    never a member.

    A tree is kept instead of words, since a full or an empty set of any capacity
    takes one node of it; `WordSet` keeps the same sets in words. -/

namespace FiniteDomain

/-- A set of indices below a capacity. -/
structure BitSet where
  /-- The slots that are filled. -/
  filled : IndexTree
  /-- Members are below this number. -/
  capacity : Nat
deriving DecidableEq, Repr, Inhabited

namespace BitSet

/-! ### Construction -/

/-- The height of the tree for a capacity: it has room for every slot. -/
def heightFor (capacity : Nat) : Nat := (capacity + 63).log2 + 1

/-- The set without members. -/
def empty (capacity : Nat) : BitSet := ⟨.nothing, capacity⟩

/-- The set of all indices below the capacity. -/
def full (capacity : Nat) : BitSet := ⟨.firsts (heightFor capacity) capacity, capacity⟩

/-- The height of the tree. -/
def height (s : BitSet) : Nat := heightFor s.capacity

/-! ### Membership -/

/-- The index is below the capacity and its slot is filled. -/
def contains (s : BitSet) (i : Nat) : Bool :=
  decide (i < s.capacity) && s.filled.contains s.height i

/-- The number of slots: the capacity rounded up to a multiple of 64. -/
def slots (s : BitSet) : Nat := (s.capacity + 63) / 64 * 64

/-- The set with slot `i`, if there is one, filled or emptied. -/
def put (s : BitSet) (i : Nat) (member : Bool) : BitSet :=
  if i < s.slots then { s with filled := s.filled.put s.height i member } else s

/-- The set with slot `i` filled. -/
def insert (s : BitSet) (i : Nat) : BitSet := s.put i true

/-- The set with slot `i` emptied. -/
def erase (s : BitSet) (i : Nat) : BitSet := s.put i false

/-- Fills slot `i`; tells whether `i` was no member. -/
def insertChecked (s : BitSet) (i : Nat) : Except Fault (Bool × BitSet) :=
  if i < s.slots then .ok (!s.contains i, s.insert i) else .error .indexOutOfBounds

/-- Empties slot `i`; tells whether `i` was a member. -/
def eraseChecked (s : BitSet) (i : Nat) : Except Fault (Bool × BitSet) :=
  if i < s.slots then .ok (s.contains i, s.erase i) else .error .indexOutOfBounds

/-! ### Searching and counting -/

/-- The least member that is at least `start`. -/
def next? (s : BitSet) (start : Nat) : Option Nat :=
  (s.filled.next? s.height start).filter (· < s.capacity)

/-- The greatest member that is at most `start`. -/
def previous? (s : BitSet) (start : Nat) : Option Nat :=
  if s.capacity = 0 then none else s.filled.previous? s.height (min start (s.capacity - 1))

/-- The number of members from `lower` to `upper`, both included. -/
def countIn (s : BitSet) (lower upper : Nat) : Nat :=
  s.filled.countBelow s.height (min (upper + 1) s.capacity) - s.filled.countBelow s.height lower

/-- All members in ascending order. -/
def toList (s : BitSet) : List Nat := (s.filled.members s.height 0).filter (· < s.capacity)

/-- The first members from `start` on, at most `count`, in ascending order. -/
def membersFrom (s : BitSet) : (count start : Nat) → List Nat
  | 0, _ => []
  | count + 1, start =>
    match s.next? start with
    | none => []
    | some i => i :: s.membersFrom count (i + 1)

/-- The members from `lower` to `upper`, both included, in ascending order. -/
def membersIn (s : BitSet) (lower upper : Nat) : List Nat :=
  s.membersFrom (s.countIn lower upper) lower

/-! ### The view -/

@[simp] theorem capacity_put (s : BitSet) (i : Nat) (member : Bool) :
    (s.put i member).capacity = s.capacity := by
  unfold put
  split <;> rfl

@[simp] theorem capacity_insert (s : BitSet) (i : Nat) : (s.insert i).capacity = s.capacity :=
  s.capacity_put i true

@[simp] theorem capacity_erase (s : BitSet) (i : Nat) : (s.erase i).capacity = s.capacity :=
  s.capacity_put i false

/-- Every slot has room in the tree. -/
theorem lt_range_heightFor {capacity i : Nat} (h : i < capacity + 64) :
    i < IndexTree.range (heightFor capacity) := by
  have := (capacity + 63).lt_log2_self
  simp only [IndexTree.range, heightFor, Nat.one_shiftLeft]
  omega

@[simp] theorem contains_empty (capacity i : Nat) : (empty capacity).contains i = false := by
  simp [contains, empty]

@[simp] theorem contains_full (capacity i : Nat) :
    (full capacity).contains i = decide (i < capacity) := by
  by_cases h : i < capacity
  · have hi : i < IndexTree.range (heightFor capacity) := lt_range_heightFor (by omega)
    simp [contains, full, height, h, IndexTree.contains_firsts hi]
  · simp [contains, full, h]

theorem contains_put (s : BitSet) (i j : Nat) (member : Bool) :
    (s.put i member).contains j
      = if j = i then decide (j < s.capacity) && member else s.contains j := by
  by_cases h : j < s.capacity
  · have hj : j < IndexTree.range (heightFor s.capacity) := lt_range_heightFor (by omega)
    by_cases hslot : i < s.slots
    · have hi : i < IndexTree.range (heightFor s.capacity) :=
        lt_range_heightFor (by simp only [slots] at hslot; omega)
      simp only [contains, put, hslot, if_true, height, h, IndexTree.contains_put hi hj]
      by_cases hij : j = i <;> simp [hij]
    · have hij : j ≠ i := by simp only [slots] at hslot; omega
      simp [put, hslot, hij]
  · by_cases hij : j = i <;> simp [contains, h, hij]
    subst hij
    simp [h]

@[simp] theorem contains_insert (s : BitSet) (i j : Nat) :
    (s.insert i).contains j = (decide (j < s.capacity) && (decide (j = i) || s.contains j)) := by
  rw [insert, contains_put]
  by_cases hij : j = i
  · simp [hij]
  · by_cases h : j < s.capacity
    · simp [hij, h]
    · simp [hij, h, contains]

@[simp] theorem contains_erase (s : BitSet) (i j : Nat) :
    (s.erase i).contains j = (!decide (j = i) && s.contains j) := by
  by_cases hij : j = i <;> simp [erase, contains_put, hij]

theorem mem_toList {s : BitSet} {i : Nat} : i ∈ s.toList ↔ s.contains i = true := by
  simp only [toList, List.mem_filter, IndexTree.mem_members, contains, Bool.and_eq_true,
    decide_eq_true_eq]
  constructor
  · rintro ⟨⟨-, -, h⟩, hi⟩
    exact ⟨hi, h⟩
  · rintro ⟨hi, h⟩
    exact ⟨⟨Nat.zero_le i, lt_range_heightFor (by omega), h⟩, hi⟩

end BitSet

end FiniteDomain
