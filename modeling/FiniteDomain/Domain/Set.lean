import FiniteDomain.BitSet
import FiniteDomain.Domain.Outcome

/-! # Set domains

    The content of a set variable is a set of integers.  Its domain is a pair of
    sets: the *kernel* holds the elements that belong to every content, the
    *envelope* those that belong to some content.  Elements of the envelope
    outside the kernel are optional; the contents described are all sets between
    kernel and envelope.  Both are subsets of a fixed ground set and are stored as
    sets of its indices. -/

namespace FiniteDomain

/-- The sets between a kernel and an envelope. -/
structure SetDomain where
  /-- The elements that can occur at all, sorted and distinct. -/
  ground : Array Int
  /-- The indices of the elements of some content. -/
  envelope : BitSet
  /-- The indices of the elements of every content. -/
  kernel : BitSet
  /-- The number of elements of the envelope. -/
  envelopeSize : Nat
  /-- The number of elements of the kernel. -/
  kernelSize : Nat
deriving DecidableEq, Repr, Inhabited

namespace SetDomain

/-- How a change of a set domain is taken back. -/
inductive Entry where
  /-- The element with an index was removed from the envelope. -/
  | envelopeRemoval (index : Nat)
  /-- The element with an index was added to the kernel. -/
  | kernelAddition (index : Nat)
deriving DecidableEq, Repr, Inhabited

/-- All subsets of a ground set, which is sorted and without repetitions. -/
def subsetsOf (elements : List Int) : SetDomain :=
  { ground := elements.toArray
    envelope := BitSet.full elements.length
    kernel := BitSet.empty elements.length
    envelopeSize := elements.length
    kernelSize := 0 }

/-! ### Reading -/

/-- The last of the `size` positions from `base` on whose element is at most `e`, or `base` if
    there is none; the range is halved the given number of times. -/
def lastAtMost (ground : Array Int) (e : Int) : (halvings base size : Nat) → Nat
  | 0, base, _ => base
  | halvings + 1, base, size =>
    if e < ground.getD (base + size / 2) 0 then
      lastAtMost ground e halvings base (size - size / 2)
    else lastAtMost ground e halvings (base + size / 2) (size - size / 2)

/-- The index of an element of the ground set. -/
def index? (d : SetDomain) (e : Int) : Option Nat :=
  let i := lastAtMost d.ground e (d.ground.size.log2 + 1) 0 d.ground.size
  if d.ground[i]? = some e then some i else none

theorem lastAtMost_eq {ground : Array Int} (hs : ground.toList.Pairwise (· < ·)) {e : Int}
    {halvings base size j : Nat} (hbase : base ≤ j) (hj : j < base + size)
    (hsize : base + size ≤ ground.size) (hhalvings : size ≤ 1 <<< halvings)
    (he : ground[j]? = some e) : lastAtMost ground e halvings base size = j := by
  -- on the halvings: the index that is sought stays in the half that is kept
  induction halvings generalizing base size with
  | zero =>
    simp only [lastAtMost]
    omega
  | succ halvings ih =>
    have hmid : base + size / 2 < ground.size := by omega
    have hjs : j < ground.size := by omega
    have hje : ground[j] = e := by
      rw [Array.getElem?_eq_getElem hjs] at he
      exact Option.some.inj he
    rw [Nat.shiftLeft_succ] at hhalvings
    rw [List.pairwise_iff_getElem] at hs
    simp only [lastAtMost, Array.getD_eq_getD_getElem?, Array.getElem?_eq_getElem hmid,
      Option.getD_some]
    split
    next hlt =>
      apply ih hbase _ (by omega) (by omega)
      rcases Nat.lt_trichotomy j (base + size / 2) with h | h | h
      · omega
      · subst h; omega
      · have := hs _ _ hmid hjs h
        simp only [Array.getElem_toList] at this
        omega
    next hge =>
      apply ih _ (by omega) (by omega) (by omega)
      rcases Nat.lt_trichotomy j (base + size / 2) with h | h | h
      · have := hs _ _ hjs hmid h
        simp only [Array.getElem_toList] at this
        omega
      · omega
      · omega

theorem index?_eq_some_iff {d : SetDomain} (hs : d.ground.toList.Pairwise (· < ·)) {e : Int}
    {i : Nat} : d.index? e = some i ↔ d.ground[i]? = some e := by
  simp only [index?, Option.ite_none_right_eq_some, Option.some.injEq]
  constructor
  · rintro ⟨h, rfl⟩
    exact h
  · intro h
    have hi : i < d.ground.size := by
      rcases Nat.lt_or_ge i d.ground.size with hlt | hge
      · exact hlt
      · rw [Array.getElem?_eq_none hge] at h
        cases h
    have hlog := d.ground.size.lt_log2_self
    rw [← Nat.one_shiftLeft] at hlog
    have := lastAtMost_eq hs (Nat.zero_le i) (by omega : i < 0 + d.ground.size) (by omega)
      (Nat.le_of_lt hlog) h
    rw [this]
    exact ⟨h, rfl⟩

/-- The element belongs to some content. -/
def inEnvelope (d : SetDomain) (e : Int) : Bool := (d.index? e).any d.envelope.contains

/-- The element belongs to every content. -/
def inKernel (d : SetDomain) (e : Int) : Bool := (d.index? e).any d.kernel.contains

/-- Exactly one content is left. -/
def isFixed (d : SetDomain) : Bool := d.envelopeSize == d.kernelSize

/-- The number of elements that are not decided. -/
def slack (d : SetDomain) : Nat := d.envelopeSize - d.kernelSize

/-- The elements of the envelope in ascending order. -/
def envelopeElements (d : SetDomain) : List Int := d.envelope.toList.filterMap (d.ground[·]?)

/-- The elements of the kernel in ascending order. -/
def kernelElements (d : SetDomain) : List Int := d.kernel.toList.filterMap (d.ground[·]?)

/-! ### Narrowing -/

/-- Keeps the contents without the element. -/
def excludeElement (d : SetDomain) (e : Int) : Outcome SetDomain Entry :=
  match d.index? e with
  | none => .unchanged
  | some i =>
    if !d.envelope.contains i then .unchanged
    else if d.kernel.contains i then .empty
    else .changed
      { d with envelope := d.envelope.erase i, envelopeSize := d.envelopeSize - 1 }
      [.envelopeRemoval i] .envelopeRemoval

/-- Keeps the contents with the element. -/
def includeElement (d : SetDomain) (e : Int) : Outcome SetDomain Entry :=
  match d.index? e with
  | none => .empty
  | some i =>
    if !d.envelope.contains i then .empty
    else if d.kernel.contains i then .unchanged
    else .changed
      { d with kernel := d.kernel.insert i, kernelSize := d.kernelSize + 1 }
      [.kernelAddition i] .kernelAddition

/-! ### Taking back -/

/-- The domain before the change that the entry records. -/
def undo (d : SetDomain) : Entry → SetDomain
  | .envelopeRemoval i =>
    { d with envelope := d.envelope.insert i, envelopeSize := d.envelopeSize + 1 }
  | .kernelAddition i =>
    { d with kernel := d.kernel.erase i, kernelSize := d.kernelSize - 1 }

end SetDomain

end FiniteDomain
