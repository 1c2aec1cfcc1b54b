import FiniteDomain.Fault

/-! # Trails

    A trail records changes in the order in which they are made, so that they
    can be taken back in the opposite order.  A checkpoint is a length of the
    trail; undoing to it hands out the entries made since, newest first, and
    leaves the older ones in place. -/

namespace FiniteDomain

/-- A length that a trail had. -/
structure Checkpoint where
  /-- The number of entries at that moment. -/
  trailLength : Nat
deriving DecidableEq, Repr, Inhabited

/-- The checkpoint before the first entry. -/
def Checkpoint.root : Checkpoint := ⟨0⟩

/-- Checkpoints are ordered by the length of the trail. -/
def Checkpoint.compare (a b : Checkpoint) : Ordering := Ord.compare a.trailLength b.trailLength

/-- Entries in the order in which they were made. -/
structure Trail (α : Type u) where
  /-- The entries, newest first. -/
  newestFirst : List α
deriving DecidableEq, Repr

namespace Trail

variable {α : Type u}

instance : Inhabited (Trail α) := ⟨⟨[]⟩⟩

/-- The trail without entries. -/
def empty : Trail α := ⟨[]⟩

/-- The number of entries. -/
def length (t : Trail α) : Nat := t.newestFirst.length

/-- The entries, oldest first. -/
def toList (t : Trail α) : List α := t.newestFirst.reverse

/-- The present length as a checkpoint. -/
def checkpoint (t : Trail α) : Checkpoint := ⟨t.length⟩

/-- The trail with one more entry. -/
def push (t : Trail α) (entry : α) : Trail α := ⟨entry :: t.newestFirst⟩

/-- The trail with more entries, the first of them made first. -/
def append (t : Trail α) (entries : List α) : Trail α := entries.foldl push t

/-- The entries made since a checkpoint, newest first. -/
def newestSince (t : Trail α) (c : Checkpoint) : List α :=
  t.newestFirst.take (t.length - c.trailLength)

/-- The entries made since a checkpoint, oldest first. -/
def since (t : Trail α) (c : Checkpoint) : List α := (t.newestSince c).reverse

/-- The entries up to a checkpoint. -/
def truncate (t : Trail α) (c : Checkpoint) : Trail α :=
  ⟨t.newestFirst.drop (t.length - c.trailLength)⟩

/-- The entries made since a checkpoint, newest first, and the trail without them; a
    checkpoint beyond the end is a fault. -/
def undo (t : Trail α) (c : Checkpoint) : Except Fault (List α × Trail α) :=
  if c.trailLength ≤ t.length then .ok (t.newestSince c, t.truncate c)
  else .error (.undoBeyondTrail c.trailLength t.length)

theorem newestFirst_append (t : Trail α) (entries : List α) :
    (t.append entries).newestFirst = entries.reverse ++ t.newestFirst := by
  unfold append
  induction entries generalizing t with
  | nil => rfl
  | cons e rest ih => simp [ih, push]

@[simp] theorem length_push (t : Trail α) (entry : α) :
    (t.push entry).length = t.length + 1 := rfl

@[simp] theorem length_append (t : Trail α) (entries : List α) :
    (t.append entries).length = t.length + entries.length := by
  simp only [length, newestFirst_append, List.length_append, List.length_reverse]
  exact Nat.add_comm _ _

@[simp] theorem toList_append (t : Trail α) (entries : List α) :
    (t.append entries).toList = t.toList ++ entries := by
  simp [toList, newestFirst_append]

/-- Undoing right after an addition hands out what was added. -/
theorem undo_append (t : Trail α) (entries : List α) :
    (t.append entries).undo t.checkpoint = .ok (entries.reverse, t) := by
  have hlen : (t.append entries).length - t.checkpoint.trailLength = entries.reverse.length := by
    simp [checkpoint]
  have hle : t.checkpoint.trailLength ≤ (t.append entries).length := by
    simp [checkpoint]
  simp only [undo, hle, if_true, newestSince, truncate, hlen, newestFirst_append,
    List.take_left, List.drop_left]

end Trail

end FiniteDomain
