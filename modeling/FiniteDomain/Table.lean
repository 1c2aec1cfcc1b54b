import FiniteDomain.Fault

/-! # Tables

    A `Table` holds one row for each of the keys `0, 1, …` in the order in which
    the rows were added.  Keys are handed out by `push` and never reused, so
    whatever is numbered consecutively (variables, propagators, watch lists) is
    kept in a table.

    `get?` is the view in which the operations are described. -/

namespace FiniteDomain

/-- Rows numbered from zero. -/
structure Table (α : Type u) where
  /-- The rows in the order of their keys. -/
  rows : Array α
deriving DecidableEq, Repr

namespace Table

variable {α : Type u} {β : Type v}

instance : Inhabited (Table α) := ⟨⟨#[]⟩⟩

/-! ### Operations -/

/-- The table without rows. -/
def empty : Table α := ⟨#[]⟩

/-- The number of rows. -/
def size (t : Table α) : Nat := t.rows.size

/-- There is no row. -/
def isEmpty (t : Table α) : Bool := t.rows.isEmpty

/-- The key that the next row will get. -/
def nextKey (t : Table α) : Nat := t.size

/-- The keys in ascending order. -/
def keys (t : Table α) : List Nat := List.range t.size

/-- The rows in the order of their keys. -/
def toList (t : Table α) : List α := t.rows.toList

/-- The row of a key, if there is one. -/
def get? (t : Table α) (key : Nat) : Option α := t.rows[key]?

/-- The row of a key, or the given value if there is none. -/
def getD (t : Table α) (key : Nat) (default : α) : α := t.rows.getD key default

/-- The row of a key; a key without a row is a fault. -/
def lookup (t : Table α) (key : Nat) : Except Fault α :=
  match t.get? key with
  | some row => .ok row
  | none => .error .indexOutOfBounds

/-- The table with one more row. -/
def push (t : Table α) (row : α) : Table α := ⟨t.rows.push row⟩

/-- The table with the row of a key changed; without such a row, the same table. -/
def modify (t : Table α) (key : Nat) (change : α → α) : Table α :=
  ⟨t.rows.modify key change⟩

/-- The table with the row of a key replaced; a key without a row is a fault. -/
def replace (t : Table α) (key : Nat) (row : α) : Except Fault (Table α) :=
  if key < t.size then .ok (t.modify key fun _ => row) else .error .indexOutOfBounds

/-- The table with copies of the given row added until the key has one. -/
def reserve (t : Table α) (key : Nat) (row : α) : Table α :=
  if key < t.size then t else ⟨t.rows ++ Array.replicate (key + 1 - t.size) row⟩

/-- The table with copies of the given row added until the key has one; the number of rows has 64
    bits, so the greatest key of that width is a fault. -/
def reserveChecked (t : Table α) (key : Nat) (row : α) : Except Fault (Table α) :=
  if key < t.size || key < 1 <<< 64 - 1 then .ok (t.reserve key row) else .error .overflow

/-- The sum of the weights of all rows. -/
def total (t : Table α) (weight : α → Nat) : Nat :=
  t.toList.foldr (fun row n => weight row + n) 0

/-- The table with every row changed. -/
def map (t : Table α) (change : α → β) : Table β := ⟨t.rows.map change⟩

/-- The table with every row changed by a computation, in the order of the keys. -/
def mapM {m : Type v → Type w} [Monad m] (t : Table α) (change : α → m β) : m (Table β) := do
  return ⟨← t.rows.mapM change⟩

/-! ### The view -/

theorem getD_eq (t : Table α) (key : Nat) (default : α) :
    t.getD key default = (t.get? key).getD default := by
  simp [getD, get?, Array.getD_eq_getD_getElem?]

@[simp] theorem get?_empty (key : Nat) : (empty : Table α).get? key = none := by
  simp [get?, empty]

theorem get?_push (t : Table α) (row : α) (key : Nat) :
    (t.push row).get? key = if key = t.size then some row else t.get? key := by
  exact Array.getElem?_push

theorem get?_modify (t : Table α) (key : Nat) (change : α → α) (other : Nat) :
    (t.modify key change).get? other
      = if key = other then (t.get? other).map change else t.get? other := by
  simp only [get?, modify, Array.getElem?_modify]

@[simp] theorem size_push (t : Table α) (row : α) : (t.push row).size = t.size + 1 := by
  simp [size, push]

@[simp] theorem size_modify (t : Table α) (key : Nat) (change : α → α) :
    (t.modify key change).size = t.size := by
  simp [size, modify]

theorem get?_isSome_iff (t : Table α) (key : Nat) : (t.get? key).isSome ↔ key < t.size := by
  simp [get?, size]

end Table

end FiniteDomain
