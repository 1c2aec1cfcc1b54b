/-! # Lines of waiting items

    A line is joined at the back and left at the front.  It is kept as a pair of
    lists, so that both ends are at hand; its view is `Fifo.toList`. -/

namespace FiniteDomain

/-- A line that is joined at the back and left at the front. -/
structure Fifo (α : Type u) where
  /-- The front part, first out first. -/
  front : List α
  /-- The back part, last in first. -/
  back : List α
deriving Repr

namespace Fifo

variable {α : Type u}

instance : Inhabited (Fifo α) := ⟨⟨[], []⟩⟩

/-- The line without members. -/
def empty : Fifo α := ⟨[], []⟩

/-- The members, first out first. -/
def toList (q : Fifo α) : List α := q.front ++ q.back.reverse

/-- Nobody waits. -/
def isEmpty (q : Fifo α) : Bool := q.front.isEmpty && q.back.isEmpty

/-- The number of members. -/
def length (q : Fifo α) : Nat := q.front.length + q.back.length

/-- The item is a member. -/
def contains [BEq α] (q : Fifo α) (a : α) : Bool := q.front.contains a || q.back.contains a

/-- The line with one more member at the back. -/
def push (q : Fifo α) (a : α) : Fifo α := { q with back := a :: q.back }

/-- The member at the front and the line without it. -/
def pop? (q : Fifo α) : Option (α × Fifo α) :=
  match q.front with
  | a :: front => some (a, { q with front })
  | [] =>
    match q.back.reverse with
    | [] => none
    | a :: front => some (a, ⟨front, []⟩)

@[simp] theorem toList_empty : (empty : Fifo α).toList = [] := rfl

@[simp] theorem toList_push (q : Fifo α) (a : α) : (q.push a).toList = q.toList ++ [a] := by
  simp [toList, push]

@[simp] theorem contains_toList [BEq α] (q : Fifo α) (a : α) :
    q.toList.contains a = q.contains a := by
  simp only [toList, contains, List.contains_eq_any_beq, List.any_append, List.any_reverse]

@[simp] theorem length_toList (q : Fifo α) : q.toList.length = q.length := by
  simp [toList, length]

theorem isEmpty_iff {q : Fifo α} : q.isEmpty = true ↔ q.toList = [] := by
  simp [isEmpty, toList]

theorem map_pop? (q : Fifo α) :
    q.pop?.map (fun r => (r.1, r.2.toList))
      = match q.toList with
        | [] => none
        | a :: rest => some (a, rest) := by
  unfold pop? toList
  cases hf : q.front with
  | cons a front => simp
  | nil =>
    cases hb : q.back.reverse with
    | nil => simp
    | cons a front => simp

theorem toList_of_pop? {q rest : Fifo α} {a : α} (h : q.pop? = some (a, rest)) :
    q.toList = a :: rest.toList := by
  have hview := q.map_pop?
  rw [h] at hview
  cases hlist : q.toList with
  | nil => rw [hlist] at hview; cases hview
  | cons b l =>
    rw [hlist] at hview
    obtain ⟨rfl, rfl⟩ := Prod.mk.inj (Option.some.inj hview)
    rfl

theorem pop?_isSome {q : Fifo α} (h : q.isEmpty = false) : ∃ a rest, q.pop? = some (a, rest) := by
  have hview := q.map_pop?
  have hne : q.toList ≠ [] := fun hnil => by rw [isEmpty_iff.mpr hnil] at h; cases h
  cases hpop : q.pop? with
  | some r => exact ⟨r.1, r.2, rfl⟩
  | none =>
    rw [hpop] at hview
    cases hlist : q.toList with
    | nil => exact absurd hlist hne
    | cons a l => rw [hlist] at hview; cases hview

theorem eq_empty {q : Fifo α} (h : q.isEmpty = true) : q = empty := by
  obtain ⟨front, back⟩ := q
  simp only [isEmpty, Bool.and_eq_true, List.isEmpty_iff] at h
  simp only [empty, mk.injEq]
  exact h

end Fifo

end FiniteDomain
