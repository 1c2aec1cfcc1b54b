import FiniteDomain.Table

/-! # Rows of tables

    What is read from a table after a row has been changed or added. -/

namespace FiniteDomain.Table

variable {α : Type u}

theorem getD_modify_self {t : Table α} {key : Nat} (h : key < t.size) (change : α → α)
    (default : α) : (t.modify key change).getD key default = change (t.getD key default) := by
  have hrow : t.get? key = some t.rows[key] := Array.getElem?_eq_getElem h
  simp [getD_eq, get?_modify, hrow]

theorem getD_modify_of_ne {t : Table α} {key other : Nat} (h : key ≠ other) (change : α → α)
    (default : α) : (t.modify key change).getD other default = t.getD other default := by
  simp [getD_eq, get?_modify, h]

theorem getD_of_size_le {t : Table α} {key : Nat} (h : t.size ≤ key) (default : α) :
    t.getD key default = default := by
  have hrow : t.rows[key]? = none := Array.getElem?_eq_none h
  simp [getD_eq, get?, hrow]

theorem getD_push_of_lt {t : Table α} {key : Nat} (h : key < t.size) (row default : α) :
    (t.push row).getD key default = t.getD key default := by
  simp [getD_eq, get?_push, Nat.ne_of_lt h]

theorem getD_reserve (t : Table α) (key other : Nat) (row : α) :
    (t.reserve key row).getD other row = t.getD other row := by
  unfold reserve
  by_cases h : key < t.size
  · rw [if_pos h]
  · rw [if_neg h, getD_eq, getD_eq]
    unfold get?
    rw [Array.getElem?_append, Array.getElem?_replicate]
    split
    · rfl
    next hout =>
      rw [Array.getElem?_eq_none (Nat.not_lt.mp hout)]
      split <;> rfl

theorem lt_size_reserve (t : Table α) (key : Nat) (row : α) :
    key < (t.reserve key row).size := by
  unfold reserve
  by_cases h : key < t.size
  · rwa [if_pos h]
  · rw [if_neg h]
    unfold size
    rw [Array.size_append, Array.size_replicate]
    omega

theorem modify_modify (t : Table α) (key : Nat) (first second : α → α) :
    (t.modify key first).modify key second = t.modify key (second ∘ first) := by
  simp only [modify, mk.injEq]
  apply Array.ext_getElem?
  intro i
  simp only [Array.getElem?_modify]
  split <;> simp

theorem modify_self {t : Table α} {key : Nat} {change : α → α} (default : α)
    (h : change (t.getD key default) = t.getD key default) : t.modify key change = t := by
  cases t with
  | mk rows =>
    simp only [modify, mk.injEq]
    apply Array.ext_getElem?
    intro i
    rw [Array.getElem?_modify]
    split
    next hi =>
      subst hi
      cases hrow : rows[key]? with
      | none => rfl
      | some row =>
        simp only [getD_eq, get?, hrow, Option.getD_some] at h
        simp [h]
    next => rfl

/-- Replacing a row by itself changes nothing. -/
theorem modify_getD (t : Table α) (key : Nat) (default : α) :
    (t.modify key fun _ => t.getD key default) = t :=
  modify_self default rfl

theorem modify_push {t : Table α} {key : Nat} (h : key < t.size) (change : α → α) (row : α) :
    (t.push row).modify key change = (t.modify key change).push row := by
  simp only [modify, push, mk.injEq]
  apply Array.ext_getElem?
  intro i
  simp only [Array.getElem?_modify, Array.getElem?_push, Array.size_modify]
  have hne : t.rows.size ≠ key := Nat.ne_of_gt h
  by_cases hi : i = t.rows.size
  · subst hi
    simp [hne.symm]
  · simp [hi]

theorem getD_mem {t : Table α} {key : Nat} (h : key < t.size) (default : α) :
    t.getD key default ∈ t.rows := by
  have hrow : t.rows[key]? = some t.rows[key] := Array.getElem?_eq_getElem h
  rw [getD_eq, get?, hrow]
  exact Array.getElem_mem h

/-- Rows of a changed table are old or new. -/
theorem mem_modify {t : Table α} {key : Nat} {new row : α}
    (h : row ∈ (t.modify key fun _ => new).rows) : row ∈ t.rows ∨ row = new := by
  obtain ⟨i, hi, rfl⟩ := Array.getElem_of_mem h
  simp only [modify, Array.size_modify] at hi
  simp only [modify, Array.getElem_modify]
  split
  · exact Or.inr rfl
  · exact Or.inl (Array.getElem_mem hi)

/-- Replacing a row by one with less weight lowers the total. -/
theorem total_modify_lt {t : Table α} {key : Nat} (h : key < t.size) (weight : α → Nat) {row : α}
    (default : α) (hlt : weight row < weight (t.getD key default)) :
    (t.modify key fun _ => row).total weight < t.total weight := by
  have hlist : ∀ (l : List α) (k : Nat) (hk : k < l.length), weight row < weight l[k] →
      (l.modify k fun _ => row).foldr (fun row n => weight row + n) 0
        < l.foldr (fun row n => weight row + n) 0 := by
    intro l
    induction l with
    | nil => intro k hk; simp at hk
    | cons a l ih =>
      intro k hk hlt
      cases k with
      | zero =>
        simp only [List.getElem_cons_zero] at hlt
        simp [hlt]
      | succ k =>
        simp only [List.length_cons, Nat.add_lt_add_iff_right, List.getElem_cons_succ] at hk hlt
        simpa using ih k hk hlt
  have hrow : t.rows[key]? = some t.rows[key] := Array.getElem?_eq_getElem h
  simp only [getD_eq, get?, hrow, Option.getD_some] at hlt
  simp only [total, toList, modify, Array.toList_modify]
  exact hlist _ key h hlt

end FiniteDomain.Table
