import FiniteDomain.BitSet.Tree
import Mathlib.Data.Nat.Count

/-! # Canonical trees and their searches

    A set of indices has one tree only, as long as no two equal leaves stand
    side by side.  Such trees are *canonical*.  Every operation answers a
    canonical tree, so taking a change of membership back gives the very same
    tree (`put_put_self`), not only a tree with the same members.

    `next?`, `previous?` and `countBelow` are described by membership alone. -/

namespace FiniteDomain.IndexTree

/-! ### Canonical trees -/

/-- No two equal leaves stand side by side, and there is nothing below the height. -/
def Canonical : (height : Nat) → IndexTree → Prop
  | 0, t => t = nothing ∨ t = everything
  | height + 1, t => t = join t.low t.high ∧ Canonical height t.low ∧ Canonical height t.high

theorem canonical_nothing (height : Nat) : Canonical height nothing := by
  induction height with
  | zero => exact Or.inl rfl
  | succ height ih => exact ⟨rfl, ih, ih⟩

theorem canonical_everything (height : Nat) : Canonical height everything := by
  induction height with
  | zero => exact Or.inr rfl
  | succ height ih => exact ⟨rfl, ih, ih⟩

theorem canonical_join {height : Nat} {a b : IndexTree} (ha : Canonical height a)
    (hb : Canonical height b) : Canonical (height + 1) (join a b) := by
  refine ⟨?_, ?_, ?_⟩
  · rw [low_join, high_join]
  · rwa [low_join]
  · rwa [high_join]

theorem canonical_put {height : Nat} {t : IndexTree} (ht : Canonical height t) (i : Nat)
    (member : Bool) : Canonical height (put height t i member) := by
  induction height generalizing t with
  | zero => cases member <;> simp [put, Canonical]
  | succ height ih =>
    obtain ⟨-, hlow, hhigh⟩ := ht
    simp only [put]
    split
    · exact canonical_join hlow (ih hhigh)
    · exact canonical_join (ih hlow) hhigh

theorem canonical_firsts (height count : Nat) : Canonical height (firsts height count) := by
  induction height generalizing count with
  | zero =>
    rw [firsts]
    split
    · exact Or.inl rfl
    · exact Or.inr rfl
  | succ height ih =>
    rw [firsts]
    split
    · exact canonical_join (ih count) (canonical_nothing height)
    · exact canonical_join (canonical_everything height) (ih _)

/-- A canonical tree is known by its members. -/
theorem Canonical.ext {height : Nat} {t u : IndexTree} (ht : Canonical height t)
    (hu : Canonical height u)
    (h : ∀ i < range height, contains height t i = contains height u i) : t = u := by
  induction height generalizing t u with
  | zero =>
    have h0 := h 0 (by simp)
    rcases ht with rfl | rfl <;> rcases hu with rfl | rfl <;> simp_all
  | succ height ih =>
    obtain ⟨ht, htl, hth⟩ := ht
    obtain ⟨hu, hul, huh⟩ := hu
    have hpos := range_pos height
    -- the halves have the same members, hence are the same
    have hlow : t.low = u.low := by
      apply ih htl hul
      intro i hi
      have hi' : i < range (height + 1) := by rw [range_succ]; omega
      simpa [contains_succ _ hi', hi] using h i hi'
    have hhigh : t.high = u.high := by
      apply ih hth huh
      intro i hi
      have hi' : i + range height < range (height + 1) := by rw [range_succ]; omega
      have hnot : ¬ i + range height < range height := by omega
      simpa [contains_succ _ hi', hnot] using h (i + range height) hi'
    rw [ht, hu, hlow, hhigh]

/-- A change of membership is taken back by putting the old membership. -/
theorem put_put_self {height : Nat} {t : IndexTree} (ht : Canonical height t) {i : Nat}
    (hi : i < range height) (member : Bool) :
    put height (put height t i member) i (contains height t i) = t := by
  apply (canonical_put (canonical_put ht i member) i _).ext ht
  intro j hj
  rw [contains_put hi hj]
  by_cases hji : j = i
  · rw [if_pos hji, hji]
  · rw [if_neg hji, contains_put hi hj, if_neg hji]

/-! ### Membership in the halves -/

theorem contains_halves_low {height : Nat} {low : IndexTree} (high : IndexTree) {j : Nat}
    (hj : j < range height) :
    contains (height + 1) (halves low high) j = contains height low j := by
  rw [contains_succ _ (by rw [range_succ]; omega), if_pos hj, IndexTree.low]

theorem contains_halves_high {height : Nat} (low : IndexTree) {high : IndexTree} {j : Nat}
    (hj : j < range height) :
    contains (height + 1) (halves low high) (j + range height) = contains height high j := by
  rw [contains_succ _ (by rw [range_succ]; omega), if_neg (by omega), IndexTree.high,
    Nat.add_sub_cancel]

/-! ### Searching upwards -/

/-- The answer of a search among the numbers from `start` up to but not including `stop`: the least
    one with the property, if there is one. -/
def FirstIn (p : Nat → Bool) (start stop : Nat) : Option Nat → Prop
  | some i => start ≤ i ∧ i < stop ∧ p i = true ∧ ∀ j, start ≤ j → j < i → p j = false
  | none => ∀ j, start ≤ j → j < stop → p j = false

section FirstIn

variable {p q : Nat → Bool} {start middle stop : Nat} {found : Option Nat}

theorem FirstIn.congr (h : FirstIn p start stop found) (hpq : ∀ j < stop, p j = q j) :
    FirstIn q start stop found := by
  cases found with
  | some i =>
    obtain ⟨hle, hlt, hp, hfirst⟩ := h
    refine ⟨hle, hlt, hpq i hlt ▸ hp, fun j hj hji => ?_⟩
    rw [← hpq j (by omega)]
    exact hfirst j hj hji
  | none => exact fun j hj hjs => hpq j hjs ▸ h j hj hjs

/-- What is found before the middle is found. -/
theorem FirstIn.widen {i : Nat} (h : FirstIn p start middle (some i)) (hle : middle ≤ stop) :
    FirstIn p start stop (some i) :=
  ⟨h.1, Nat.lt_of_lt_of_le h.2.1 hle, h.2.2⟩

/-- If nothing is found before the middle, the search goes on there. -/
theorem FirstIn.extend (h : FirstIn p start middle none)
    (hrest : FirstIn p (max start middle) stop found) : FirstIn p start stop found := by
  cases found with
  | some i =>
    obtain ⟨hle, hlt, hp, hfirst⟩ := hrest
    refine ⟨by omega, hlt, hp, fun j hj hji => ?_⟩
    by_cases hjm : j < middle
    · exact h j hj hjm
    · exact hfirst j (by omega) hji
  | none =>
    intro j hj hjs
    by_cases hjm : j < middle
    · exact h j hj hjm
    · exact hrest j (by omega) hjs

/-- All numbers are moved up. -/
theorem FirstIn.shift (k : Nat) (h : FirstIn (fun j => p (j + k)) start stop found) :
    FirstIn p (start + k) (stop + k) (found.map (· + k)) := by
  cases found with
  | some i =>
    obtain ⟨hle, hlt, hp, hfirst⟩ := h
    refine ⟨Nat.add_le_add_right hle k, Nat.add_lt_add_right hlt k, hp, fun j hj hji => ?_⟩
    have hji : j < i + k := hji
    obtain ⟨j, rfl⟩ := Nat.exists_eq_add_of_le' (show k ≤ j by omega)
    exact hfirst j (by omega) (by omega)
  | none =>
    intro j hj hjs
    obtain ⟨j, rfl⟩ := Nat.exists_eq_add_of_le' (show k ≤ j by omega)
    exact h j (by omega) (by omega)

end FirstIn

theorem next?_everything (height start : Nat) :
    FirstIn (contains height everything) start (range height) (next? height everything start) := by
  rw [next?]
  by_cases h : start < range height
  · rw [if_pos h]
    exact ⟨Nat.le_refl start, h, contains_everything height start, fun j hj hjs => by omega⟩
  · rw [if_neg h]
    exact fun j hj hjr => by omega

/-- `next?` answers the least member from `start` on. -/
theorem next?_spec (height : Nat) (t : IndexTree) (start : Nat) :
    FirstIn (contains height t) start (range height) (next? height t start) := by
  induction height generalizing t start with
  | zero =>
    cases t with
    | nothing => exact fun j _ _ => contains_nothing 0 j
    | everything => exact next?_everything 0 start
    | halves low high => exact fun _ _ _ => rfl
  | succ height ih =>
    cases t with
    | nothing => exact fun j _ _ => contains_nothing (height + 1) j
    | everything => exact next?_everything (height + 1) start
    | halves low high =>
      -- the search of a half is one among the numbers of that half
      have hlow : FirstIn (contains (height + 1) (halves low high)) start (range height)
          (if start < range height then next? height low start else none) := by
        split
        next => exact (ih low start).congr fun j hj => (contains_halves_low high hj).symm
        next h => exact fun j hj hjr => absurd hj (by omega)
      have hhigh := ((ih high (start - range height)).congr
        fun j hj => (contains_halves_high low hj).symm).shift (range height)
      rw [Nat.sub_add_eq_max, ← range_succ] at hhigh
      rw [next?]
      split
      next i hfound => exact (hfound ▸ hlow).widen (by rw [range_succ]; omega)
      next hnone => exact (hnone ▸ hlow).extend hhigh

/-! ### Searching downwards -/

/-- The answer of a search among the numbers from `bottom` up to but not including `top`: the
    greatest one with the property, if there is one. -/
def LastIn (p : Nat → Bool) (bottom top : Nat) : Option Nat → Prop
  | some i => bottom ≤ i ∧ i < top ∧ p i = true ∧ ∀ j, i < j → j < top → p j = false
  | none => ∀ j, bottom ≤ j → j < top → p j = false

section LastIn

variable {p q : Nat → Bool} {bottom middle top : Nat} {found : Option Nat}

theorem LastIn.congr (h : LastIn p bottom top found) (hpq : ∀ j < top, p j = q j) :
    LastIn q bottom top found := by
  cases found with
  | some i =>
    obtain ⟨hle, hlt, hp, hlast⟩ := h
    refine ⟨hle, hlt, hpq i hlt ▸ hp, fun j hij hj => ?_⟩
    rw [← hpq j hj]
    exact hlast j hij hj
  | none => exact fun j hj hjt => hpq j hjt ▸ h j hj hjt

/-- What is found above the middle is found. -/
theorem LastIn.widen {i : Nat} (h : LastIn p middle top (some i)) (hle : bottom ≤ middle) :
    LastIn p bottom top (some i) :=
  ⟨Nat.le_trans hle h.1, h.2⟩

/-- If nothing is found above the middle, the search goes on below. -/
theorem LastIn.extend (h : LastIn p middle top none)
    (hrest : LastIn p bottom (min top middle) found) : LastIn p bottom top found := by
  cases found with
  | some i =>
    obtain ⟨hle, hlt, hp, hlast⟩ := hrest
    refine ⟨hle, by omega, hp, fun j hij hj => ?_⟩
    by_cases hjm : middle ≤ j
    · exact h j hjm hj
    · exact hlast j hij (by omega)
  | none =>
    intro j hj hjt
    by_cases hjm : middle ≤ j
    · exact h j hjm hjt
    · exact hrest j hj (by omega)

/-- All numbers are moved up. -/
theorem LastIn.shift (k : Nat) (h : LastIn (fun j => p (j + k)) bottom top found) :
    LastIn p (bottom + k) (top + k) (found.map (· + k)) := by
  cases found with
  | some i =>
    obtain ⟨hle, hlt, hp, hlast⟩ := h
    refine ⟨Nat.add_le_add_right hle k, Nat.add_lt_add_right hlt k, hp, fun j hij hj => ?_⟩
    have hij : i + k < j := hij
    obtain ⟨j, rfl⟩ := Nat.exists_eq_add_of_le' (show k ≤ j by omega)
    exact hlast j (by omega) (by omega)
  | none =>
    intro j hj hjt
    obtain ⟨j, rfl⟩ := Nat.exists_eq_add_of_le' (show k ≤ j by omega)
    exact h j (by omega) (by omega)

end LastIn

theorem previous?_everything (height start : Nat) :
    LastIn (contains height everything) 0 (min (start + 1) (range height))
      (previous? height everything start) := by
  have hpos := range_pos height
  rw [previous?]
  exact ⟨Nat.zero_le _, by omega, contains_everything height _, fun j hij hj => by omega⟩

/-- `previous?` answers the greatest member up to `start`. -/
theorem previous?_spec (height : Nat) (t : IndexTree) (start : Nat) :
    LastIn (contains height t) 0 (min (start + 1) (range height)) (previous? height t start) := by
  induction height generalizing t start with
  | zero =>
    cases t with
    | nothing => exact fun j _ _ => contains_nothing 0 j
    | everything => exact previous?_everything 0 start
    | halves low high => exact fun _ _ _ => rfl
  | succ height ih =>
    cases t with
    | nothing => exact fun j _ _ => contains_nothing (height + 1) j
    | everything => exact previous?_everything (height + 1) start
    | halves low high =>
      -- the search of a half is one among the numbers of that half
      have hhigh : LastIn (contains (height + 1) (halves low high)) (range height)
          (min (start + 1) (range (height + 1)))
          ((if range height ≤ start then previous? height high (start - range height)
            else none).map (· + range height)) := by
        rw [range_succ]
        split
        next h =>
          have hmoved := ((ih high (start - range height)).congr
            fun j hj => (contains_halves_high low (by omega)).symm).shift (range height)
          rw [Nat.zero_add] at hmoved
          have htop : min (start - range height + 1) (range height) + range height
              = min (start + 1) (range height + range height) := by omega
          rwa [htop] at hmoved
        next h => exact fun j hj hjt => absurd hj (by omega)
      have hlow : LastIn (contains (height + 1) (halves low high)) 0
          (min (min (start + 1) (range (height + 1))) (range height)) (previous? height low start) := by
        have htop : min (min (start + 1) (range (height + 1))) (range height)
            = min (start + 1) (range height) := by rw [range_succ]; omega
        rw [htop]
        exact (ih low start).congr fun j hj => (contains_halves_low high (by omega)).symm
      rw [previous?]
      split
      next i hfound =>
        rw [hfound] at hhigh
        exact hhigh.widen (Nat.zero_le _)
      next hnone =>
        rw [hnone] at hhigh
        exact hhigh.extend hlow

/-! ### Counting -/

theorem countBelow_eq (height : Nat) (t : IndexTree) (limit : Nat) :
    countBelow height t limit
      = Nat.count (fun i => contains height t i = true) (min limit (range height)) := by
  induction height generalizing t limit with
  | zero => cases t <;> simp [countBelow, contains]
  | succ height ih =>
    cases t with
    | nothing => simp [countBelow]
    | everything => simp [countBelow]
    | halves low high =>
      -- each half is counted by the indices of its own
      have hl : ∀ n ≤ range height,
          Nat.count (fun i => contains (height + 1) (halves low high) i = true) n
            = Nat.count (fun i => contains height low i = true) n := by
        intro n hn
        apply Nat.le_antisymm <;> apply Nat.count_mono_left <;> intro j hj <;>
          rw [contains_halves_low high (by omega)] <;> exact id
      have hh : ∀ n ≤ range height,
          Nat.count (fun i => contains (height + 1) (halves low high) (range height + i) = true) n
            = Nat.count (fun i => contains height high i = true) n := by
        intro n hn
        apply Nat.le_antisymm <;> apply Nat.count_mono_left <;> intro j hj <;>
          rw [Nat.add_comm (range height) j, contains_halves_high low (by omega)] <;> exact id
      rw [countBelow]
      split
      next h =>
        rw [ih, Nat.min_eq_left h, Nat.min_eq_left (by rw [range_succ]; omega), hl _ h]
      next h =>
        have hsplit : min limit (range (height + 1))
            = range height + min (limit - range height) (range height) := by
          rw [range_succ]; omega
        rw [ih, ih, Nat.min_self, hsplit, Nat.count_add, hl _ (Nat.le_refl _),
          hh _ (Nat.min_le_right _ _)]

/-! ### Listing -/

theorem pairwise_members (height : Nat) (t : IndexTree) (start : Nat) :
    (members height t start).Pairwise (· < ·) := by
  induction height generalizing t start with
  | zero =>
    cases t with
    | nothing => simp [members]
    | everything => simp [members]
    | halves low high => simp [members]
  | succ height ih =>
    cases t with
    | nothing => simp [members]
    | everything => simp [members, List.pairwise_lt_range']
    | halves low high =>
      rw [members, List.pairwise_append]
      refine ⟨ih low start, ih high _, ?_⟩
      intro a ha b hb
      rw [mem_members] at ha hb
      omega

end FiniteDomain.IndexTree
