import FiniteDomain.Proofs.BitSet
import Mathlib.Data.Finset.Sort
import Mathlib.Order.Bounds.Defs

/-! # Sets of indices and their members

    A set of indices is known by its members: what it answers is what a finite
    set of numbers answers, and a change of it is a change of that finite set.
    `Layout` lists the operations of any way to keep such sets, and
    `Layout.Refines` is the whole promise: a set that is made and then changed
    answers without a fault, and as its members tell.

    `Simulation` is what has to be shown of a layout: a relation between its sets
    and finite sets, that holds of new sets and that one change keeps.  The
    promise follows by induction over the changes (`Simulation.refines`).  Here
    this is shown of the tree that domains are made of; the words are treated in
    a module of their own. -/

namespace FiniteDomain

/-! ### Finite sets -/

/-- A change of one index of a set. -/
inductive IndexChange where
  /-- The index becomes a member. -/
  | insert (i : Nat)
  /-- The index is no member any more. -/
  | remove (i : Nat)
deriving DecidableEq, Repr

namespace IndexChange

/-- The index that is changed. -/
def index : IndexChange → Nat
  | insert i => i
  | remove i => i

/-- The members after a change. -/
def apply (members : Finset Nat) : IndexChange → Finset Nat
  | insert i => Insert.insert i members
  | remove i => members.erase i

/-- The members after some changes. -/
def after (members : Finset Nat) (changes : List IndexChange) : Finset Nat :=
  changes.foldl apply members

/-- For each of some changes, whether it changed the members. -/
def reports (members : Finset Nat) : List IndexChange → List Bool
  | [] => []
  | c :: rest => decide (c.apply members ≠ members) :: reports (c.apply members) rest

/-- The members of a new set. -/
def initial (capacity : Nat) (filled : Bool) : Finset Nat :=
  if filled then Finset.range capacity else ∅

variable {members : Finset Nat} {i : Nat}

/-- An insertion changes the members if the index is none of them. -/
theorem apply_insert_ne : (insert i).apply members ≠ members ↔ i ∉ members :=
  not_congr Finset.insert_eq_self

/-- A removal changes the members if the index is one of them. -/
theorem apply_remove_ne : (remove i).apply members ≠ members ↔ i ∈ members := by
  rw [ne_eq, apply, Finset.erase_eq_self, not_not]

end IndexChange

/-- The number is the least of some numbers, or there is no number among them. -/
def IsLeast? (among : Set Nat) : Option Nat → Prop
  | some i => IsLeast among i
  | none => among = ∅

/-- The number is the greatest of some numbers, or there is no number among them. -/
def IsGreatest? (among : Set Nat) : Option Nat → Prop
  | some i => IsGreatest among i
  | none => among = ∅

/-! ### Layouts -/

/-- The operations of a way to keep sets of indices. -/
structure Layout (σ : Type) where
  /-- A new set with a capacity, with all indices below it or none as members. -/
  create : Nat → Bool → Except Fault σ
  /-- Makes an index a member. -/
  insert : σ → Nat → Except Fault (Bool × σ)
  /-- Makes an index no member. -/
  remove : σ → Nat → Except Fault (Bool × σ)
  /-- The index is a member. -/
  contains : σ → Nat → Except Fault Bool
  /-- The nearest member upwards. -/
  next? : σ → Nat → Except Fault (Option Nat)
  /-- The nearest member downwards. -/
  previous? : σ → Nat → Except Fault (Option Nat)
  /-- The number of members between two numbers. -/
  count : σ → Nat → Nat → Except Fault Nat
  /-- All members. -/
  toList : σ → Except Fault (List Nat)

namespace Layout

variable {σ : Type} (l : Layout σ)

/-- Carries a change out; the answer is what the operation reports. -/
def change (s : σ) : IndexChange → Except Fault (Bool × σ)
  | .insert i => l.insert s i
  | .remove i => l.remove s i

/-- Carries some changes out; the answer is the list of reports. -/
def run (s : σ) : List IndexChange → Except Fault (List Bool × σ)
  | [] => .ok ([], s)
  | c :: rest => do
    let (report, s) ← l.change s c
    let (reports, s) ← run s rest
    return (report :: reports, s)

/-- What a set answers is what its members tell, whatever it is asked. -/
structure Answers (s : σ) (members : Finset Nat) : Prop where
  /-- Membership. -/
  contains : ∀ i, l.contains s i = .ok (decide (i ∈ members))
  /-- The least member from a number on. -/
  next : ∀ start, ∃ found, l.next? s start = .ok found
    ∧ IsLeast? {i | i ∈ members ∧ start ≤ i} found
  /-- The greatest member up to a number. -/
  previous : ∀ start, ∃ found, l.previous? s start = .ok found
    ∧ IsGreatest? {i | i ∈ members ∧ i ≤ start} found
  /-- The number of members from a number to another one. -/
  count : ∀ lower upper, l.count s lower upper
    = .ok (members.filter fun i => lower ≤ i ∧ i ≤ upper).card
  /-- All members in ascending order. -/
  toList : l.toList s = .ok members.sort

/-- A set that is made with a capacity and changed reports the changes of its members and answers
    as they tell; nothing of this ends in a fault. -/
def Refines (capacity : Nat) (filled : Bool) (changes : List IndexChange) : Prop :=
  ∃ first last, l.create capacity filled = .ok first
    ∧ l.run first changes
      = .ok (IndexChange.reports (IndexChange.initial capacity filled) changes, last)
    ∧ l.Answers last (IndexChange.after (IndexChange.initial capacity filled) changes)

end Layout

/-! ### Simulations -/

/-- A relation between the sets of a layout and their members that the operations keep. -/
structure Simulation {σ : Type} (l : Layout σ) where
  /-- The set has the capacity and the members. -/
  shows : σ → Nat → Finset Nat → Prop
  /-- A new set has the members it is asked for. -/
  create : ∀ capacity filled, ∃ s, l.create capacity filled = .ok s
    ∧ shows s capacity (IndexChange.initial capacity filled)
  /-- A change is reported, and the set has the members after it. -/
  change : ∀ {s capacity members} (c : IndexChange), shows s capacity members →
    c.index < capacity → ∃ after, l.change s c = .ok (decide (c.apply members ≠ members), after)
      ∧ shows after capacity (c.apply members)
  /-- A set answers as its members tell. -/
  answers : ∀ {s capacity members}, shows s capacity members → l.Answers s members

namespace Simulation

variable {σ : Type} {l : Layout σ} {s : σ} {capacity : Nat} {members : Finset Nat}

/-- A run of changes is a run of changes of the members. -/
theorem run (sim : Simulation l) (changes : List IndexChange) (hs : sim.shows s capacity members)
    (h : ∀ c ∈ changes, c.index < capacity) :
    ∃ last, l.run s changes = .ok (IndexChange.reports members changes, last)
      ∧ sim.shows last capacity (IndexChange.after members changes) := by
  induction changes generalizing s members with
  | nil => exact ⟨s, rfl, hs⟩
  | cons c rest ih =>
    have hfirst : c.index < capacity := h c List.mem_cons_self
    have hrest : ∀ d ∈ rest, d.index < capacity := fun d hd => h d (List.mem_cons_of_mem c hd)
    obtain ⟨next, hchange, hnext⟩ := sim.change c hs hfirst
    obtain ⟨last, hrun, hlast⟩ := ih hnext hrest
    refine ⟨last, ?_, hlast⟩
    simp only [Layout.run, hchange, hrun, bind, Except.bind, pure, Except.pure,
      IndexChange.reports]

theorem refines (sim : Simulation l) (filled : Bool) (changes : List IndexChange)
    (h : ∀ c ∈ changes, c.index < capacity) : l.Refines capacity filled changes := by
  obtain ⟨first, hcreate, hfirst⟩ := sim.create capacity filled
  obtain ⟨last, hrun, hlast⟩ := sim.run changes hfirst h
  exact ⟨first, last, hcreate, hrun, sim.answers hlast⟩

end Simulation

/-! ### Trees -/

namespace BitSet

/-- Sets of indices kept in a tree. -/
def layout : Layout BitSet where
  create capacity filled := .ok (if filled then .full capacity else .empty capacity)
  insert := insertChecked
  remove := eraseChecked
  contains s i := .ok (s.contains i)
  next? s start := .ok (s.next? start)
  previous? s start := .ok (s.previous? start)
  count s lower upper := .ok (s.countIn lower upper)
  toList s := .ok s.toList

variable {s : BitSet} {members : Finset Nat}

/-- The tree has the members. -/
def Shows (s : BitSet) (members : Finset Nat) : Prop :=
  ∀ i, s.contains i = decide (i ∈ members)

theorem Shows.iff (h : s.Shows members) (i : Nat) : s.contains i = true ↔ i ∈ members := by
  rw [h i, decide_eq_true_eq]

theorem Shows.ne_false (h : s.Shows members) {i : Nat} (hi : i ∈ members) :
    s.contains i ≠ false := by
  rw [(h.iff i).mpr hi]
  exact Bool.noConfusion

theorem Shows.lt_capacity (h : s.Shows members) {i : Nat} (hi : i ∈ members) : i < s.capacity :=
  lt_capacity_of_contains ((h.iff i).mpr hi)

theorem Shows.insert (h : s.Shows members) {i : Nat} (hi : i < s.capacity) :
    (s.insert i).Shows (Insert.insert i members) := by
  intro j
  rw [contains_insert, h j, Bool.eq_iff_iff]
  simp only [Bool.and_eq_true, Bool.or_eq_true, decide_eq_true_eq, Finset.mem_insert]
  constructor
  · exact fun hj => hj.2
  · intro hj
    refine ⟨?_, hj⟩
    rcases hj with rfl | hj
    · exact hi
    · exact h.lt_capacity hj

theorem Shows.erase (h : s.Shows members) (i : Nat) : (s.erase i).Shows (members.erase i) := by
  intro j
  rw [contains_erase, h j, Bool.eq_iff_iff]
  simp only [Bool.and_eq_true, Bool.not_eq_true', decide_eq_true_eq, decide_eq_false_iff_not,
    Finset.mem_erase, ne_eq]

/-- The rank of a number counts the members below it. -/
theorem Shows.rank_eq (h : s.Shows members) (n : Nat) :
    s.rank n = (members.filter fun i => i < n).card := by
  have hset : (Finset.range n).filter (fun i => s.contains i = true)
      = members.filter fun i => i < n := by
    ext i
    simp only [Finset.mem_filter, Finset.mem_range, h.iff, and_comm]
  rw [rank, Nat.count_eq_card_filter_range, hset]

theorem Shows.countIn_eq (h : s.Shows members) (lower upper : Nat) :
    s.countIn lower upper = (members.filter fun i => lower ≤ i ∧ i ≤ upper).card := by
  rw [BitSet.countIn_eq, h.rank_eq, h.rank_eq]
  rcases Nat.lt_or_ge upper lower with hempty | hle
  · -- no number lies between, and the difference of the ranks stops at zero
    have hnone : (members.filter fun i => lower ≤ i ∧ i ≤ upper) = ∅ := by
      refine Finset.filter_eq_empty_iff.mpr fun i _ hi => ?_
      omega
    have hmono : (members.filter fun i => i < upper + 1).card
        ≤ (members.filter fun i => i < lower).card := by
      refine Finset.card_le_card fun i hi => ?_
      rw [Finset.mem_filter] at hi ⊢
      exact ⟨hi.1, by omega⟩
    rw [hnone, Finset.card_empty]
    omega
  · have hsplit := Finset.card_filter_add_card_filter_not
      (s := members.filter fun i => i < upper + 1) fun i => i < lower
    have hbelow : (members.filter fun i => i < upper + 1).filter (fun i => i < lower)
        = members.filter fun i => i < lower := by
      rw [Finset.filter_filter]
      refine Finset.filter_congr fun i _ => ?_
      omega
    have hbetween : (members.filter fun i => i < upper + 1).filter (fun i => ¬ i < lower)
        = members.filter fun i => lower ≤ i ∧ i ≤ upper := by
      rw [Finset.filter_filter]
      refine Finset.filter_congr fun i _ => ?_
      omega
    rw [hbelow, hbetween] at hsplit
    omega

theorem Shows.answers (h : s.Shows members) : layout.Answers s members where
  contains i := congrArg Except.ok (h i)
  next start := by
    refine ⟨s.next? start, rfl, ?_⟩
    cases hnext : s.next? start with
    | some i =>
      obtain ⟨hle, hin, hmin⟩ := next?_eq_some hnext
      refine ⟨⟨(h.iff i).mp hin, hle⟩, ?_⟩
      rintro j ⟨hj, hstart⟩
      by_contra hlt
      exact h.ne_false hj (hmin j hstart (Nat.lt_of_not_le hlt))
    | none =>
      refine Set.eq_empty_of_forall_notMem ?_
      rintro j ⟨hj, hstart⟩
      exact h.ne_false hj (next?_eq_none hnext j hstart)
  previous start := by
    refine ⟨s.previous? start, rfl, ?_⟩
    cases hprevious : s.previous? start with
    | some i =>
      obtain ⟨hle, hin, hmax⟩ := previous?_eq_some hprevious
      refine ⟨⟨(h.iff i).mp hin, hle⟩, ?_⟩
      rintro j ⟨hj, hstart⟩
      by_contra hlt
      exact h.ne_false hj (hmax j (Nat.lt_of_not_le hlt) hstart)
    | none =>
      refine Set.eq_empty_of_forall_notMem ?_
      rintro j ⟨hj, hstart⟩
      exact h.ne_false hj (previous?_eq_none hprevious j hstart)
  count lower upper := congrArg Except.ok (h.countIn_eq lower upper)
  toList := by
    refine congrArg Except.ok ?_
    -- both lists ascend and have the same members
    refine List.Pairwise.eq_of_mem_iff s.pairwise_toList members.sortedLT_sort.pairwise ?_
    intro i
    rw [mem_toList, h.iff, Finset.mem_sort]

theorem create_shows (capacity : Nat) (filled : Bool) :
    ∃ s, layout.create capacity filled = .ok s
      ∧ s.capacity = capacity ∧ s.Shows (IndexChange.initial capacity filled) := by
  cases filled with
  | true => exact ⟨.full capacity, rfl, rfl, fun i => by simp [IndexChange.initial]⟩
  | false => exact ⟨.empty capacity, rfl, rfl, fun i => by simp [IndexChange.initial]⟩

/-- A change below the capacity is reported truly, and the tree has the members after it. -/
theorem Shows.change (h : s.Shows members) {c : IndexChange} (hc : c.index < s.capacity) :
    ∃ t, layout.change s c = .ok (decide (c.apply members ≠ members), t)
      ∧ t.capacity = s.capacity ∧ t.Shows (c.apply members) := by
  have hslot : c.index < s.slots := by
    simp only [slots]
    omega
  cases c with
  | insert i =>
    refine ⟨s.insert i, ?_, s.capacity_insert i, h.insert hc⟩
    have hreport : (!s.contains i) = decide ((IndexChange.insert i).apply members ≠ members) := by
      rw [h i, ← decide_not]
      exact decide_eq_decide.mpr IndexChange.apply_insert_ne.symm
    rw [← hreport]
    exact if_pos hslot
  | remove i =>
    refine ⟨s.erase i, ?_, s.capacity_erase i, h.erase i⟩
    have hreport : s.contains i = decide ((IndexChange.remove i).apply members ≠ members) := by
      rw [h i]
      exact decide_eq_decide.mpr IndexChange.apply_remove_ne.symm
    rw [← hreport]
    exact if_pos hslot

/-- Trees keep the members of their sets. -/
def simulation : Simulation layout where
  shows s capacity members := s.capacity = capacity ∧ s.Shows members
  create := create_shows
  change := by
    rintro s capacity members c ⟨rfl, h⟩ hc
    exact h.change hc
  answers h := h.2.answers

end BitSet

end FiniteDomain
