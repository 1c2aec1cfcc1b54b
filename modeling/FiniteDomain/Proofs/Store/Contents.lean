import FiniteDomain.Proofs.Store.Steps
import Mathlib.Algebra.BigOperators.Group.List.Basic
import Mathlib.Algebra.Order.BigOperators.GroupWithZero.List

/-! # Counting contents

    `Store.contents` is the product of the sizes of the integer domains and of two
    for everything optional in sets and graphs.  It never grows.  Stores that
    share out the values of one variable have at most as many contents together as
    the store they come from (`contents_share`), and a change of a set or graph
    halves the contents (`Step.two_mul_contents_le`). -/

namespace FiniteDomain

/-! ### Products over tables -/

namespace Table

variable {α : Type}

/-- A product over the rows as a multiple of the weight of one row. -/
theorem exists_product {t : Table α} {key : Nat} (h : key < t.size) (weight : α → Nat) :
    ∃ rest, ∀ row, ((t.modify key fun _ => row).toList.map weight).prod = rest * weight row := by
  have hlist : ∀ (l : List α) (k : Nat), k < l.length →
      ∃ rest, ∀ row, ((l.modify k fun _ => row).map weight).prod = rest * weight row := by
    intro l
    induction l with
    | nil =>
      intro k hk
      exact absurd hk (Nat.not_lt_zero k)
    | cons a l ih =>
      intro k hk
      cases k with
      | zero =>
        refine ⟨(l.map weight).prod, fun row => ?_⟩
        rw [List.modify_zero_cons, List.map_cons, List.prod_cons, Nat.mul_comm]
      | succ k =>
        obtain ⟨rest, hrest⟩ := ih k (Nat.lt_of_succ_lt_succ hk)
        refine ⟨weight a * rest, fun row => ?_⟩
        rw [List.modify_succ_cons, List.map_cons, List.prod_cons, hrest, Nat.mul_assoc]
  obtain ⟨rest, hrest⟩ := hlist t.toList key h
  refine ⟨rest, fun row => ?_⟩
  rw [← hrest row]
  simp only [toList, modify, Array.toList_modify]

end Table

namespace Store

variable {s t : Store}

/-- Everything optional in sets and graphs. -/
def options (s : Store) : Nat := s.sets.total SetDomain.slack + s.graphs.total GraphDomain.slack

/-- The number of ways to choose the values of the integer variables. -/
def choices (s : Store) : Nat := (s.ints.toList.map IntegerDomain.size).prod

theorem contents_eq (s : Store) : s.contents = s.choices * 2 ^ s.options := by
  unfold contents choices options
  rw [Nat.one_shiftLeft, List.prod_eq_foldl]

theorem slack_eq (s : Store) : s.slack = s.ints.total IntegerDomain.size + s.options :=
  Nat.add_assoc ..

theorem choices_pos (hs : s.Wf) : 0 < s.choices := by
  refine List.prod_pos fun n hn => ?_
  obtain ⟨d, hd, rfl⟩ := List.mem_map.mp hn
  exact (hs.ints d (Array.mem_toList_iff.mp hd)).size_pos

theorem contents_pos (hs : s.Wf) : 0 < s.contents := by
  rw [contents_eq]
  exact Nat.mul_pos (choices_pos hs) (Nat.two_pow_pos _)

/-- The choices as a multiple of the size of one domain. -/
theorem exists_choices {x : IntId} (h : x.index < s.ints.size) :
    ∃ rest, ∀ t : Store, (∃ d, t.ints = s.ints.modify x.index fun _ => d) →
      t.choices = rest * (t.int x).size := by
  obtain ⟨rest, hrest⟩ := Table.exists_product h IntegerDomain.size
  refine ⟨rest, fun t ht => ?_⟩
  obtain ⟨d, hd⟩ := ht
  unfold choices Store.int
  rw [hd, hrest, Table.getD_modify_self h]

/-! ### Contents never grow -/

theorem Tick.contents_le {entry : StoreEntry} (h : Tick s entry t) (hs : s.Wf) :
    t.contents ≤ s.contents := by
  rw [contents_eq, contents_eq]
  cases h with
  | @int x d entry known tick =>
    -- the other variables contribute the same factor before and after
    obtain ⟨rest, hrest⟩ := exists_choices known
    have hself : s.choices = rest * (s.int x).size :=
      hrest s ⟨s.int x, (Table.modify_getD s.ints x.index default).symm⟩
    have hlt := tick.size_lt (hs.int x)
    have hnew := hrest { s with ints := s.ints.modify x.index fun _ => d
                                trail := s.trail.push (.int x entry) } ⟨d, rfl⟩
    have hint : ({ s with ints := s.ints.modify x.index fun _ => d
                          trail := s.trail.push (.int x entry) } : Store).int x = d :=
      Table.getD_modify_self known ..
    rw [hnew, hself, hint]
    exact Nat.mul_le_mul_right _ (Nat.mul_le_mul_left _ (Nat.le_of_lt hlt))
  | @set y d entry known tick =>
    have hlt := Table.total_modify_lt known SetDomain.slack default (tick.optional_lt (hs.set y))
    refine Nat.mul_le_mul_left _ (Nat.pow_le_pow_right Nat.two_pos ?_)
    exact Nat.add_le_add_right (Nat.le_of_lt hlt) _
  | @graph g d entry known tick =>
    have hlt := Table.total_modify_lt known GraphDomain.slack default (tick.slack_lt (hs.graph g))
    refine Nat.mul_le_mul_left _ (Nat.pow_le_pow_right Nat.two_pos ?_)
    exact Nat.add_le_add_left (Nat.le_of_lt hlt) _
  | passivation p active => exact Nat.le_refl _

theorem Tick.admits {entry : StoreEntry} {a : Valuation} (h : Tick s entry t) (hs : s.Wf)
    (ha : t.Admits a) : s.Admits a := by
  cases h with
  | @int x d entry known tick =>
    have hchange : (s.changeInt x d []).Admits a := ⟨ha.int, ha.set, ha.graph⟩
    exact hchange.of_changeInt known fun v hv => tick.contains (hs.int x) hv
  | @set y d entry known tick =>
    have hchange : (s.changeSet y d []).Admits a := ⟨ha.int, ha.set, ha.graph⟩
    exact hchange.of_changeSet known fun c hc => tick.admits (hs.set y) hc
  | @graph g d entry known tick =>
    have hchange : (s.changeGraph g d []).Admits a := ⟨ha.int, ha.set, ha.graph⟩
    exact hchange.of_changeGraph known fun c hc => tick.admits (hs.graph g) hc
  | passivation p active => exact ⟨ha.int, ha.set, ha.graph⟩

theorem Tick.knows {entry : StoreEntry} (h : Tick s entry t) (v : VariableId) :
    t.knows v = s.knows v := by
  cases h with
  | int x known tick =>
    cases v with
    | int z => exact congrArg (fun n => decide (z.index < n)) (Table.size_modify ..)
    | set z => rfl
    | graph z => rfl
  | set y known tick =>
    cases v with
    | int z => rfl
    | set z => exact congrArg (fun n => decide (z.index < n)) (Table.size_modify ..)
    | graph z => rfl
  | graph g known tick =>
    cases v with
    | int z => rfl
    | set z => rfl
    | graph z => exact congrArg (fun n => decide (z.index < n)) (Table.size_modify ..)
  | passivation p active => rfl

theorem Tick.order {entry : StoreEntry} (h : Tick s entry t) (z : GraphId) :
    (t.graph z).order = (s.graph z).order := by
  cases h with
  | int x known tick => rfl
  | set y known tick => rfl
  | @graph g d entry known tick =>
    by_cases heq : z = g
    · subst heq
      have hnew : ({ s with graphs := s.graphs.modify z.index fun _ => d
                            trail := s.trail.push (.graph z entry) } : Store).graph z = d :=
        Table.getD_modify_self known ..
      rw [hnew]
      exact tick.order_eq
    · refine congrArg GraphDomain.order (Table.getD_modify_of_ne (fun hidx => heq ?_) ..)
      cases z
      cases g
      exact congrArg GraphId.mk hidx.symm
  | passivation p active => rfl

/-- A domain keeps its kind. -/
theorem Tick.isEnumerated_eq {entry : StoreEntry} (h : Tick s entry t) (x : IntId) :
    (t.int x).isEnumerated = (s.int x).isEnumerated := by
  cases h with
  | @int z d entry known tick =>
    show ((s.changeInt z d []).int x).isEnumerated = (s.int x).isEnumerated
    by_cases heq : x = z
    · subst heq
      rw [int_changeInt known]
      exact tick.isEnumerated_eq
    · rw [int_changeInt_of_ne heq]
  | set y known tick => rfl
  | graph g known tick => rfl
  | passivation p active => rfl

namespace Extends

theorem contents_le (h : Extends s t) (hs : s.Wf) : t.contents ≤ s.contents := by
  obtain ⟨entries, h⟩ := h
  exact (FiniteDomain.Chain.invariant (P := fun u => u.Wf ∧ u.contents ≤ s.contents) h
    (fun htick hu => ⟨htick.wf hu.1, (htick.contents_le hu.1).trans hu.2⟩)
    ⟨hs.dropEvents, Nat.le_refl _⟩).2

theorem knows (h : Extends s t) (v : VariableId) : t.knows v = s.knows v := by
  obtain ⟨entries, h⟩ := h
  have hend := FiniteDomain.Chain.invariant (P := fun u => u.knows v = s.knows v) h
    (fun htick hu => (htick.knows v).trans hu) (by cases v <;> rfl)
  cases v <;> exact hend

theorem order (h : Extends s t) (g : GraphId) : (t.graph g).order = (s.graph g).order := by
  obtain ⟨entries, h⟩ := h
  exact FiniteDomain.Chain.invariant (P := fun u => (u.graph g).order = (s.graph g).order) h
    (fun htick hu => (htick.order g).trans hu) rfl

theorem admits {a : Valuation} (h : Extends s t) (hs : s.Wf) (ha : t.Admits a) : s.Admits a := by
  obtain ⟨entries, h⟩ := h
  have hend := FiniteDomain.Chain.invariant (P := fun u => u.Wf ∧ (u.Admits a → s.Admits a)) h
    (fun htick hu => ⟨htick.wf hu.1, fun hau => hu.2 (htick.admits hu.1 hau)⟩)
    ⟨hs.dropEvents, fun hau => ⟨hau.int, hau.set, hau.graph⟩⟩
  exact hend.2 ⟨ha.int, ha.set, ha.graph⟩

theorem isEnumerated_eq (h : Extends s t) (x : IntId) :
    (t.int x).isEnumerated = (s.int x).isEnumerated := by
  obtain ⟨entries, h⟩ := h
  exact FiniteDomain.Chain.invariant
    (P := fun u => (u.int x).isEnumerated = (s.int x).isEnumerated) h
    (fun htick hu => (htick.isEnumerated_eq x).trans hu) rfl

theorem isEnumerated (h : Extends s t) {x : IntId} (hx : (s.int x).isEnumerated = true) :
    (t.int x).isEnumerated = true :=
  (h.isEnumerated_eq x).trans hx

theorem narrower (h : Extends s t) (hs : s.Wf) : Narrower s t :=
  ⟨h.wf hs, h.knows, h.order, fun _ ha => h.admits hs ha⟩

end Extends

/-! ### Sharing out -/

/-- A change that leaves the integer variables alone halves the contents. -/
theorem Step.two_mul_contents_le (h : Step s t) (hs : s.Wf) (hints : t.ints = s.ints) :
    2 * t.contents ≤ s.contents := by
  have hlt := h.slack_lt hs
  rw [slack_eq, slack_eq, hints] at hlt
  have hoptions : t.options + 1 ≤ s.options := by omega
  have hchoices : t.choices = s.choices := by
    unfold choices
    rw [hints]
  rw [contents_eq, contents_eq, hchoices]
  calc 2 * (s.choices * 2 ^ t.options) = s.choices * 2 ^ (t.options + 1) := by
        rw [Nat.pow_succ, Nat.mul_left_comm, Nat.mul_comm 2]
    _ ≤ s.choices * 2 ^ s.options :=
        Nat.mul_le_mul_left _ (Nat.pow_le_pow_right Nat.two_pos hoptions)

/-- The second store differs from the first at one integer variable only, which has kept some of
    its values. -/
structure NarrowedAt (s : Store) (x : IntId) (t : Store) : Prop where
  wf : t.Wf
  ints : ∃ d, t.ints = s.ints.modify x.index fun _ => d
  sets : t.sets = s.sets
  graphs : t.graphs = s.graphs
  values : ∀ v, (t.int x).contains v = true → (s.int x).contains v = true

/-- Stores that differ at one variable only have contents in proportion to its size. -/
theorem sum_contents {x : IntId} {rest : Nat} (stores : List Store)
    (hrest : ∀ t : Store, (∃ d, t.ints = s.ints.modify x.index fun _ => d) →
      t.choices = rest * (t.int x).size)
    (hstores : ∀ t ∈ stores, NarrowedAt s x t) :
    (stores.map Store.contents).sum
      = rest * 2 ^ s.options * (stores.map fun t => (t.int x).size).sum := by
  induction stores with
  | nil => rfl
  | cons t more ih =>
    have ht := hstores t List.mem_cons_self
    have hoptions : t.options = s.options := by
      unfold options
      rw [ht.sets, ht.graphs]
    rw [List.map_cons, List.sum_cons, ih fun u hu => hstores u (List.mem_cons_of_mem t hu),
      List.map_cons, List.sum_cons, contents_eq, hrest t ht.ints, hoptions, Nat.mul_add,
      Nat.mul_right_comm]

/-- If the values at a variable are disjoint, all of them together are counted by the sum of the
    sizes. -/
theorem exists_values {x : IntId} (stores : List Store) (hstores : ∀ t ∈ stores, t.Wf)
    (hdisjoint : stores.Pairwise fun t u =>
      ∀ v, (t.int x).contains v = true → ¬ (u.int x).contains v = true) :
    ∃ values : Finset Int, (stores.map fun t => (t.int x).size).sum = values.card
      ∧ ∀ v, v ∈ values ↔ ∃ t ∈ stores, (t.int x).contains v = true := by
  -- the values of the first store are none of those gathered from the others
  induction stores with
  | nil => exact ⟨∅, rfl, by simp⟩
  | cons t more ih =>
    obtain ⟨hfirst, hmore⟩ := List.pairwise_cons.mp hdisjoint
    obtain ⟨values, hcard, hvalues⟩ := ih (fun u hu => hstores u (List.mem_cons_of_mem t hu)) hmore
    refine ⟨(t.int x).valueSet ∪ values, ?_, fun v => ?_⟩
    · rw [List.map_cons, List.sum_cons, hcard, ((hstores t List.mem_cons_self).int x).size_eq,
        Finset.card_union_of_disjoint]
      refine Finset.disjoint_left.mpr fun v hv hin => ?_
      obtain ⟨u, hu, hcontains⟩ := (hvalues v).mp hin
      exact hfirst u hu v (IntegerDomain.mem_valueSet.mp hv) hcontains
    · rw [Finset.mem_union, hvalues, IntegerDomain.mem_valueSet]
      simp only [List.mem_cons, exists_eq_or_imp]

/-- Stores that share out the values of one variable. -/
theorem contents_share {x : IntId} (hs : s.Wf) (hx : x.index < s.ints.size) (stores : List Store)
    (hstores : ∀ t ∈ stores, NarrowedAt s x t)
    (hdisjoint : stores.Pairwise fun t u =>
      ∀ v, (t.int x).contains v = true → ¬ (u.int x).contains v = true) :
    (stores.map Store.contents).sum ≤ s.contents := by
  obtain ⟨rest, hrest⟩ := exists_choices hx
  have hself : s.choices = rest * (s.int x).size :=
    hrest s ⟨s.int x, (Table.modify_getD s.ints x.index default).symm⟩
  -- the values of the stores are disjoint sets of values of the variable
  have hsizes : (stores.map fun t => (t.int x).size).sum ≤ (s.int x).size := by
    obtain ⟨values, hcount, hvalues⟩ := exists_values stores (fun t ht => (hstores t ht).wf) hdisjoint
    rw [(hs.int x).size_eq, hcount]
    refine Finset.card_le_card fun v hv => ?_
    obtain ⟨t, ht, hcontains⟩ := (hvalues v).mp hv
    exact IntegerDomain.mem_valueSet.mpr ((hstores t ht).values v hcontains)
  rw [sum_contents stores hrest hstores, contents_eq, hself]
  calc rest * 2 ^ s.options * (stores.map fun t => (t.int x).size).sum
      ≤ rest * 2 ^ s.options * (s.int x).size := Nat.mul_le_mul_left _ hsizes
    _ = rest * (s.int x).size * 2 ^ s.options := Nat.mul_right_comm ..

end Store

end FiniteDomain
