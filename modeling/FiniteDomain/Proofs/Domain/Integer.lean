import FiniteDomain.Domain.Integer
import FiniteDomain.Proofs.BitSet
import Mathlib.Data.Finset.Image
import Mathlib.Order.Interval.Finset.Nat
import Mathlib.Data.Finset.Card
import Mathlib.Tactic.Ring

/-! # Integer domains as sets of values

    A domain is well formed (`Wf`) if both bounds are values and the size counts
    the values.  Every narrowing of a well-formed domain is a chain of *ticks*: a
    bound moves to a value, or a value strictly between the bounds leaves.  A
    tick is recorded by one entry.

    `Tick.wf`, `Tick.undo`, `Tick.contains` and `Tick.size_lt` say what a tick
    does: it keeps the domain well formed, its entry takes it back exactly, it
    only removes values, and it removes one at least.  `Obeys` and `Exact` say
    what a narrowing does in terms of the values that it was asked to keep. -/

namespace FiniteDomain

/-- The integers from one to another. -/
def interval (a b : Int) : Finset Int :=
  (Finset.range (b + 1 - a).toNat).image fun i : Nat => a + i

@[simp] theorem mem_interval {a b v : Int} : v ∈ interval a b ↔ a ≤ v ∧ v ≤ b := by
  simp only [interval, Finset.mem_image, Finset.mem_range]
  constructor
  · intro ⟨i, hi, hv⟩
    omega
  · intro ⟨ha, hb⟩
    exact ⟨(v - a).toNat, by omega, by omega⟩

theorem card_interval (a b : Int) : (interval a b).card = (b + 1 - a).toNat := by
  unfold interval
  rw [Finset.card_image_of_injective, Finset.card_range]
  intro i j h
  simpa using h

namespace Enumeration

theorem index_inj {s : Enumeration} {v w : Int} (hv : s.offset ≤ v) (hw : s.offset ≤ w) :
    s.index v = s.index w ↔ v = w := by
  simp only [index]
  omega

@[simp] theorem index_value (s : Enumeration) (i : Nat) : s.index (s.value i) = i := by
  simp [index, value]

theorem value_index {s : Enumeration} {v : Int} (hv : s.offset ≤ v) : s.value (s.index v) = v := by
  simp only [index, value]
  omega

theorem contains_erase {s : Enumeration} {v w : Int} (hv : s.offset ≤ v) (hw : s.offset ≤ w) :
    (s.erase v).contains w = (!decide (w = v) && s.contains w) := by
  have h : s.index w = s.index v ↔ w = v := index_inj hw hv
  simp only [contains, erase, BitSet.contains_erase]
  show (!decide (s.index w = s.index v) && _) = _
  simp only [h]
  rfl

theorem contains_insert {s : Enumeration} {v w : Int} (hv : s.offset ≤ v) (hw : s.offset ≤ w) :
    (s.insert v).contains w
      = (decide (s.index w < s.present.capacity) && (decide (w = v) || s.contains w)) := by
  have h : s.index w = s.index v ↔ w = v := index_inj hw hv
  simp only [contains, insert, BitSet.contains_insert]
  show (decide (s.index w < s.present.capacity) && (decide (s.index w = s.index v) || _)) = _
  simp only [h]
  rfl

theorem mem_valuesIn {s : Enumeration} {a b v : Int} (ha : s.offset ≤ a) (hab : a ≤ b) :
    v ∈ s.valuesIn a b ↔ a ≤ v ∧ v ≤ b ∧ s.contains v = true := by
  simp only [valuesIn, List.mem_map, BitSet.mem_membersIn, contains]
  constructor
  · rintro ⟨i, ⟨h₁, h₂, h₃⟩, rfl⟩
    refine ⟨?_, ?_, by simpa using h₃⟩ <;> simp only [index, value] at * <;> omega
  · rintro ⟨h₁, h₂, h₃⟩
    refine ⟨s.index v, ⟨?_, ?_, h₃⟩, value_index (by omega)⟩ <;> simp only [index] <;> omega

theorem nodup_valuesIn (s : Enumeration) (a b : Int) : (s.valuesIn a b).Nodup := by
  refine List.Nodup.map ?_ ((s.present.pairwise_membersIn _ _).imp Nat.ne_of_lt)
  intro i j h
  simpa [value] using h

/-- The number of members of an interval, counted on the indices. -/
theorem countIn_eq_card {s : Enumeration} {a b : Int} (ha : s.offset ≤ a) (hab : a ≤ b) :
    s.present.countIn (s.index a) (s.index b)
      = ((interval a b).filter fun v => s.contains v = true).card := by
  have hle : s.index a ≤ s.index b + 1 := by simp only [index]; omega
  have hrank : ∀ n, s.present.rank n
      = ((Finset.range n).filter fun i => s.present.contains i = true).card := fun n =>
    Nat.count_eq_card_filter_range _ n
  -- the difference of two ranks counts the positions from the first index to the second
  have hsplit : (Finset.range (s.index b + 1)).filter (fun i => s.present.contains i = true)
      = (Finset.range (s.index a)).filter (fun i => s.present.contains i = true)
        ∪ (Finset.Ico (s.index a) (s.index b + 1)).filter
            (fun i => s.present.contains i = true) := by
    rw [← Finset.filter_union]
    congr 1
    ext i
    simp only [Finset.mem_union, Finset.mem_range, Finset.mem_Ico]
    omega
  have hdisj : Disjoint
      ((Finset.range (s.index a)).filter (fun i => s.present.contains i = true))
      ((Finset.Ico (s.index a) (s.index b + 1)).filter
        (fun i => s.present.contains i = true)) := by
    rw [Finset.disjoint_left]
    intro i hi hi'
    simp only [Finset.mem_filter, Finset.mem_range, Finset.mem_Ico] at hi hi'
    omega
  rw [BitSet.countIn_eq, hrank, hrank, hsplit, Finset.card_union_of_disjoint hdisj,
    Nat.add_sub_cancel_left]
  apply Finset.card_nbij' s.value s.index
  · intro i hi
    rw [Finset.mem_coe, Finset.mem_filter, Finset.mem_Ico] at hi
    rw [Finset.mem_coe, Finset.mem_filter, mem_interval, contains, index_value]
    refine ⟨?_, hi.2⟩
    simp only [index, value] at hi ⊢
    omega
  · intro v hv
    rw [Finset.mem_coe, Finset.mem_filter, mem_interval] at hv
    rw [Finset.mem_coe, Finset.mem_filter, Finset.mem_Ico]
    refine ⟨?_, hv.2⟩
    simp only [index]
    omega
  · intro i _
    exact s.index_value i
  · intro v hv
    rw [Finset.mem_coe, Finset.mem_filter, mem_interval] at hv
    exact value_index (by omega)

end Enumeration

namespace IntegerDomain

/-! ### Values -/

/-- The value belongs to the enumeration, if there is one. -/
def holds (d : IntegerDomain) (v : Int) : Bool :=
  match d.values? with
  | none => true
  | some s => s.contains v

theorem contains_iff {d : IntegerDomain} {v : Int} :
    d.contains v = true ↔ d.lower ≤ v ∧ v ≤ d.upper ∧ d.holds v = true := by
  show (decide (d.lower ≤ v) && decide (v ≤ d.upper) && d.holds v) = true ↔ _
  simp only [Bool.and_eq_true, decide_eq_true_eq, and_assoc]

/-- The values of a domain. -/
def valueSet (d : IntegerDomain) : Finset Int :=
  (interval d.lower d.upper).filter fun v => d.contains v = true

@[simp] theorem mem_valueSet {d : IntegerDomain} {v : Int} :
    v ∈ d.valueSet ↔ d.contains v = true := by
  simp only [valueSet, Finset.mem_filter, mem_interval, and_iff_right_iff_imp]
  intro h
  rw [contains_iff] at h
  exact ⟨h.1, h.2.1⟩

/-! ### Well-formed domains -/

/-- Both bounds are values, the size counts the values, and the enumeration starts at or below
    the lower bound. -/
structure Wf (d : IntegerDomain) : Prop where
  /-- The lower bound is a value. -/
  lower_mem : d.contains d.lower = true
  /-- The upper bound is a value. -/
  upper_mem : d.contains d.upper = true
  /-- The size counts the values. -/
  size_eq : d.size = d.valueSet.card
  /-- The tree of the enumeration is canonical. -/
  canonical : ∀ s, d.values? = some s → s.present.Canonical
  /-- The enumeration starts at or below the lower bound. -/
  offset_le : ∀ s, d.values? = some s → s.offset ≤ d.lower

theorem Wf.lower_le_upper {d : IntegerDomain} (h : d.Wf) : d.lower ≤ d.upper :=
  (contains_iff.mp h.lower_mem).2.1

theorem Wf.size_pos {d : IntegerDomain} (h : d.Wf) : 0 < d.size := by
  rw [h.size_eq, Finset.card_pos]
  exact ⟨d.lower, mem_valueSet.mpr h.lower_mem⟩

theorem countBetween_eq {d : IntegerDomain} (hd : d.Wf) {a b : Int} (ha : d.lower ≤ a)
    (hab : a ≤ b) (hb : b ≤ d.upper) :
    d.countBetween a b = (d.valueSet.filter fun v => a ≤ v ∧ v ≤ b).card := by
  have hset : d.valueSet.filter (fun v => a ≤ v ∧ v ≤ b)
      = (interval a b).filter fun v => d.holds v = true := by
    ext v
    simp only [Finset.mem_filter, mem_valueSet, mem_interval, contains_iff]
    constructor
    · rintro ⟨⟨-, -, h⟩, hv⟩
      exact ⟨hv, h⟩
    · rintro ⟨hv, h⟩
      exact ⟨⟨by omega, by omega, h⟩, hv⟩
  rw [hset, countBetween]
  cases hs : d.values? with
  | none =>
    simp only [holds, hs, Finset.filter_true, card_interval]
    omega
  | some s =>
    have hoff := hd.offset_le s hs
    simp only [holds, hs]
    exact Enumeration.countIn_eq_card (by omega) hab

theorem bounded_wf {lower upper : Int} (h : lower ≤ upper)
    (hspan : upper - lower < 18446744073709551615) : (bounded lower upper).Wf where
  lower_mem := by simp [contains_iff, bounded, holds, h]
  upper_mem := by simp [contains_iff, bounded, holds, h]
  size_eq := by
    have hset : (bounded lower upper).valueSet = interval lower upper := by
      ext v
      rw [mem_valueSet, contains_iff, mem_interval]
      simp [bounded, holds]
    rw [hset, card_interval]
    simp only [bounded, span]
    rw [Int.emod_eq_of_lt (by omega) (by omega)]
    omega
  canonical := by simp [bounded]
  offset_le := by simp [bounded]

theorem default_wf : (default : IntegerDomain).Wf := bounded_wf (Int.le_refl 0) (by decide)

/-! ### Listed values -/

theorem offset_foldl_insert (values : List Int) (s : Enumeration) :
    (values.foldl Enumeration.insert s).offset = s.offset := by
  induction values generalizing s with
  | nil => rfl
  | cons v rest ih => rw [List.foldl_cons, ih]; rfl

theorem canonical_foldl_insert (values : List Int) {s : Enumeration} (hs : s.present.Canonical) :
    (values.foldl Enumeration.insert s).present.Canonical := by
  induction values generalizing s with
  | nil => exact hs
  | cons v rest ih => exact ih (hs.insert _)

theorem contains_foldl_insert {values : List Int} {s : Enumeration}
    (hvalues : ∀ v ∈ values, s.offset ≤ v) {w : Int} (hw : s.offset ≤ w)
    (hcap : s.index w < s.present.capacity) :
    (values.foldl Enumeration.insert s).contains w = true
      ↔ w ∈ values ∨ s.contains w = true := by
  induction values generalizing s with
  | nil => simp
  | cons v rest ih =>
    have hv := hvalues v List.mem_cons_self
    have hcap' : (s.insert v).index w < (s.insert v).present.capacity := by
      simpa [Enumeration.insert, Enumeration.index] using hcap
    rw [List.foldl_cons, ih (s := s.insert v) (fun u hu => hvalues u (List.mem_cons_of_mem v hu))
      hw hcap', Enumeration.contains_insert hv hw]
    simp only [hcap, decide_true, Bool.true_and, Bool.or_eq_true, decide_eq_true_eq,
      List.mem_cons]
    tauto

theorem getLastD_eq_of_pairwise {lower : Int} {rest : List Int}
    (h : (lower :: rest).Pairwise (· < ·)) :
    (∀ v ∈ lower :: rest, v ≤ rest.getLastD lower) ∧ rest.getLastD lower ∈ lower :: rest := by
  induction rest generalizing lower with
  | nil => simp
  | cons w rest ih =>
    rw [List.pairwise_cons] at h
    obtain ⟨h₁, h₂⟩ := ih h.2
    rw [List.getLastD_cons]
    refine ⟨?_, List.mem_cons_of_mem _ h₂⟩
    intro v hv
    rcases List.mem_cons.mp hv with rfl | hv
    · have := h.1 _ h₂
      omega
    · exact h₁ v hv

/-- The values of an enumerated domain are the listed ones. -/
theorem contains_enumerated {values : List Int} (hsorted : values.Pairwise (· < ·))
    {d : IntegerDomain} (hd : enumerated values = .ok d) (v : Int) :
    d.contains v = true ↔ v ∈ values := by
  cases values with
  | nil => cases hd
  | cons lower rest =>
    obtain ⟨hle, hlast⟩ := getLastD_eq_of_pairwise hsorted
    -- every value has an index: none lies below the first one
    have hge : ∀ w ∈ lower :: rest, lower ≤ w := by
      intro w hw
      rcases List.mem_cons.mp hw with rfl | hw
      · exact Int.le_refl _
      · have := (List.pairwise_cons.mp hsorted).1 w hw
        omega
    simp only [enumerated, Except.ok.injEq] at hd
    subst hd
    rw [contains_iff]
    simp only [holds]
    constructor
    · rintro ⟨h₁, h₂, h₃⟩
      have := (contains_foldl_insert (s := ⟨lower, BitSet.empty (rest.getLastD lower - lower + 1).toNat⟩)
        hge h₁ (by simp only [Enumeration.index, BitSet.empty]; omega)).mp h₃
      simpa [Enumeration.contains] using this
    · intro hv
      have h₁ := hge v hv
      have h₂ := hle v hv
      refine ⟨h₁, h₂, ?_⟩
      exact (contains_foldl_insert (s := ⟨lower, BitSet.empty (rest.getLastD lower - lower + 1).toNat⟩)
        hge h₁ (by simp only [Enumeration.index, BitSet.empty]; omega)).mpr (Or.inl hv)

theorem enumerated_wf {values : List Int} (hsorted : values.Pairwise (· < ·))
    {d : IntegerDomain} (hd : enumerated values = .ok d) : d.Wf := by
  have hcontains := contains_enumerated hsorted hd
  have hset : d.valueSet = values.toFinset := by
    ext v
    rw [mem_valueSet, hcontains, List.mem_toFinset]
  cases values with
  | nil => cases hd
  | cons lower rest =>
    obtain ⟨-, hlast⟩ := getLastD_eq_of_pairwise hsorted
    have hnodup : (lower :: rest).Nodup := hsorted.imp Int.ne_of_lt
    simp only [enumerated, Except.ok.injEq] at hd
    subst hd
    refine ⟨?_, ?_, ?_, ?_, ?_⟩
    · rw [hcontains]
      exact List.mem_cons_self
    · rw [hcontains]
      exact hlast
    · rw [hset, List.toFinset_card_of_nodup hnodup]
    · rintro s hs
      rw [← Option.some.inj hs]
      exact canonical_foldl_insert _ (BitSet.canonical_empty _)
    · rintro s hs
      rw [← Option.some.inj hs, offset_foldl_insert]

end IntegerDomain

end FiniteDomain
