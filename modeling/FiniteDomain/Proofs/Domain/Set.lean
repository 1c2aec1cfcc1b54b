import FiniteDomain.Domain.Set
import FiniteDomain.Proofs.BitSet
import FiniteDomain.Proofs.Domain.Chain
import Mathlib.Data.Set.Basic
import Mathlib.Data.Finset.Card

/-! # Set domains as sets of sets

    A set domain is well formed (`Wf`) if the kernel is part of the envelope and
    both sizes count their elements.  It admits the sets between kernel and
    envelope (`Admits`).

    A tick takes one optional element out of the envelope or puts it into the
    kernel; both narrowings are one tick at most. -/

namespace FiniteDomain.SetDomain

/-! ### Elements -/

/-- The kernel is part of the envelope, and the sizes count the elements. -/
structure Wf (d : SetDomain) : Prop where
  /-- The ground set is sorted and without repetitions. -/
  sorted : d.ground.toList.Pairwise (· < ·)
  /-- The envelope is a set of indices of the ground set. -/
  envelope_capacity : d.envelope.capacity = d.ground.size
  /-- The kernel is a set of indices of the ground set. -/
  kernel_capacity : d.kernel.capacity = d.ground.size
  /-- The tree of the envelope is canonical. -/
  envelope_canonical : d.envelope.Canonical
  /-- The tree of the kernel is canonical. -/
  kernel_canonical : d.kernel.Canonical
  /-- The kernel is part of the envelope. -/
  kernel_subset : ∀ i, d.kernel.contains i = true → d.envelope.contains i = true
  /-- The size of the envelope. -/
  envelopeSize_eq : d.envelopeSize = d.envelope.rank d.ground.size
  /-- The size of the kernel. -/
  kernelSize_eq : d.kernelSize = d.kernel.rank d.ground.size

/-- The set lies between kernel and envelope. -/
def Admits (d : SetDomain) (c : Set Int) : Prop :=
  ∀ e, (d.inKernel e = true → e ∈ c) ∧ (e ∈ c → d.inEnvelope e = true)

theorem inEnvelope_iff {d : SetDomain} (hd : d.Wf) {e : Int} :
    d.inEnvelope e = true ↔ ∃ i, d.ground[i]? = some e ∧ d.envelope.contains i = true := by
  simp only [inEnvelope, Option.any_eq_true, index?_eq_some_iff hd.sorted]

theorem inKernel_iff {d : SetDomain} (hd : d.Wf) {e : Int} :
    d.inKernel e = true ↔ ∃ i, d.ground[i]? = some e ∧ d.kernel.contains i = true := by
  simp only [inKernel, Option.any_eq_true, index?_eq_some_iff hd.sorted]

theorem inEnvelope_of_inKernel {d : SetDomain} (hd : d.Wf) {e : Int} (h : d.inKernel e = true) :
    d.inEnvelope e = true := by
  obtain ⟨i, hi, hin⟩ := (inKernel_iff hd).mp h
  exact (inEnvelope_iff hd).mpr ⟨i, hi, hd.kernel_subset i hin⟩

/-- The envelope and the kernel are themselves admitted. -/
theorem admits_envelope {d : SetDomain} (hd : d.Wf) : d.Admits {e | d.inEnvelope e = true} :=
  fun _ => ⟨inEnvelope_of_inKernel hd, id⟩

theorem admits_kernel {d : SetDomain} (hd : d.Wf) : d.Admits {e | d.inKernel e = true} :=
  fun _ => ⟨id, inEnvelope_of_inKernel hd⟩

theorem mem_envelopeElements {d : SetDomain} (hd : d.Wf) {e : Int} :
    e ∈ d.envelopeElements ↔ d.inEnvelope e = true := by
  rw [inEnvelope_iff hd, envelopeElements, List.mem_filterMap]
  simp only [BitSet.mem_toList, And.comm]

theorem mem_kernelElements {d : SetDomain} (hd : d.Wf) {e : Int} :
    e ∈ d.kernelElements ↔ d.inKernel e = true := by
  rw [inKernel_iff hd, kernelElements, List.mem_filterMap]
  simp only [BitSet.mem_toList, And.comm]

/-- Different indices have different elements. -/
theorem index_unique {d : SetDomain} (hd : d.Wf) {i j : Nat} {e : Int}
    (hi : d.ground[i]? = some e) (hj : d.ground[j]? = some e) : i = j := by
  have h₁ := (index?_eq_some_iff hd.sorted).mpr hi
  have h₂ := (index?_eq_some_iff hd.sorted).mpr hj
  exact Option.some.inj (h₁.symm.trans h₂)

theorem ground_of_envelope {d : SetDomain} (hd : d.Wf) {i : Nat}
    (h : d.envelope.contains i = true) : ∃ e, d.ground[i]? = some e := by
  have hlt := BitSet.lt_capacity_of_contains h
  rw [hd.envelope_capacity] at hlt
  exact ⟨d.ground[i], Array.getElem?_eq_getElem hlt⟩

theorem subsetsOf_wf {elements : List Int} (h : elements.Pairwise (· < ·)) :
    (subsetsOf elements).Wf where
  sorted := by simpa [subsetsOf] using h
  envelope_capacity := by simp [subsetsOf, BitSet.full]
  kernel_capacity := by simp [subsetsOf, BitSet.empty]
  envelope_canonical := BitSet.canonical_full _
  kernel_canonical := BitSet.canonical_empty _
  kernel_subset := by simp [subsetsOf]
  envelopeSize_eq := by
    simp only [subsetsOf, BitSet.rank, List.size_toArray, BitSet.contains_full,
      decide_eq_true_eq]
    exact (Nat.count_of_forall fun _ hn => hn).symm
  kernelSize_eq := by
    simp only [subsetsOf, BitSet.rank, BitSet.contains_empty]
    exact (Nat.count_of_forall_not fun _ _ => Bool.false_ne_true).symm

theorem default_wf : (default : SetDomain).Wf := subsetsOf_wf (show [].Pairwise _ from .nil)

/-! ### Optional elements -/

/-- The elements that belong to some contents, but not to all. -/
def optional (d : SetDomain) : Finset Int :=
  ((Finset.range d.ground.size).filter fun i =>
    d.envelope.contains i = true ∧ ¬ d.kernel.contains i = true).image (d.ground.getD · 0)

/-- The indices of optional elements are counted by the difference of the sizes. -/
theorem card_optionalIndices {d : SetDomain} (hd : d.Wf) :
    ((Finset.range d.ground.size).filter fun i =>
        d.envelope.contains i = true ∧ ¬ d.kernel.contains i = true).card + d.kernelSize
      = d.envelopeSize := by
  have hrank : ∀ s : BitSet, s.rank d.ground.size
      = ((Finset.range d.ground.size).filter fun i => s.contains i = true).card := fun s =>
    Nat.count_eq_card_filter_range _ _
  have hkernel : (Finset.range d.ground.size).filter (fun i => d.kernel.contains i = true)
      = ((Finset.range d.ground.size).filter (fun i => d.envelope.contains i = true)).filter
          fun i => d.kernel.contains i = true := by
    rw [Finset.filter_filter]
    apply Finset.filter_congr
    intro i _
    exact ⟨fun h => ⟨hd.kernel_subset i h, h⟩, And.right⟩
  rw [hd.envelopeSize_eq, hd.kernelSize_eq, hrank, hrank, hkernel, ← Finset.filter_filter,
    Nat.add_comm]
  exact Finset.card_filter_add_card_filter_not _

theorem kernelSize_le {d : SetDomain} (hd : d.Wf) : d.kernelSize ≤ d.envelopeSize := by
  have h := card_optionalIndices hd
  omega

/-- A domain is fixed as soon as nothing is optional. -/
theorem isFixed_iff {d : SetDomain} (hd : d.Wf) :
    d.isFixed = true ↔ ∀ e, d.inEnvelope e = true → d.inKernel e = true := by
  -- the two counters differ by the number of elements that are optional
  have h := card_optionalIndices hd
  rw [isFixed, beq_iff_eq]
  constructor
  · intro hsize e he
    have hnone : ((Finset.range d.ground.size).filter fun i =>
        d.envelope.contains i = true ∧ ¬ d.kernel.contains i = true).card = 0 := by
      omega
    have hempty := Finset.card_eq_zero.mp hnone
    obtain ⟨i, hi, hin⟩ := (inEnvelope_iff hd).mp he
    by_contra hk
    have hmem := Finset.notMem_empty i
    rw [← hempty, Finset.mem_filter, Finset.mem_range] at hmem
    refine hmem ⟨?_, hin, fun h => hk ((inKernel_iff hd).mpr ⟨i, hi, h⟩)⟩
    have := BitSet.lt_capacity_of_contains hin
    rwa [hd.envelope_capacity] at this
  · intro hall
    have hempty : (Finset.range d.ground.size).filter (fun i =>
        d.envelope.contains i = true ∧ ¬ d.kernel.contains i = true) = ∅ := by
      rw [Finset.filter_eq_empty_iff]
      rintro i - ⟨hin, hk⟩
      obtain ⟨e, he⟩ := ground_of_envelope hd hin
      obtain ⟨j, hj, hjk⟩ := (inKernel_iff hd).mp
        (hall e ((inEnvelope_iff hd).mpr ⟨i, he, hin⟩))
      exact hk (index_unique hd hj he ▸ hjk)
    rw [hempty, Finset.card_empty] at h
    omega

/-- A fixed domain admits one set only. -/
theorem admits_unique {d : SetDomain} (hd : d.Wf) (hf : d.isFixed = true) {c : Set Int}
    (hc : d.Admits c) : c = {e | d.inKernel e = true} := by
  ext e
  exact ⟨fun h => (isFixed_iff hd).mp hf e ((hc e).2 h), (hc e).1⟩

/-! ### Ticks -/

/-- An elementary change of a domain, with the entry that records it. -/
inductive Tick : SetDomain → Entry → SetDomain → Prop where
  /-- An optional element leaves the envelope. -/
  | exclude {d : SetDomain} (i : Nat) (hin : d.envelope.contains i = true)
      (hout : d.kernel.contains i = false) :
      Tick d (.envelopeRemoval i)
        { d with envelope := d.envelope.erase i, envelopeSize := d.envelopeSize - 1 }
  /-- An optional element enters the kernel. -/
  | include {d : SetDomain} (i : Nat) (hin : d.envelope.contains i = true)
      (hout : d.kernel.contains i = false) :
      Tick d (.kernelAddition i)
        { d with kernel := d.kernel.insert i, kernelSize := d.kernelSize + 1 }

namespace Tick

variable {d d' : SetDomain} {entry : Entry}

theorem wf (ht : Tick d entry d') (hd : d.Wf) : d'.Wf := by
  cases ht with
  | exclude i hin hout =>
    have hlt := BitSet.lt_capacity_of_contains hin
    rw [hd.envelope_capacity] at hlt
    have hrank := BitSet.rank_erase (n := d.ground.size) hd.envelope_canonical hin
    rw [if_pos hlt] at hrank
    refine ⟨hd.sorted, ?_, hd.kernel_capacity, hd.envelope_canonical.erase i,
      hd.kernel_canonical, ?_, ?_, hd.kernelSize_eq⟩
    · exact (BitSet.capacity_erase _ _).trans hd.envelope_capacity
    · intro j hj
      -- a certain element is not the one that leaves
      have hne : j ≠ i := by
        rintro rfl
        rw [show d.kernel.contains j = true from hj] at hout
        cases hout
      simp [hne, hd.kernel_subset j hj]
    · show d.envelopeSize - 1 = (d.envelope.erase i).rank d.ground.size
      rw [hd.envelopeSize_eq]
      omega
  | «include» i hin hout =>
    have hlt := BitSet.lt_capacity_of_contains hin
    rw [hd.envelope_capacity] at hlt
    have hrank := BitSet.rank_insert (n := d.ground.size) (hd.kernel_capacity ▸ hlt) hout
    rw [if_pos hlt] at hrank
    refine ⟨hd.sorted, hd.envelope_capacity, ?_, hd.envelope_canonical,
      hd.kernel_canonical.insert i, ?_, hd.envelopeSize_eq, ?_⟩
    · exact (BitSet.capacity_insert _ _).trans hd.kernel_capacity
    · intro j hj
      simp only [BitSet.contains_insert, Bool.and_eq_true, Bool.or_eq_true,
        decide_eq_true_eq] at hj
      rcases hj.2 with rfl | hj
      · exact hin
      · exact hd.kernel_subset j hj
    · show d.kernelSize + 1 = (d.kernel.insert i).rank d.ground.size
      rw [hd.kernelSize_eq]
      exact hrank.symm

/-- The entry of a tick takes it back exactly. -/
theorem undo (ht : Tick d entry d') (hd : d.Wf) : d'.undo entry = d := by
  cases ht with
  | exclude i hin hout =>
    have hlt := BitSet.lt_capacity_of_contains hin
    rw [hd.envelope_capacity] at hlt
    have hrank := BitSet.rank_erase (n := d.ground.size) hd.envelope_canonical hin
    rw [if_pos hlt, ← hd.envelopeSize_eq] at hrank
    simp only [SetDomain.undo, hd.envelope_canonical.insert_erase hin]
    rw [Nat.sub_add_cancel (by omega)]
  | «include» i hin hout =>
    have hlt := BitSet.lt_capacity_of_contains hin
    rw [hd.envelope_capacity, ← hd.kernel_capacity] at hlt
    simp only [SetDomain.undo, hd.kernel_canonical.erase_insert hlt hout, Nat.add_sub_cancel]

theorem inEnvelope (ht : Tick d entry d') (hd : d.Wf) {e : Int} (h : d'.inEnvelope e = true) :
    d.inEnvelope e = true := by
  have hd' := ht.wf hd
  obtain ⟨i, hi, hin⟩ := (inEnvelope_iff hd').mp h
  cases ht with
  | exclude j _ _ =>
    simp only [BitSet.contains_erase, Bool.and_eq_true] at hin
    exact (inEnvelope_iff hd).mpr ⟨i, hi, hin.2⟩
  | «include» j _ _ => exact (inEnvelope_iff hd).mpr ⟨i, hi, hin⟩

theorem inKernel (ht : Tick d entry d') (hd : d.Wf) {e : Int} (h : d.inKernel e = true) :
    d'.inKernel e = true := by
  have hd' := ht.wf hd
  obtain ⟨i, hi, hin⟩ := (inKernel_iff hd).mp h
  cases ht with
  | exclude j _ _ => exact (inKernel_iff hd').mpr ⟨i, hi, hin⟩
  | «include» j _ _ =>
    refine (inKernel_iff hd').mpr ⟨i, hi, ?_⟩
    simp [hin, BitSet.lt_capacity_of_contains hin]

/-- A tick only removes contents. -/
theorem admits (ht : Tick d entry d') (hd : d.Wf) {c : Set Int} (hc : d'.Admits c) :
    d.Admits c :=
  fun e => ⟨fun h => (hc e).1 (ht.inKernel hd h), fun h => ht.inEnvelope hd ((hc e).2 h)⟩

/-- A tick decides an optional element. -/
theorem optional_lt (ht : Tick d entry d') (hd : d.Wf) :
    d'.slack < d.slack := by
  have hle := kernelSize_le (ht.wf hd)
  have hle' := kernelSize_le hd
  unfold slack
  cases ht with
  | exclude i hin hout =>
    have hlt := BitSet.lt_capacity_of_contains hin
    rw [hd.envelope_capacity] at hlt
    have hrank := BitSet.rank_erase (n := d.ground.size) hd.envelope_canonical hin
    rw [if_pos hlt, ← hd.envelopeSize_eq] at hrank
    simp only at hle ⊢
    omega
  | «include» i hin hout =>
    simp only at hle ⊢
    omega

theorem ground (ht : Tick d entry d') : d'.ground = d.ground := by
  cases ht <;> rfl

/-- A tick takes some set away. -/
theorem loses (ht : Tick d entry d') (hd : d.Wf) : ∃ c, d.Admits c ∧ ¬ d'.Admits c := by
  have hd' := ht.wf hd
  cases ht with
  -- the largest set has what is excluded, the smallest one lacks what is included
  | exclude i hin hout =>
    obtain ⟨e, he⟩ := ground_of_envelope hd hin
    refine ⟨_, admits_envelope hd, fun hadmits => ?_⟩
    have hmem : d.inEnvelope e = true := (inEnvelope_iff hd).mpr ⟨i, he, hin⟩
    obtain ⟨j, hj, hcontains⟩ := (inEnvelope_iff hd').mp ((hadmits e).2 hmem)
    obtain rfl : j = i := index_unique hd hj he
    simp [BitSet.contains_erase] at hcontains
  | «include» i hin hout =>
    obtain ⟨e, he⟩ := ground_of_envelope hd hin
    refine ⟨_, admits_kernel hd, fun hadmits => ?_⟩
    have hmem : SetDomain.inKernel
        { d with kernel := d.kernel.insert i, kernelSize := d.kernelSize + 1 } e = true := by
      refine (inKernel_iff hd').mpr ⟨i, he, ?_⟩
      have hlt := BitSet.lt_capacity_of_contains hin
      rw [hd.envelope_capacity, ← hd.kernel_capacity] at hlt
      simp [BitSet.contains_insert, hlt]
    obtain ⟨j, hj, hcontains⟩ := (inKernel_iff hd).mp ((hadmits e).1 hmem)
    obtain rfl : j = i := index_unique hd hj he
    rw [hout] at hcontains
    cases hcontains

end Tick

theorem decreasing : Decreasing Tick Wf Admits where
  sound := Tick.wf
  narrows := fun ht hd _ hc => ht.admits hd hc
  loses := Tick.loses
  inhabited := fun hd => ⟨_, admits_kernel hd⟩

/-! ### Narrowings -/

/-- The event describes the change: it tells whether the envelope or the kernel has changed. -/
structure Reports (d d' : SetDomain) (e : Event) : Prop where
  /-- Who watches the envelope hears of an element that has left it. -/
  envelope : ∀ x, d.inEnvelope x = true → ¬ d'.inEnvelope x = true → e = .envelopeRemoval
  /-- Who watches the kernel hears of an element that has entered it. -/
  kernel : ∀ x, ¬ d.inKernel x = true → d'.inKernel x = true → e = .kernelAddition

/-- The event of an outcome describes its change. -/
def OutcomeReports (d : SetDomain) : Outcome SetDomain Entry → Prop
  | .changed d' _ e => Reports d d' e
  | _ => True

/-- What is known of the outcome of a narrowing. -/
structure Narrows (d : SetDomain) (request : Set Int → Prop) (o : Outcome SetDomain Entry) :
    Prop where
  obeys : o.Obeys Tick Admits d request
  exactly : o.Exact Admits d request
  reports : OutcomeReports d o

theorem excludeElement_narrows {d : SetDomain} (hd : d.Wf) (e : Int) :
    Narrows d (e ∉ ·) (d.excludeElement e) := by
  unfold excludeElement
  have hin : ∀ {i}, d.index? e = some i →
      (d.inEnvelope e = true ↔ d.envelope.contains i = true) := by
    intro i hi
    simp [inEnvelope, hi]
  cases hi : d.index? e with
  | none =>
    refine ⟨trivial, fun c hc he => ?_, trivial⟩
    have := (hc e).2 he
    simp [inEnvelope, hi] at this
  | some i =>
    have hground := (index?_eq_some_iff hd.sorted).mp hi
    simp only
    split
    next h =>
      refine ⟨trivial, fun c hc he => ?_, trivial⟩
      have := (hin hi).mp ((hc e).2 he)
      simp [this] at h
    split
    next h hk =>
      refine ⟨fun c hc he => he ((hc e).1 ?_), trivial, trivial⟩
      simp [inKernel, hi, hk]
    next h hk =>
      have henv : d.envelope.contains i = true := by simpa using h
      have hker : d.kernel.contains i = false := by simpa using hk
      have htick := Tick.exclude i henv hker
      have hd' := htick.wf hd
      -- the elements are told apart by their positions in the list
      have henvelope : ∀ x, SetDomain.inEnvelope
          { d with envelope := d.envelope.erase i, envelopeSize := d.envelopeSize - 1 } x = true
          ↔ x ≠ e ∧ d.inEnvelope x = true := by
        intro x
        rw [inEnvelope_iff hd', inEnvelope_iff hd]
        simp only [BitSet.contains_erase, Bool.and_eq_true, Bool.not_eq_true',
          decide_eq_false_iff_not]
        constructor
        · rintro ⟨j, hj, hne, hin⟩
          refine ⟨?_, j, hj, hin⟩
          rintro rfl
          exact hne (index_unique hd hj hground)
        · rintro ⟨hne, j, hj, hin⟩
          refine ⟨j, hj, ?_, hin⟩
          rintro rfl
          exact hne (Option.some.inj (hj.symm.trans hground))
      refine ⟨⟨.single htick, by simp, ?_⟩, ?_, ?_⟩
      · intro c hc he x
        refine ⟨(hc x).1, fun hx => (henvelope x).mpr ⟨?_, (hc x).2 hx⟩⟩
        rintro rfl
        exact he hx
      · intro c hc he
        exact ((henvelope e).mp ((hc e).2 he)).1 rfl
      · exact ⟨fun _ _ _ => rfl, fun x hx hx' => absurd hx' hx⟩

theorem includeElement_narrows {d : SetDomain} (hd : d.Wf) (e : Int) :
    Narrows d (e ∈ ·) (d.includeElement e) := by
  unfold includeElement
  cases hi : d.index? e with
  | none =>
    refine ⟨fun c hc he => ?_, trivial, trivial⟩
    have := (hc e).2 he
    simp [inEnvelope, hi] at this
  | some i =>
    have hground := (index?_eq_some_iff hd.sorted).mp hi
    simp only
    split
    next h =>
      refine ⟨fun c hc he => ?_, trivial, trivial⟩
      have := (hc e).2 he
      simp only [inEnvelope, hi, Option.any_some] at this
      simp [this] at h
    split
    next h hk =>
      refine ⟨trivial, fun c hc => (hc e).1 ?_, trivial⟩
      simp [inKernel, hi, hk]
    next h hk =>
      have henv : d.envelope.contains i = true := by simpa using h
      have hker : d.kernel.contains i = false := by simpa using hk
      have htick := Tick.include i henv hker
      have hd' := htick.wf hd
      have hlt := BitSet.lt_capacity_of_contains henv
      rw [hd.envelope_capacity, ← hd.kernel_capacity] at hlt
      -- nothing but the element gets certain
      have hkernel : ∀ x, SetDomain.inKernel
          { d with kernel := d.kernel.insert i, kernelSize := d.kernelSize + 1 } x = true
          ↔ x = e ∨ d.inKernel x = true := by
        intro x
        rw [inKernel_iff hd', inKernel_iff hd]
        simp only [BitSet.contains_insert, Bool.and_eq_true, Bool.or_eq_true, decide_eq_true_eq]
        constructor
        · rintro ⟨j, hj, -, rfl | hin⟩
          · exact Or.inl (Option.some.inj (hj.symm.trans hground))
          · exact Or.inr ⟨j, hj, hin⟩
        · rintro (rfl | ⟨j, hj, hin⟩)
          · exact ⟨i, hground, hlt, Or.inl rfl⟩
          · exact ⟨j, hj, BitSet.lt_capacity_of_contains hin, Or.inr hin⟩
      refine ⟨⟨.single htick, by simp, ?_⟩, ?_, ?_⟩
      · intro c hc he x
        refine ⟨fun hx => ?_, (hc x).2⟩
        rcases (hkernel x).mp hx with rfl | hx
        · exact he
        · exact (hc x).1 hx
      · intro c hc
        exact (hc e).1 ((hkernel e).mpr (Or.inl rfl))
      · exact ⟨fun x hx hx' => absurd hx hx', fun _ _ _ => rfl⟩

end FiniteDomain.SetDomain
