import Mathlib.Data.Finset.Prod
import FiniteDomain.Domain.Graph
import FiniteDomain.Proofs.BitSet

/-! # Digraphs

    A digraph keeps its arcs twice, by tail and by head, and counts its nodes and
    arcs.  `Digraph.Wf` says that the two agree, that the counts are right, and
    that an arc has its ends among the nodes.  Inserting and erasing keep it, and
    each takes back the other exactly. -/

namespace FiniteDomain.Digraph

/-! ### Rows of bits -/

/-- The bit in row `i` and column `j`. -/
def bit (rows : Array BitSet) (i j : Nat) : Bool := (rows[i]?).any fun row => row.contains j

/-- There are `order` rows of `order` bits. -/
structure Square (order : Nat) (rows : Array BitSet) : Prop where
  size : rows.size = order
  capacity : ∀ row ∈ rows, row.capacity = order
  canonical : ∀ row ∈ rows, row.Canonical

section Rows

variable {order : Nat} {rows : Array BitSet} {i j : Nat}

theorem Square.row (h : Square order rows) (hi : i < order) :
    ∃ row, rows[i]? = some row ∧ row.capacity = order ∧ row.Canonical := by
  rw [← h.size] at hi
  have hmem : rows[i] ∈ rows := Array.getElem_mem hi
  exact ⟨rows[i], Array.getElem?_eq_getElem hi, h.capacity _ hmem, h.canonical _ hmem⟩

theorem Square.lt_of_bit (h : Square order rows) (hb : bit rows i j = true) :
    i < order ∧ j < order := by
  rw [bit, Option.any_eq_true] at hb
  obtain ⟨row, hrow, hj⟩ := hb
  obtain ⟨hi, rfl⟩ := Array.getElem?_eq_some_iff.mp hrow
  have hcap := h.capacity _ (Array.getElem_mem hi)
  exact ⟨h.size ▸ hi, hcap ▸ BitSet.lt_capacity_of_contains hj⟩

theorem Square.modify (h : Square order rows) {change : BitSet → BitSet}
    (hcap : ∀ row, (change row).capacity = row.capacity)
    (hcan : ∀ row, row.Canonical → (change row).Canonical) :
    Square order (rows.modify i change) := by
  have hrow : ∀ row ∈ rows.modify i change, row ∈ rows ∨ ∃ old ∈ rows, row = change old := by
    intro row hmem
    obtain ⟨k, hk, rfl⟩ := Array.getElem_of_mem hmem
    rw [Array.size_modify] at hk
    rw [Array.getElem_modify]
    split
    · exact Or.inr ⟨_, Array.getElem_mem hk, rfl⟩
    · exact Or.inl (Array.getElem_mem hk)
  refine ⟨by simp [h.size], ?_, ?_⟩
  · intro row hmem
    rcases hrow row hmem with hold | ⟨old, hold, rfl⟩
    · exact h.capacity row hold
    · rw [hcap, h.capacity old hold]
  · intro row hmem
    rcases hrow row hmem with hold | ⟨old, hold, rfl⟩
    · exact h.canonical row hold
    · exact hcan old (h.canonical old hold)

theorem Square.insert (h : Square order rows) : Square order (rows.modify i (·.insert j)) :=
  h.modify (fun row => BitSet.capacity_insert row j) fun _ hrow => hrow.insert j

theorem Square.erase (h : Square order rows) : Square order (rows.modify i (·.erase j)) :=
  h.modify (fun row => BitSet.capacity_erase row j) fun _ hrow => hrow.erase j

theorem bit_insert (h : Square order rows) (hi : i < order) (hj : j < order) (a b : Nat) :
    bit (rows.modify i (·.insert j)) a b = (decide (a = i ∧ b = j) || bit rows a b) := by
  obtain ⟨row, hrow, hcap, -⟩ := h.row hi
  rw [bit, Array.getElem?_modify]
  by_cases ha : i = a
  · subst ha
    simp only [if_true, hrow, Option.map_some, Option.any_some, BitSet.contains_insert, bit,
      true_and]
    by_cases hb : b = j
    · subst hb; simp [hcap, hj]
    · by_cases hlt : b < row.capacity
      · simp [hb, hlt]
      · simp [hb, hlt, BitSet.contains]
  · have hne : ¬ a = i := fun h => ha h.symm
    simp [ha, hne, bit]

theorem bit_erase (rows : Array BitSet) (i j a b : Nat) :
    bit (rows.modify i (·.erase j)) a b = (!decide (a = i ∧ b = j) && bit rows a b) := by
  rw [bit, Array.getElem?_modify]
  by_cases ha : i = a
  · subst ha
    cases hrow : rows[i]? with
    | none => simp [bit, hrow]
    | some row => simp [bit, hrow]
  · have hne : ¬ a = i := fun h => ha h.symm
    simp [ha, hne, bit]

/-- Changing a row there and back leaves the rows as they are. -/
theorem modify_modify_self {there back : BitSet → BitSet} {row : BitSet}
    (hrow : rows[i]? = some row) (h : back (there row) = row) :
    (rows.modify i there).modify i back = rows := by
  apply Array.ext_getElem?
  intro k
  rw [Array.getElem?_modify, Array.getElem?_modify]
  by_cases hk : i = k
  · subst hk; simp [hrow, h]
  · simp [hk]

theorem insert_erase_bit (h : Square order rows) (hb : bit rows i j = true) :
    (rows.modify i (·.erase j)).modify i (·.insert j) = rows := by
  obtain ⟨row, hrow, -, hcan⟩ := h.row (h.lt_of_bit hb).1
  refine modify_modify_self hrow (hcan.insert_erase ?_)
  simpa [bit, hrow] using hb

theorem erase_insert_bit (h : Square order rows) (hi : i < order) (hj : j < order)
    (hb : bit rows i j = false) :
    (rows.modify i (·.insert j)).modify i (·.erase j) = rows := by
  obtain ⟨row, hrow, hcap, hcan⟩ := h.row hi
  refine modify_modify_self hrow (hcan.erase_insert (hcap ▸ hj) ?_)
  simpa [bit, hrow] using hb

end Rows

/-! ### Well-formed digraphs -/

/-- The arcs below an order. -/
def arcsBelow (g : Digraph) (order : Nat) : Finset (Nat × Nat) :=
  (Finset.range order ×ˢ Finset.range order).filter fun a => g.hasArc a.1 a.2 = true

/-- Both lists of arcs agree, the counts are right, and arcs lie between nodes. -/
structure Wf (order : Nat) (g : Digraph) : Prop where
  nodes_capacity : g.nodes.capacity = order
  nodes_canonical : g.nodes.Canonical
  /-- The nodes are counted. -/
  nodeCount_eq : g.nodeCount = g.nodes.rank order
  successors : Square order g.successors
  predecessors : Square order g.predecessors
  /-- An arc is listed by its head just when it is listed by its tail. -/
  mirror : ∀ t h, bit g.predecessors h t = g.hasArc t h
  /-- The arcs are counted. -/
  arcCount_eq : g.arcCount = (g.arcsBelow order).card
  /-- The ends of an arc are nodes. -/
  ends : ∀ t h, g.hasArc t h = true → g.hasNode t = true ∧ g.hasNode h = true

variable {order : Nat} {g : Digraph}

theorem Wf.lt_of_hasNode (hg : g.Wf order) {n : Nat} (h : g.hasNode n = true) : n < order := by
  have := BitSet.lt_capacity_of_contains h
  rwa [hg.nodes_capacity] at this

theorem Wf.lt_of_hasArc (hg : g.Wf order) {t h : Nat} (ha : g.hasArc t h = true) :
    t < order ∧ h < order :=
  hg.successors.lt_of_bit ha

theorem Wf.mem_arcsBelow (hg : g.Wf order) {a : Nat × Nat} :
    a ∈ g.arcsBelow order ↔ g.hasArc a.1 a.2 = true := by
  simp only [arcsBelow, Finset.mem_filter, Finset.mem_product, Finset.mem_range]
  exact ⟨And.right, fun h => ⟨hg.lt_of_hasArc h, h⟩⟩

theorem Wf.mem_successorsOf (_hg : g.Wf order) {t h : Nat} :
    h ∈ g.successorsOf t ↔ g.hasArc t h = true := by
  rw [successorsOf, hasArc]
  cases g.successors[t]? <;> simp [BitSet.mem_toList]

theorem Wf.mem_predecessorsOf (hg : g.Wf order) {t h : Nat} :
    t ∈ g.predecessorsOf h ↔ g.hasArc t h = true := by
  rw [← hg.mirror, predecessorsOf, bit]
  cases g.predecessors[h]? <;> simp [BitSet.mem_toList]

theorem pairwise_successorsOf (g : Digraph) (n : Nat) : (g.successorsOf n).Pairwise (· < ·) := by
  rw [successorsOf]
  cases g.successors[n]? with
  | none => exact .nil
  | some row => exact row.pairwise_toList

theorem pairwise_predecessorsOf (g : Digraph) (n : Nat) :
    (g.predecessorsOf n).Pairwise (· < ·) := by
  rw [predecessorsOf]
  cases g.predecessors[n]? with
  | none => exact .nil
  | some row => exact row.pairwise_toList

theorem nodup_successorsOf (g : Digraph) (n : Nat) : (g.successorsOf n).Nodup :=
  (g.pairwise_successorsOf n).imp Nat.ne_of_lt

theorem nodup_predecessorsOf (g : Digraph) (n : Nat) : (g.predecessorsOf n).Nodup :=
  (g.pairwise_predecessorsOf n).imp Nat.ne_of_lt

/-! ### Inserting and erasing -/

@[simp] theorem hasArc_insertNode (g : Digraph) (n t h : Nat) :
    (g.insertNode n).hasArc t h = g.hasArc t h := rfl

@[simp] theorem hasArc_eraseNode (g : Digraph) (n t h : Nat) :
    (g.eraseNode n).hasArc t h = g.hasArc t h := rfl

@[simp] theorem hasNode_insertArc (g : Digraph) (t h n : Nat) :
    (g.insertArc t h).hasNode n = g.hasNode n := rfl

@[simp] theorem hasNode_eraseArc (g : Digraph) (t h n : Nat) :
    (g.eraseArc t h).hasNode n = g.hasNode n := rfl

theorem Wf.hasNode_insertNode (hg : g.Wf order) {n : Nat} (hn : n < order) (m : Nat) :
    (g.insertNode n).hasNode m = (decide (m = n) || g.hasNode m) := by
  rw [hasNode, insertNode, BitSet.contains_insert, hg.nodes_capacity]
  by_cases hm : m < order
  · simp [hm, hasNode]
  · have hnot : ¬ g.hasNode m = true := fun h => hm (hg.lt_of_hasNode h)
    have hne : m ≠ n := by omega
    simp [hm, hne, hnot]

@[simp] theorem hasNode_eraseNode (g : Digraph) (n m : Nat) :
    (g.eraseNode n).hasNode m = (!decide (m = n) && g.hasNode m) :=
  BitSet.contains_erase _ _ _

theorem Wf.hasArc_insertArc (hg : g.Wf order) {t h : Nat} (ht : t < order) (hh : h < order)
    (a b : Nat) :
    (g.insertArc t h).hasArc a b = (decide (a = t ∧ b = h) || g.hasArc a b) :=
  bit_insert hg.successors ht hh a b

@[simp] theorem hasArc_eraseArc (g : Digraph) (t h a b : Nat) :
    (g.eraseArc t h).hasArc a b = (!decide (a = t ∧ b = h) && g.hasArc a b) :=
  bit_erase _ _ _ _ _

theorem hasArc_eraseArc_iff {t h a b : Nat} :
    (g.eraseArc t h).hasArc a b = true ↔ g.hasArc a b = true ∧ ¬ (a = t ∧ b = h) := by
  rw [hasArc_eraseArc, Bool.and_eq_true, Bool.not_eq_true', decide_eq_false_iff_not, and_comm]

theorem Wf.insertNode (hg : g.Wf order) {n : Nat} (hn : n < order) (hnot : g.hasNode n = false) :
    (g.insertNode n).Wf order where
  nodes_capacity := (BitSet.capacity_insert _ _).trans hg.nodes_capacity
  nodes_canonical := hg.nodes_canonical.insert n
  nodeCount_eq := by
    have hrank := BitSet.rank_insert (n := order) (hg.nodes_capacity ▸ hn) hnot
    rw [if_pos hn, ← hg.nodeCount_eq] at hrank
    exact hrank.symm
  successors := hg.successors
  predecessors := hg.predecessors
  mirror := hg.mirror
  arcCount_eq := hg.arcCount_eq
  ends := by
    intro t h ha
    have hends := hg.ends t h ha
    simp [hg.hasNode_insertNode hn, hends]

theorem Wf.eraseNode (hg : g.Wf order) {n : Nat} (hin : g.hasNode n = true)
    (hisolated : ∀ t h, g.hasArc t h = true → t ≠ n ∧ h ≠ n) : (g.eraseNode n).Wf order where
  nodes_capacity := (BitSet.capacity_erase _ _).trans hg.nodes_capacity
  nodes_canonical := hg.nodes_canonical.erase n
  nodeCount_eq := by
    have hrank := BitSet.rank_erase (n := order) hg.nodes_canonical hin
    rw [if_pos (hg.lt_of_hasNode hin), ← hg.nodeCount_eq] at hrank
    show g.nodeCount - 1 = (g.nodes.erase n).rank order
    omega
  successors := hg.successors
  predecessors := hg.predecessors
  mirror := hg.mirror
  arcCount_eq := hg.arcCount_eq
  ends := by
    intro t h ha
    have hends := hg.ends t h ha
    have hne := hisolated t h ha
    simp [hends, hne]

theorem Wf.arcsBelow_insertArc (hg : g.Wf order) {t h : Nat} (ht : t < order) (hh : h < order) :
    (g.insertArc t h).arcsBelow order = insert (t, h) (g.arcsBelow order) := by
  ext ⟨a, b⟩
  simp only [arcsBelow, Finset.mem_filter, Finset.mem_product, Finset.mem_range,
    hg.hasArc_insertArc ht hh, Bool.or_eq_true, decide_eq_true_eq, Finset.mem_insert,
    Prod.mk.injEq]
  constructor
  · rintro ⟨hlt, heq | ha⟩
    · exact Or.inl heq
    · exact Or.inr ⟨hlt, ha⟩
  · rintro (⟨rfl, rfl⟩ | ⟨hlt, ha⟩)
    · exact ⟨⟨ht, hh⟩, Or.inl ⟨rfl, rfl⟩⟩
    · exact ⟨hlt, Or.inr ha⟩

theorem arcsBelow_eraseArc (g : Digraph) (order t h : Nat) :
    (g.eraseArc t h).arcsBelow order = (g.arcsBelow order).erase (t, h) := by
  ext ⟨a, b⟩
  simp only [arcsBelow, Finset.mem_filter, Finset.mem_product, Finset.mem_range,
    hasArc_eraseArc, Bool.and_eq_true, Bool.not_eq_true', decide_eq_false_iff_not,
    Finset.mem_erase, ne_eq, Prod.mk.injEq]
  exact ⟨fun ⟨hlt, hne, ha⟩ => ⟨hne, hlt, ha⟩, fun ⟨hne, hlt, ha⟩ => ⟨hlt, hne, ha⟩⟩

theorem Wf.insertArc (hg : g.Wf order) {t h : Nat} (ht : g.hasNode t = true)
    (hh : g.hasNode h = true) (hnot : g.hasArc t h = false) : (g.insertArc t h).Wf order := by
  have htlt := hg.lt_of_hasNode ht
  have hhlt := hg.lt_of_hasNode hh
  refine ⟨hg.nodes_capacity, hg.nodes_canonical, hg.nodeCount_eq, hg.successors.insert,
    hg.predecessors.insert, ?_, ?_, ?_⟩
  · intro a b
    rw [hg.hasArc_insertArc htlt hhlt, ← hg.mirror]
    refine (bit_insert hg.predecessors hhlt htlt b a).trans ?_
    simp only [and_comm]
  · have hnew : (t, h) ∉ g.arcsBelow order := by
      rw [hg.mem_arcsBelow, hnot]
      exact Bool.false_ne_true
    rw [hg.arcsBelow_insertArc htlt hhlt, Finset.card_insert_of_notMem hnew, ← hg.arcCount_eq]
    rfl
  · intro a b ha
    rw [hg.hasArc_insertArc htlt hhlt, Bool.or_eq_true, decide_eq_true_eq] at ha
    rcases ha with ⟨rfl, rfl⟩ | ha
    · exact ⟨ht, hh⟩
    · exact hg.ends a b ha

theorem Wf.eraseArc (hg : g.Wf order) {t h : Nat} (hin : g.hasArc t h = true) :
    (g.eraseArc t h).Wf order := by
  refine ⟨hg.nodes_capacity, hg.nodes_canonical, hg.nodeCount_eq, hg.successors.erase,
    hg.predecessors.erase, ?_, ?_, ?_⟩
  · intro a b
    rw [hasArc_eraseArc, ← hg.mirror]
    refine (bit_erase g.predecessors h t b a).trans ?_
    simp only [and_comm]
  · rw [arcsBelow_eraseArc, Finset.card_erase_of_mem (hg.mem_arcsBelow.mpr hin),
      ← hg.arcCount_eq]
    rfl
  · intro a b ha
    rw [hasArc_eraseArc, Bool.and_eq_true] at ha
    exact hg.ends a b ha.2

/-! ### Taking back -/

theorem Wf.erase_insertNode (hg : g.Wf order) {n : Nat} (hn : n < order)
    (hnot : g.hasNode n = false) : (g.insertNode n).eraseNode n = g := by
  simp only [Digraph.insertNode, Digraph.eraseNode, Nat.add_sub_cancel,
    hg.nodes_canonical.erase_insert (hg.nodes_capacity ▸ hn) hnot]

theorem Wf.insert_eraseNode (hg : g.Wf order) {n : Nat} (hin : g.hasNode n = true) :
    (g.eraseNode n).insertNode n = g := by
  have hrank := BitSet.rank_erase (n := order) hg.nodes_canonical hin
  rw [if_pos (hg.lt_of_hasNode hin), ← hg.nodeCount_eq] at hrank
  simp only [Digraph.insertNode, Digraph.eraseNode, hg.nodes_canonical.insert_erase hin]
  rw [Nat.sub_add_cancel (by omega)]

theorem Wf.erase_insertArc (hg : g.Wf order) {t h : Nat} (ht : t < order) (hh : h < order)
    (hnot : g.hasArc t h = false) : (g.insertArc t h).eraseArc t h = g := by
  simp only [Digraph.insertArc, Digraph.eraseArc, Nat.add_sub_cancel,
    erase_insert_bit hg.successors ht hh hnot,
    erase_insert_bit hg.predecessors hh ht ((hg.mirror t h).trans hnot)]

theorem Wf.arcCount_pos (hg : g.Wf order) {t h : Nat} (hin : g.hasArc t h = true) :
    0 < g.arcCount := by
  rw [hg.arcCount_eq]
  exact Finset.card_pos.mpr ⟨(t, h), hg.mem_arcsBelow.mpr hin⟩

theorem Wf.insert_eraseArc (hg : g.Wf order) {t h : Nat} (hin : g.hasArc t h = true) :
    (g.eraseArc t h).insertArc t h = g := by
  simp only [Digraph.insertArc, Digraph.eraseArc, insert_erase_bit hg.successors hin,
    insert_erase_bit hg.predecessors ((hg.mirror t h).trans hin)]
  rw [Nat.sub_add_cancel (hg.arcCount_pos hin)]

theorem Wf.nodeCount_pos (hg : g.Wf order) {n : Nat} (hin : g.hasNode n = true) :
    0 < g.nodeCount := by
  have hrank := BitSet.rank_erase (n := order) hg.nodes_canonical hin
  rw [if_pos (hg.lt_of_hasNode hin), ← hg.nodeCount_eq] at hrank
  omega

/-! ### Initial digraphs -/

theorem square_replicate (order : Nat) :
    Square order (Array.replicate order (BitSet.empty order)) := by
  refine ⟨by simp, ?_, ?_⟩
  · intro row hrow
    rw [Array.eq_of_mem_replicate hrow]
    rfl
  · intro row hrow
    rw [Array.eq_of_mem_replicate hrow]
    exact BitSet.canonical_empty order

theorem bit_replicate (order i j : Nat) :
    bit (Array.replicate order (BitSet.empty order)) i j = false := by
  rw [bit, Array.getElem?_replicate]
  split <;> simp

@[simp] theorem hasArc_empty (order t h : Nat) : (empty order).hasArc t h = false :=
  bit_replicate order t h

@[simp] theorem hasArc_discrete (order t h : Nat) : (discrete order).hasArc t h = false :=
  bit_replicate order t h

@[simp] theorem hasNode_empty (order n : Nat) : (empty order).hasNode n = false :=
  BitSet.contains_empty order n

@[simp] theorem hasNode_discrete (order n : Nat) :
    (discrete order).hasNode n = decide (n < order) :=
  BitSet.contains_full order n

theorem empty_wf (order : Nat) : (empty order).Wf order where
  nodes_capacity := rfl
  nodes_canonical := BitSet.canonical_empty order
  nodeCount_eq := (Nat.count_of_forall_not (by simp [empty])).symm
  successors := square_replicate order
  predecessors := square_replicate order
  mirror := fun t h => by rw [hasArc_empty]; exact bit_replicate order h t
  arcCount_eq := by
    simp only [arcsBelow, hasArc_empty, Bool.false_eq_true, Finset.filter_false,
      Finset.card_empty]
    rfl
  ends := fun t h ha => by simp at ha

theorem discrete_wf (order : Nat) : (discrete order).Wf order where
  nodes_capacity := rfl
  nodes_canonical := BitSet.canonical_full order
  nodeCount_eq := (Nat.count_of_forall (by simp [discrete])).symm
  successors := square_replicate order
  predecessors := square_replicate order
  mirror := fun t h => by rw [hasArc_discrete]; exact bit_replicate order h t
  arcCount_eq := by
    simp only [arcsBelow, hasArc_discrete, Bool.false_eq_true, Finset.filter_false,
      Finset.card_empty]
    rfl
  ends := fun t h ha => by simp at ha

/-- Inserting arcs between nodes gives a digraph with these arcs. -/
theorem Wf.insertArcs {arcs : List (Nat × Nat)} (hg : g.Wf order)
    (hends : ∀ a ∈ arcs, g.hasNode a.1 = true ∧ g.hasNode a.2 = true) :
    (g.insertArcs arcs).Wf order ∧ (∀ n, (g.insertArcs arcs).hasNode n = g.hasNode n)
      ∧ ∀ t h, (g.insertArcs arcs).hasArc t h = true ↔ g.hasArc t h = true ∨ (t, h) ∈ arcs := by
  induction arcs generalizing g with
  | nil => exact ⟨hg, fun _ => rfl, fun _ _ => by simp [Digraph.insertArcs]⟩
  | cons a rest ih =>
    obtain ⟨t, h⟩ := a
    obtain ⟨ht, hh⟩ := hends (t, h) (List.mem_cons_self ..)
    have hrest : ∀ a ∈ rest, g.hasNode a.1 = true ∧ g.hasNode a.2 = true :=
      fun a ha => hends a (List.mem_cons_of_mem _ ha)
    have hfold : g.insertArcs ((t, h) :: rest)
        = (if g.hasArc t h then g else g.insertArc t h).insertArcs rest := rfl
    rw [hfold]
    by_cases ha : g.hasArc t h = true
    · -- an arc that is there already is skipped
      rw [if_pos ha]
      obtain ⟨hwf, hnodes, harcs⟩ := ih hg hrest
      refine ⟨hwf, hnodes, fun u v => (harcs u v).trans ?_⟩
      rw [List.mem_cons, Prod.mk.injEq]
      constructor
      · rintro (h | h)
        · exact Or.inl h
        · exact Or.inr (Or.inr h)
      · rintro (h | ⟨rfl, rfl⟩ | h)
        · exact Or.inl h
        · exact Or.inl ha
        · exact Or.inr h
    · rw [if_neg ha]
      obtain ⟨hwf, hnodes, harcs⟩ :=
        ih (hg.insertArc ht hh (Bool.eq_false_iff.mpr ha)) hrest
      refine ⟨hwf, hnodes, fun u v => (harcs u v).trans ?_⟩
      rw [hg.hasArc_insertArc (hg.lt_of_hasNode ht) (hg.lt_of_hasNode hh), Bool.or_eq_true,
        decide_eq_true_eq, List.mem_cons, Prod.mk.injEq, or_comm (a := u = t ∧ v = h), or_assoc]

/-! ### Parts -/

/-- The first digraph is a part of the second. -/
structure Within (part g : Digraph) : Prop where
  nodes : ∀ n, part.hasNode n = true → g.hasNode n = true
  arcs : ∀ t h, part.hasArc t h = true → g.hasArc t h = true

/-- The nodes that a part lacks. -/
def missingNodes (g part : Digraph) (order : Nat) : Finset Nat :=
  (Finset.range order).filter fun n => g.hasNode n = true ∧ ¬ part.hasNode n = true

/-- The arcs that a part lacks. -/
def missingArcs (g part : Digraph) (order : Nat) : Finset (Nat × Nat) :=
  (g.arcsBelow order).filter fun a => ¬ part.hasArc a.1 a.2 = true

variable {part : Digraph}

theorem Wf.mem_missingNodes (hg : g.Wf order) {n : Nat} :
    n ∈ g.missingNodes part order ↔ g.hasNode n = true ∧ ¬ part.hasNode n = true := by
  simp only [missingNodes, Finset.mem_filter, Finset.mem_range]
  exact ⟨And.right, fun h => ⟨hg.lt_of_hasNode h.1, h⟩⟩

theorem Wf.mem_missingArcs (hg : g.Wf order) {a : Nat × Nat} :
    a ∈ g.missingArcs part order
      ↔ g.hasArc a.1 a.2 = true ∧ ¬ part.hasArc a.1 a.2 = true := by
  rw [missingArcs, Finset.mem_filter, hg.mem_arcsBelow]

theorem Within.card_missingNodes (hw : part.Within g) (hg : g.Wf order) (hp : part.Wf order) :
    (g.missingNodes part order).card + part.nodeCount = g.nodeCount := by
  have hrank : ∀ s : BitSet, s.rank order
      = ((Finset.range order).filter fun i => s.contains i = true).card := fun s =>
    Nat.count_eq_card_filter_range _ _
  have hpart : (Finset.range order).filter (fun n => part.hasNode n = true)
      = ((Finset.range order).filter (fun n => g.hasNode n = true)).filter
          fun n => part.hasNode n = true := by
    rw [Finset.filter_filter]
    exact Finset.filter_congr fun n _ => ⟨fun h => ⟨hw.nodes n h, h⟩, And.right⟩
  rw [hg.nodeCount_eq, hp.nodeCount_eq, hrank, hrank]
  show (g.missingNodes part order).card
    + ((Finset.range order).filter fun n => part.hasNode n = true).card = _
  rw [hpart, missingNodes, ← Finset.filter_filter, Nat.add_comm]
  exact Finset.card_filter_add_card_filter_not _

theorem Within.card_missingArcs (hw : part.Within g) (hg : g.Wf order) (hp : part.Wf order) :
    (g.missingArcs part order).card + part.arcCount = g.arcCount := by
  have hpart : part.arcsBelow order
      = (g.arcsBelow order).filter fun a => part.hasArc a.1 a.2 = true := by
    ext a
    rw [hp.mem_arcsBelow, Finset.mem_filter, hg.mem_arcsBelow]
    exact ⟨fun h => ⟨hw.arcs _ _ h, h⟩, And.right⟩
  rw [hg.arcCount_eq, hp.arcCount_eq, hpart, missingArcs, Nat.add_comm]
  exact Finset.card_filter_add_card_filter_not _

end FiniteDomain.Digraph
