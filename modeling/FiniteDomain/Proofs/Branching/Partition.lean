import FiniteDomain.Proofs.Branching.Strategy

/-! # Branches partition the valuations

    A branch partitions a store if every valuation of the store satisfies exactly
    one of its alternatives and each alternative, carried out, makes a domain
    smaller.  Both follow from the division of the contents: the alternatives
    exclude each other and cover everything, and an alternative that changed
    nothing would leave no contents to the others.

    So the strategies of the library partition whatever store they are asked
    about, and have no branch exactly if their variables are fixed
    (`Strategy.next_partitions`). -/

namespace FiniteDomain

/-- Every valuation of the store satisfies exactly one alternative, and each alternative makes a
    domain smaller. -/
structure Branch.Partitions (branch : Branch) (s : Store) : Prop where
  /-- The alternatives cover the valuations without overlap. -/
  exactly : ∀ a, s.Admits a →
    ∃! i : Fin branch.alternatives.length, (branch.alternatives.get i).Holds a
  /-- Carrying out an alternative neither fails nor leaves the domains as they are. -/
  narrows : ∀ d ∈ branch.alternatives, ∃ t, d.request.run s = .ok ⟨some true, t⟩

variable {s : Store} {ds : List Decision}

/-- Of several positive numbers none is the sum. -/
theorem lt_sum_of_mem {ns : List Nat} (hpos : ∀ n ∈ ns, 0 < n) (hlen : 2 ≤ ns.length) {n : Nat}
    (hn : n ∈ ns) : n < ns.sum := by
  cases ns with
  | nil => cases hn
  | cons m rest =>
    have hm := hpos m List.mem_cons_self
    rw [List.sum_cons]
    rcases List.mem_cons.mp hn with rfl | hn
    · obtain ⟨k, hk⟩ := List.exists_mem_of_length_pos (Nat.le_of_succ_le_succ hlen)
      have hk' := hpos k (List.mem_cons_of_mem n hk)
      have hle := List.le_sum_of_mem hk
      omega
    · have hle := List.le_sum_of_mem hn
      omega

/-- Every alternative of a division makes a domain smaller. -/
theorem Divides.changed? (h : Divides s ds) (hs : s.Wf) (hlen : 2 ≤ ds.length) {d : Decision}
    (hd : d ∈ ds) : (d.apply s).changed? = some true := by
  -- otherwise the alternative keeps all contents, and the others have some as well
  by_contra hne
  have hsame : (d.apply s).store.contents = s.contents :=
    congrArg Store.contents ((h.keeps d hd).same hne)
  have hpos : ∀ n ∈ ds.map fun d => (d.apply s).store.contents, 0 < n := by
    intro n hn
    obtain ⟨d', hd', rfl⟩ := List.mem_map.mp hn
    have hsteps := Store.Steps.of_narrowed (h.keeps d' hd').toSteps
    exact Store.contents_pos (hsteps.wf hs)
  have hlt := lt_sum_of_mem hpos (by rwa [List.length_map]) (List.mem_map_of_mem hd)
  have hshares := h.shares
  omega

/-- Every valuation satisfies exactly one alternative of a division that covers the store. -/
theorem Divides.existsUnique (h : Divides s ds) (hcovers : Covers s ds) {a : Valuation}
    (ha : s.Admits a) : ∃! i : Fin ds.length, (ds.get i).Holds a := by
  have hdisjoint := List.pairwise_iff_get.mp h.disjoint
  obtain ⟨d, hd, hholds⟩ := hcovers a ha
  obtain ⟨i, rfl⟩ := List.get_of_mem hd
  refine ⟨i, hholds, fun j hj => ?_⟩
  rcases lt_trichotomy j i with hlt | heq | hgt
  · exact (hdisjoint j i hlt a ha hj hholds).elim
  · exact heq
  · exact (hdisjoint i j hgt a ha hholds hj).elim

/-- A branch that divides the store and covers it partitions it. -/
theorem Branch.partitions_of_divides {branch : Branch} (hs : s.Wf)
    (h : Divides s branch.alternatives) (hcovers : Covers s branch.alternatives) :
    branch.Partitions s where
  exactly := fun _ ha => h.existsUnique hcovers ha
  narrows := fun d hd => by
    refine ⟨(d.apply s).store, ?_⟩
    rw [Decision.run_eq (h.known d hd), ← h.changed? hs branch.two_le_length hd]

/-- A strategy that fits answers with a branch that partitions the store, or with none if its
    variables are fixed. -/
theorem Strategy.next_partitions {root : Store} (hroot : root.Narrower s) {b : Strategy}
    (h : Strategy.Fits root s b) (r : Random) :
    ∃ branch? b' r', b.next s r = .ok (branch?, b', r')
      ∧ (branch? = none ↔ ∀ v ∈ b.targets, s.Settles v)
      ∧ ∀ branch, branch? = some branch → branch.Partitions s := by
  obtain ⟨branch?, b', r', hnext, hanswer⟩ := Strategy.next_spec hroot b h r
  refine ⟨branch?, b', r', hnext, hanswer.settled, fun branch hbranch => ?_⟩
  obtain ⟨hdivides, hcovers⟩ := hanswer.serves branch hbranch
  exact Branch.partitions_of_divides hroot.wf hdivides hcovers

end FiniteDomain
