import FiniteDomain.Branching.ValueSelector
import FiniteDomain.Proofs.Branching.Division
import Mathlib.Data.List.Perm.Basic

/-! # Every choice of values divides the store

    Whatever rule is used for branching on a variable that is not fixed, and
    whatever is drawn, the branch divides the contents of the store and covers
    every valuation (`ValueSelector.select_spec`). -/

namespace FiniteDomain

/-! ### Draws -/

namespace Generator

theorem nextBits_lt {bits : Nat} (hbits : bits ≤ 64) (g : Generator) :
    (g.nextBits bits).1 < 2 ^ bits := by
  unfold nextBits
  rw [Nat.one_shiftLeft, Nat.div_lt_iff_lt_mul (Nat.two_pow_pos _), ← Nat.pow_add]
  have heq : bits + (64 - bits) = 64 := by omega
  rw [heq]
  exact g.next.1.toNat_lt

theorem mul_div_lt {bits drawn count : Nat} (h : drawn < 2 ^ bits) (hcount : 0 < count) :
    drawn * count / 2 ^ bits < count := by
  rw [Nat.div_lt_iff_lt_mul (Nat.two_pow_pos _), Nat.mul_comm count]
  exact Nat.mul_lt_mul_of_pos_right h hcount

theorem drawWithin_lt {bits count zone : Nat} (hbits : bits ≤ 64) (hcount : 0 < count)
    (repetitions : Nat) (g : Generator) :
    (drawWithin bits count zone repetitions g).1 < count := by
  induction repetitions generalizing g with
  | zero =>
    unfold drawWithin
    rw [Nat.one_shiftLeft]
    exact mul_div_lt (g.nextBits_lt hbits) hcount
  | succ repetitions ih =>
    unfold drawWithin
    simp only
    split
    · rw [Nat.one_shiftLeft]
      exact mul_div_lt (g.nextBits_lt hbits) hcount
    · exact ih _

theorem below_lt {bits count : Nat} (hbits : bits ≤ 64) (hcount : 0 < count) (g : Generator) :
    (g.below bits count).1 < count := by
  unfold below
  split
  next heq =>
    rw [heq, Nat.one_shiftLeft]
    exact g.nextBits_lt hbits
  next => exact drawWithin_lt hbits hcount _ g

end Generator

/-- A draw below a number is below it. -/
theorem Random.below_lt (r : Random) {count : Nat} (hcount : 0 < count) :
    (r.below count).1 < count := by
  cases r with
  | generator g => exact g.below_lt (Nat.le_refl 64) hcount
  | scripted draws => exact Nat.mod_lt _ hcount

theorem Random.index_eq (r : Random) {count : Nat} (hcount : 0 < count) :
    ∃ i r', r.index 0 count = .ok (i, r') ∧ i < count := by
  unfold Random.index
  rw [if_pos hcount]
  refine ⟨_, _, rfl, ?_⟩
  rw [Nat.zero_add]
  exact r.below_lt hcount

/-! ### Orders -/

theorem ValueOrdering.order_perm (ordering : ValueOrdering) (values : List Int) :
    (ordering.order values).Perm values := by
  induction ordering with
  | ascending => exact .refl _
  | descending => exact List.reverse_perm values
  | middleOut =>
    unfold order
    split
    · exact List.mergeSort_perm _ _
    · exact .refl _
  | dropFirst count inner ih =>
    show ((inner.order values).drop count ++ (inner.order values).take count).Perm values
    refine List.perm_append_comm.trans ?_
    rw [List.take_append_drop]
    exact ih

/-! ### Branches -/

namespace ValueSelector

variable {x : IntVar} {s : Store} {v : Int}

theorem ofList_eq {alternatives : List Decision} (h : 2 ≤ alternatives.length) :
    Branch.ofList alternatives = .ok ⟨alternatives, h⟩ := dif_pos h

theorem lowerBound_lt_upperBound (hs : s.Wf) (hopen : x.isFixed s = false) :
    x.lowerBound s < x.upperBound s := by
  have hle := IntVar.lowerBound_le_upperBound hs x
  unfold IntVar.isFixed at hopen
  rw [beq_eq_false_iff_ne] at hopen
  omega

/-- A value at a bound is told apart from the others by two alternatives. -/
theorem divides_at_bound (hs : s.Wf) (hx : x.Ranges Width.value s)
    (hknown : s.knows (.int x.base) = true) (hopen : x.isFixed s = false)
    (hbound : v = x.lowerBound s ∨ v = x.upperBound s) :
    Divides s [.impose (x.equals v), .impose (x.differs v)]
      ∧ Covers s [.impose (x.equals v), .impose (x.differs v)] := by
  have hlt := lowerBound_lt_upperBound hs hopen
  have hlower := IntVar.takes_lowerBound hs hx
  have hupper := IntVar.takes_upperBound hs hx
  -- the value itself, another one, and that the value can be taken away
  obtain ⟨hv, hother, hremovable⟩ :
      x.Takes s v ∧ (∃ w, x.Takes s w ∧ w ≠ v) ∧ x.Removable s v := by
    rcases hbound with rfl | rfl
    · exact ⟨hlower, ⟨_, hupper, Int.ne_of_gt hlt⟩, IntVar.removable_lowerBound hs hx⟩
    · exact ⟨hupper, ⟨_, hlower, Int.ne_of_lt hlt⟩, IntVar.removable_upperBound hs hx⟩
  refine divides_of_tests (x := x) ([(.impose (x.equals v), fun w => w = v),
    (.impose (x.differs v), fun w => w ≠ v)]) hs hknown ?_ ?_ ?_ ?_
  · intro c hc
    rcases List.mem_pair.mp hc with rfl | rfl
    · exact tests_equals hs hx.source v
    · exact tests_differs hs hx.source hremovable
  · intro c hc
    rcases List.mem_pair.mp hc with rfl | rfl
    · exact ⟨v, hv, rfl⟩
    · exact hother
  · exact List.pairwise_pair.mpr fun w heq hne => hne heq
  · intro w _
    by_cases heq : w = v
    · exact ⟨_, List.mem_cons_self, heq⟩
    · exact ⟨_, List.mem_cons_of_mem _ List.mem_cons_self, heq⟩

/-- A value between the bounds is told apart from those below and those above. -/
theorem divides_between (hs : s.Wf) (hx : x.Ranges Width.value s)
    (hknown : s.knows (.int x.base) = true) (hv : x.Takes s v) (hlow : x.lowerBound s < v)
    (hhigh : v < x.upperBound s) :
    Divides s [.impose (x.equals v), .impose (x.atMost (v - 1)), .impose (x.atLeast (v + 1))]
      ∧ Covers s [.impose (x.equals v), .impose (x.atMost (v - 1)),
        .impose (x.atLeast (v + 1))] := by
  refine divides_of_tests (x := x) ([(.impose (x.equals v), fun w => w = v),
    (.impose (x.atMost (v - 1)), fun w => w ≤ v - 1),
    (.impose (x.atLeast (v + 1)), fun w => v + 1 ≤ w)]) hs hknown ?_ ?_ ?_ ?_
  · intro c hc
    simp only [List.mem_cons, List.not_mem_nil, or_false] at hc
    rcases hc with rfl | rfl | rfl
    · exact tests_equals hs hx.source v
    · exact tests_atMost hs hx.source _
    · exact tests_atLeast hs hx.source _
  · intro c hc
    simp only [List.mem_cons, List.not_mem_nil, or_false] at hc
    rcases hc with rfl | rfl | rfl
    · exact ⟨v, hv, rfl⟩
    · exact ⟨_, IntVar.takes_lowerBound hs hx, Int.le_sub_one_of_lt hlow⟩
    · exact ⟨_, IntVar.takes_upperBound hs hx, hhigh⟩
  · simp only [List.pairwise_cons, List.mem_cons, List.not_mem_nil, or_false]
    refine ⟨?_, ?_, fun _ h => h.elim, List.Pairwise.nil⟩
    · rintro c (rfl | rfl) w heq
      · show ¬ w ≤ v - 1
        change w = v at heq
        omega
      · show ¬ v + 1 ≤ w
        change w = v at heq
        omega
    · rintro c rfl w hle
      show ¬ v + 1 ≤ w
      change w ≤ v - 1 at hle
      omega
  · intro w _
    rcases Int.lt_trichotomy w v with hlt | heq | hgt
    · exact ⟨_, List.mem_cons_of_mem _ List.mem_cons_self, Int.le_sub_one_of_lt hlt⟩
    · exact ⟨_, List.mem_cons_self, heq⟩
    · exact ⟨_, List.mem_cons_of_mem _ (List.mem_cons_of_mem _ List.mem_cons_self), hgt⟩

/-- Branching on a value of a variable that has others. -/
theorem branchOnValue_spec (hs : s.Wf) (hx : x.Ranges Width.value s)
    (hknown : s.knows (.int x.base) = true) (hopen : x.isFixed s = false) (hv : x.Takes s v) :
    ∃ branch, branchOnValue x s v = .ok branch ∧ Divides s branch.alternatives
      ∧ Covers s branch.alternatives := by
  unfold branchOnValue
  by_cases hbound : v = x.lowerBound s ∨ v = x.upperBound s
  · rw [if_pos hbound]
    exact ⟨_, rfl, divides_at_bound hs hx hknown hopen hbound⟩
  · rw [if_neg hbound]
    have hle := IntVar.lowerBound_le hs hx hv
    have hge := IntVar.le_upperBound hs hx hv
    obtain ⟨hleast, -⟩ := hx.fits (IntVar.takes_lowerBound hs hx)
    obtain ⟨-, hgreatest⟩ := hx.fits (IntVar.takes_upperBound hs hx)
    have hbelow : Width.value.Fits (v - 1) := ⟨by omega, by omega⟩
    have habove : Width.value.Fits (v + 1) := ⟨by omega, by omega⟩
    simp only [Width.checked_of_fits hbelow, Width.checked_of_fits habove, bind, Except.bind]
    have hlength : 2 ≤ [Decision.impose (x.equals v), .impose (x.atMost (v - 1)),
        .impose (x.atLeast (v + 1))].length := Nat.le_succ 2
    exact ⟨_, ofList_eq hlength, divides_between hs hx hknown hv (by omega) (by omega)⟩

/-- The middle lies between the bounds, and below the upper one. -/
theorem midpoint_bounds (hlt : x.lowerBound s < x.upperBound s) :
    x.lowerBound s ≤ midpoint x s ∧ midpoint x s < x.upperBound s := by
  have htwo : (0 : Int) < 2 := by decide
  constructor
  · exact (le_divFloor_iff_of_pos htwo).mpr (by omega)
  · refine Int.not_le.mp fun hle => ?_
    have hmul := (le_divFloor_iff_of_pos htwo).mp hle
    omega

theorem takes_nearestToMiddle (hs : s.Wf) (hx : x.Ranges Width.interior s)
    (hopen : x.isFixed s = false) : x.Takes s (nearestToMiddle x s) := by
  have hvalue := hx.mono fun _ => Width.fits_of_interior
  have hlt := lowerBound_lt_upperBound hs hopen
  obtain ⟨hle, hlt'⟩ := midpoint_bounds hlt
  unfold nearestToMiddle
  simp only
  split
  next hin => exact (IntVar.contains_iff hvalue).mp hin
  next hout =>
    obtain ⟨hnext, hprevious⟩ := IntVar.isNext_and_isPrevious hs hx (midpoint x s)
    have hlower := IntVar.takes_lowerBound hs hvalue
    have hupper := IntVar.takes_upperBound hs hvalue
    -- both bounds are values, on different sides of the middle, so it has a value on each side
    have hne : x.lowerBound s ≠ midpoint x s := by
      intro heq
      rw [heq] at hlower
      exact hout ((IntVar.contains_iff hvalue).mpr hlower)
    split
    · rcases hprevious with ⟨-, hnone⟩ | ⟨hmember, -, -⟩
      · exact absurd (by omega) (hnone _ hlower)
      · exact hmember
    · rcases hnext with ⟨-, hnone⟩ | ⟨hmember, -, -⟩
      · exact absurd hlt' (hnone _ hupper)
      · exact hmember

/-- Branching on the two halves of a variable. -/
theorem split_spec (hs : s.Wf) (hx : x.Ranges Width.value s)
    (hknown : s.knows (.int x.base) = true) (hopen : x.isFixed s = false) :
    Width.value.checked (midpoint x s + 1) = .ok (midpoint x s + 1)
      ∧ Divides s [.impose (x.atMost (midpoint x s)), .impose (x.atLeast (midpoint x s + 1))]
      ∧ Covers s [.impose (x.atMost (midpoint x s)), .impose (x.atLeast (midpoint x s + 1))] := by
  have hlt := lowerBound_lt_upperBound hs hopen
  obtain ⟨hle, hlt'⟩ := midpoint_bounds hlt
  have hlower := IntVar.takes_lowerBound hs hx
  have hupper := IntVar.takes_upperBound hs hx
  obtain ⟨hleast, -⟩ := hx.fits hlower
  obtain ⟨-, hgreatest⟩ := hx.fits hupper
  -- the middle lies below the greatest value, so that one more is no overflow
  refine ⟨Width.checked_of_fits ⟨by omega, by omega⟩, ?_⟩
  refine divides_of_tests (x := x) ([(.impose (x.atMost (midpoint x s)),
    fun w => w ≤ midpoint x s), (.impose (x.atLeast (midpoint x s + 1)),
    fun w => midpoint x s + 1 ≤ w)]) hs hknown ?_ ?_ ?_ ?_
  · intro c hc
    rcases List.mem_pair.mp hc with rfl | rfl
    · exact tests_atMost hs hx.source _
    · exact tests_atLeast hs hx.source _
  · intro c hc
    rcases List.mem_pair.mp hc with rfl | rfl
    · exact ⟨_, hlower, hle⟩
    · exact ⟨_, hupper, hlt'⟩
  · refine List.pairwise_pair.mpr fun w hle' => ?_
    show ¬ midpoint x s + 1 ≤ w
    change w ≤ midpoint x s at hle'
    omega
  · intro w _
    rcases Int.lt_or_le (midpoint x s) w with hgt | hle'
    · exact ⟨_, List.mem_cons_of_mem _ List.mem_cons_self, hgt⟩
    · exact ⟨_, List.mem_cons_self, hle'⟩

/-- Branching on every value of a variable. -/
theorem enumerate_spec (hs : s.Wf) (hx : x.Ranges Width.interior s)
    (hknown : s.knows (.int x.base) = true) (hopen : x.isFixed s = false)
    (ordering : ValueOrdering) :
    ∃ branch, Branch.ofList ((ordering.order (x.values s)).map fun v => .impose (x.equals v))
        = .ok branch
      ∧ Divides s branch.alternatives ∧ Covers s branch.alternatives := by
  have hvalue := hx.mono fun _ => Width.fits_of_interior
  have hperm := ordering.order_perm (x.values s)
  have hmem : ∀ w, w ∈ ordering.order (x.values s) ↔ x.Takes s w := fun w =>
    hperm.mem_iff.trans (IntVar.mem_values hs hx)
  have hlength : 2 ≤ ((ordering.order (x.values s)).map
      fun v => Decision.impose (x.equals v)).length := by
    rw [List.length_map, hperm.length_eq]
    -- the two bounds are different values
    have hlower := (IntVar.mem_values hs hx).mpr (IntVar.takes_lowerBound hs hvalue)
    have hupper := (IntVar.mem_values hs hx).mpr (IntVar.takes_upperBound hs hvalue)
    have hne := Int.ne_of_lt (lowerBound_lt_upperBound hs hopen)
    match hlist : x.values s with
    | [] =>
      rw [hlist] at hlower
      exact absurd hlower List.not_mem_nil
    | [w] =>
      rw [hlist, List.mem_singleton] at hlower hupper
      exact absurd (hlower.trans hupper.symm) hne
    | _ :: _ :: rest => exact Nat.le_add_left 2 rest.length
  refine ⟨_, ofList_eq hlength, ?_⟩
  have hdivides := divides_of_tests (x := x) ((ordering.order (x.values s)).map fun v =>
    (Decision.impose (x.equals v), fun w => w = v)) hs hknown ?_ ?_ ?_ ?_
  · rwa [List.map_map] at hdivides
  · intro c hc
    obtain ⟨v, -, rfl⟩ := List.mem_map.mp hc
    exact tests_equals hs hvalue.source v
  · intro c hc
    obtain ⟨v, hv, rfl⟩ := List.mem_map.mp hc
    exact ⟨v, (hmem v).mp hv, rfl⟩
  · rw [List.pairwise_map]
    refine (hperm.nodup_iff.mpr (IntVar.nodup_values hs hx)).imp fun hne w heq heq' => ?_
    exact hne (heq.symm.trans heq')
  · intro w hw
    exact ⟨_, List.mem_map.mpr ⟨w, (hmem w).mpr hw, rfl⟩, rfl⟩

/-- Every rule divides the store. -/
theorem select_spec (selector : ValueSelector) (hs : s.Wf) (hx : x.Ranges Width.interior s)
    (hknown : s.knows (.int x.base) = true) (hopen : x.isFixed s = false) (r : Random) :
    ∃ branch r', selector.select x s r = .ok (branch, r') ∧ Divides s branch.alternatives
      ∧ Covers s branch.alternatives := by
  have hvalue := hx.mono fun _ => Width.fits_of_interior
  -- all rules but two branch on a value that the variable takes
  have hon : ∀ {v : Int} {r' : Random}, x.Takes s v →
      ∃ branch r'', (branchOnValue x s v).map (·, r') = .ok (branch, r'')
        ∧ Divides s branch.alternatives ∧ Covers s branch.alternatives := by
    intro v r' hv
    obtain ⟨branch, hbranch, hdivides⟩ := branchOnValue_spec hs hvalue hknown hopen hv
    rw [hbranch]
    exact ⟨branch, r', rfl, hdivides⟩
  cases selector with
  | min => exact hon (IntVar.takes_lowerBound hs hvalue)
  | max => exact hon (IntVar.takes_upperBound hs hvalue)
  | middle => exact hon (takes_nearestToMiddle hs hx hopen)
  | split =>
    obtain ⟨hchecked, hdivides⟩ := split_spec hs hvalue hknown hopen
    show ∃ branch r', (Width.value.checked (midpoint x s + 1) >>= _) = _ ∧ _
    rw [hchecked]
    exact ⟨_, _, rfl, hdivides⟩
  | random =>
    obtain ⟨i, r', hindex, hi⟩ := r.index_eq (hs.int x.base).size_pos
    obtain ⟨v, hv, htakes⟩ := IntVar.valueAt?_eq_some hs hx hi
    show ∃ branch r', (r.index 0 (x.size s) >>= _) = _ ∧ _
    have hindex' : r.index 0 (x.size s) = .ok (i, r') := hindex
    rw [hindex']
    show ∃ branch r'', (branchOnValue x s ((x.valueAt? s i).getD (x.lowerBound s)) >>= _) = _ ∧ _
    rw [hv]
    exact hon htakes
  | enumerate ordering =>
    obtain ⟨branch, hbranch, hdivides⟩ := enumerate_spec hs hx hknown hopen ordering
    show ∃ branch r', (Branch.ofList _ >>= _) = _ ∧ _
    rw [hbranch]
    exact ⟨_, _, rfl, hdivides⟩

end ValueSelector

end FiniteDomain
