import FiniteDomain.Proofs.Filter.Demand

/-! # Assigned values are removed soundly

    The filter works on a stack of positions that are fixed.  Every position that
    is pushed on the way was open before, so the length of the stack and the
    number of open positions together never grow; this is why the fuel that
    `settleAll` takes is enough.

    A run that handles position `i` meets every other position that is fixed to
    the same value, and refuses there: removing its only value leaves nothing. -/

namespace FiniteDomain.AllDifferent

open Filtering

variable {vars : List IntVar} {s t u : Store} {sat : Valuation → Prop}

/-! ### Open positions -/

/-- The number of positions that are not fixed. -/
def openCount (vars : List IntVar) (s : Store) : Nat := vars.countP fun x => !x.isFixed s

/-- The position exists and is fixed. -/
def FixedAt (s : Store) (vars : List IntVar) (i : Nat) : Prop :=
  ∃ x, vars[i]? = some x ∧ x.isFixed s = true

theorem openCount_le_length (vars : List IntVar) (s : Store) : openCount vars s ≤ vars.length :=
  List.countP_le_length

theorem FixedAt.steps {i : Nat} (h : FixedAt s vars i) (hst : s.Steps t) (hs : s.Wf) :
    FixedAt t vars i := by
  obtain ⟨x, hi, hfixed⟩ := h
  exact ⟨x, hi, (IntVar.fixed_steps hst hs hfixed).1⟩

theorem openCount_mono (hst : s.Steps t) (hs : s.Wf) (vars : List IntVar) :
    openCount vars t ≤ openCount vars s := by
  refine List.countP_mono_left fun x hmem hopen => ?_
  rw [Bool.not_eq_true', Bool.eq_false_iff] at hopen ⊢
  exact fun hfixed => hopen (IntVar.fixed_steps hst hs hfixed).1

/-- A position that becomes fixed lowers the number of open ones. -/
theorem openCount_lt (hst : s.Steps t) (hs : s.Wf) {x : IntVar} (hmem : x ∈ vars)
    (hbefore : x.isFixed s = false) (hafter : x.isFixed t = true) :
    openCount vars t < openCount vars s := by
  induction vars with
  | nil => cases hmem
  | cons y rest ih =>
    have hmono := openCount_mono hst hs rest
    unfold openCount at hmono ih ⊢
    rw [List.countP_cons, List.countP_cons]
    rcases List.mem_cons.mp hmem with rfl | hmem
    · rw [hbefore, hafter]
      simp only [Bool.not_true, Bool.false_eq_true, if_false, Bool.not_false, if_true]
      omega
    · have hlt := ih hmem
      have hhead : (if (!y.isFixed t) = true then 1 else 0)
          ≤ if (!y.isFixed s) = true then 1 else 0 := by
        by_cases hfixed : y.isFixed s = true
        · rw [(IntVar.fixed_steps hst hs hfixed).1]
          exact Nat.zero_le _
        · rw [Bool.eq_false_iff.mpr hfixed]
          split
          · exact Nat.le_refl _
          · exact Nat.zero_le _
      omega

/-- A position that becomes fixed may be pushed. -/
theorem length_push_le (htu : t.Steps u) (ht : t.Wf) {y : IntVar} {j : Nat}
    (hj : vars[j]? = some y) (stack : List Nat) :
    (if !y.isFixed t && y.isFixed u then j :: stack else stack).length + openCount vars u
      ≤ stack.length + openCount vars t := by
  have hmono := openCount_mono htu ht vars
  by_cases hpush : (!y.isFixed t && y.isFixed u) = true
  · obtain ⟨hbefore, hafter⟩ := (Bool.and_eq_true ..).mp hpush
    have hlt := openCount_lt htu ht (List.mem_of_getElem? hj)
      ((Bool.not_eq_true' _).mp hbefore) hafter
    rw [if_pos hpush, List.length_cons]
    omega
  · rw [if_neg hpush]
    omega

/-! ### One value -/

/-- What the stack is after some positions were treated: its members are fixed, nothing is lost,
    and each new member was open before. -/
structure Stacked (vars : List IntVar) (stack : List Nat) (s : Store) (stack' : List Nat)
    (t : Store) : Prop where
  bound : stack'.length + openCount vars t ≤ stack.length + openCount vars s
  kept : ∀ j ∈ stack, j ∈ stack'
  fixed : ∀ j ∈ stack', FixedAt t vars j

/-- The valuations of the relation leave the values of fixed variables to them. -/
def KeptApart (vars : List IntVar) (sat : Valuation → Prop) (s : Store) : Prop :=
  ∀ t, Reaches sat s t → ∀ a, t.Admits a → sat a → ∀ i, Apart t vars i a

theorem KeptApart.reaches (h : KeptApart vars sat s) (hst : Reaches sat s t) :
    KeptApart vars sat t :=
  fun u htu => h u (hst.trans htu)

/-- What is kept apart later is kept apart now. -/
theorem Apart.of_steps {i : Nat} {a : Valuation} (h : Apart t vars i a) (hst : s.Steps t)
    (hs : s.Wf) : Apart s vars i a := by
  intro j x y hne hi hj hfixed hremovable
  obtain ⟨hfixed', heq⟩ := IntVar.fixed_steps hst hs hfixed
  rw [← heq] at hremovable ⊢
  exact h j x y hne hi hj hfixed' (hremovable.steps hst hs)

/-- Removing the value of a fixed position from another one. -/
theorem sound_remove (hs : s.Wf) (hx : ∀ x ∈ vars, x.Ranges Width.value s)
    (h : KeptApart vars sat s) {i j : Nat} {x y : IntVar} (hij : j ≠ i) (hi : vars[i]? = some x)
    (hj : vars[j]? = some y) (hfixed : x.isFixed s = true) :
    Sound sat (narrowing (y.removeValue · (x.lowerBound s))) s fun _ t =>
      ∀ a, t.Admits a → y.Removable s (x.lowerBound s) → y.exactValue a.int ≠ x.lowerBound s := by
  have hy := hx y (List.mem_of_getElem? hj)
  refine Sound.narrowing_exactly (IntVar.removeValue_exactly hs hy.source _) ?_
  exact fun a ha hsat => h s (.refl s) a ha hsat i j x y hij hi hj hfixed

theorem sound_strike (hs : s.Wf) (hx : ∀ x ∈ vars, x.Ranges Width.value s)
    (h : KeptApart vars sat s) {i : Nat} {x : IntVar} (hi : vars[i]? = some x)
    (hfixed : x.isFixed s = true) {stack : List Nat} (hstack : ∀ j ∈ stack, FixedAt s vars j) :
    Sound sat (strike vars i (x.lowerBound s) stack) s
      fun stack' t => Stacked vars stack s stack' t ∧ ∀ a, t.Admits a → Apart s vars i a := by
  unfold strike
  -- the invariant of the fold: the stack holds fixed positions only and is bounded
  refine (Sound.foldlM_reaches (I := Stacked vars stack s) (D := fun (yj : IntVar × Nat) t =>
    yj.2 ≠ i → ∀ a, t.Admits a → yj.1.Removable s (x.lowerBound s) →
      yj.1.exactValue a.int ≠ x.lowerBound s) ?_ ?_ ⟨Nat.le_refl _, fun _ h => h, hstack⟩).imp ?_
  · exact fun _ _ _ t u hst htu _ _ hdone hne a ha => hdone hne a (htu.admits (hst.wf hs) ha)
  · intro yj hyj stack' t hst hinv
    obtain ⟨y, j⟩ := yj
    have hj : vars[j]? = some y := List.mem_zipIdx_iff_getElem?.mp hyj
    have ht := hst.steps.wf hs
    have hxt := fun z hz => (hx z hz).steps hst.steps hs
    obtain ⟨hfixed', hlower⟩ :=
      IntVar.fixed_steps hst.steps hs hfixed
    by_cases hij : j = i
    · simp only [if_pos hij]
      exact Sound.pure ⟨hinv, fun hne => absurd hij hne⟩
    simp only [if_neg hij]
    refine Sound.bind_read ?_
    rw [← hlower]
    refine Sound.bind (sound_remove ht hxt (h.reaches hst) hij hi hj hfixed') ?_
    intro _ u htu hleft
    refine Sound.bind_read (Sound.pure ⟨?_, fun _ a ha hremovable => ?_⟩)
    · -- the position is pushed if it has just become fixed
      have hbound := Nat.le_trans (length_push_le htu ht hj stack') hinv.bound
      have hfixedAt : ∀ k ∈ stack', FixedAt u vars k :=
        fun k hk => (hinv.fixed k hk).steps htu ht
      by_cases hpush : (!y.isFixed t && y.isFixed u) = true
      · rw [if_pos hpush] at hbound ⊢
        refine ⟨hbound, fun k hk => List.mem_cons_of_mem j (hinv.kept k hk), fun k hk => ?_⟩
        rcases List.mem_cons.mp hk with rfl | hk
        · exact ⟨y, hj, ((Bool.and_eq_true ..).mp hpush).2⟩
        · exact hfixedAt k hk
      · rw [if_neg hpush] at hbound ⊢
        exact ⟨hbound, hinv.kept, hfixedAt⟩
    · exact hleft a ha (hremovable.steps hst.steps hs)
  · intro stack' t _ hpost
    refine ⟨hpost.1, fun a ha j x' y hne hi' hj _ => ?_⟩
    obtain rfl : x' = x := Option.some.inj (hi'.symm.trans hi)
    exact hpost.2 (y, j) (List.mem_zipIdx_iff_getElem?.mpr hj) hne a ha

/-! ### All values on the stack -/

theorem sound_settle (fuel : Nat) {stack : List Nat} (hs : s.Wf)
    (hx : ∀ x ∈ vars, x.Ranges Width.value s) (h : KeptApart vars sat s)
    (hstack : ∀ j ∈ stack, FixedAt s vars j)
    (hfuel : stack.length + openCount vars s ≤ fuel) :
    Sound sat (settle vars fuel stack) s
      fun _ t => ∀ i ∈ stack, ∀ a, t.Admits a → Apart s vars i a := by
  induction fuel generalizing stack s with
  | zero =>
    cases stack with
    | nil => exact Sound.pure fun i hi => absurd hi List.not_mem_nil
    | cons i rest =>
      rw [List.length_cons] at hfuel
      omega
  | succ fuel ih =>
    cases stack with
    | nil => exact Sound.pure fun i hi => absurd hi List.not_mem_nil
    | cons i rest =>
      obtain ⟨x, hi, hfixed⟩ := hstack i List.mem_cons_self
      rw [settle]
      simp only [hi]
      refine Sound.bind_read ?_
      refine Sound.bind_reaches (sound_strike hs hx h hi hfixed
        fun j hj => hstack j (List.mem_cons_of_mem i hj)) ?_
      -- a position leaves the stack, and each one that enters it was open before
      intro stack' t hst hpost
      have ht := hst.steps.wf hs
      have hbound := hpost.1.bound
      rw [List.length_cons] at hfuel
      have hxt := fun z hz => (hx z hz).steps hst.steps hs
      refine (ih ht hxt (h.reaches hst) hpost.1.fixed (by omega)).imp ?_
      intro _ u htu hrest j hj a ha
      rcases List.mem_cons.mp hj with rfl | hj
      · exact hpost.2 a (htu.admits ht ha)
      · exact (hrest j (hpost.1.kept j hj) a ha).of_steps hst.steps hs

theorem sound_settleAll {stack : List Nat} (hs : s.Wf)
    (hx : ∀ x ∈ vars, x.Ranges Width.value s) (h : KeptApart vars sat s)
    (hstack : ∀ j ∈ stack, FixedAt s vars j) :
    Sound sat (settleAll vars stack) s
      fun _ t => ∀ i ∈ stack, ∀ a, t.Admits a → Apart s vars i a := by
  have hopen := openCount_le_length vars s
  exact sound_settle _ hs hx h hstack (by omega)

theorem sound_byValue (hs : s.Wf) (hx : ∀ x ∈ vars, x.Ranges Width.value s)
    (h : KeptApart vars sat s) :
    Sound sat (byValue vars) s fun _ t => ∀ i a, t.Admits a → Apart s vars i a := by
  have hmem : ∀ i, i ∈ ((vars.zipIdx.filter fun xi => xi.1.isFixed s).map (·.2)).reverse
      ↔ FixedAt s vars i := by
    intro i
    rw [List.mem_reverse, List.mem_map]
    constructor
    · rintro ⟨xi, hxi, rfl⟩
      obtain ⟨hin, hfixed⟩ := List.mem_filter.mp hxi
      exact ⟨xi.1, List.mem_zipIdx_iff_getElem?.mp hin, hfixed⟩
    · rintro ⟨x, hi, hfixed⟩
      exact ⟨(x, i), List.mem_filter.mpr ⟨List.mem_zipIdx_iff_getElem?.mpr hi, hfixed⟩, rfl⟩
  unfold byValue
  refine Sound.bind_read ?_
  refine (sound_settleAll hs hx h fun j hj => (hmem j).mp hj).imp ?_
  intro _ _ _ hpost i a ha j x y hne hi hj hfixed
  exact hpost i ((hmem i).mpr ⟨x, hi, hfixed⟩) a ha j x y hne hi hj hfixed

theorem sound_byValueAt (hs : s.Wf) (hx : ∀ x ∈ vars, x.Ranges Width.value s)
    (h : KeptApart vars sat s) {i : Nat} (hi : FixedAt s vars i) :
    Sound sat (byValueAt vars i) s fun _ t => ∀ a, t.Admits a → Apart s vars i a := by
  have hstack : ∀ j ∈ [i], FixedAt s vars j := by
    intro j hj
    rw [List.mem_singleton.mp hj]
    exact hi
  exact (sound_settleAll hs hx h hstack).imp fun _ _ _ hpost => hpost i (List.mem_singleton_self i)

end FiniteDomain.AllDifferent
