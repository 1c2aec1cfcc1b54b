import FiniteDomain.Proofs.Domain.Integer.Narrowing

/-! # The values of an integer domain in order

    `IsNext` and `IsPrevious` say what the answers to "which value comes next"
    mean, with the two ends of the range of values standing for "none".  A list
    that begins at a member and follows the next members up to the greatest one
    has all of them in ascending order (`mem_ascend`, `pairwise_ascend`). -/

namespace FiniteDomain.IntegerDomain

/-! ### Neighbours -/

/-- The number is the first of the members that lie beyond something, or `ending` if none does. -/
def IsNearest (member beyond : Int → Prop) (before : Int → Int → Prop) (ending n : Int) : Prop :=
  (n = ending ∧ ∀ v, member v → ¬ beyond v)
    ∨ (member n ∧ beyond n ∧ ∀ v, member v → beyond v → before n v)

/-- The number is the least member above `k`, or `maxValue` if there is none. -/
def IsNext (member : Int → Prop) (k n : Int) : Prop :=
  IsNearest member (k < ·) (· ≤ ·) maxValue n

/-- The number is the greatest member below `k`, or `minValue` if there is none. -/
def IsPrevious (member : Int → Prop) (k n : Int) : Prop :=
  IsNearest member (· < k) (fun n v => v ≤ n) minValue n

/-- There is one nearest number only. -/
theorem IsNearest.unique {member beyond : Int → Prop} {before : Int → Int → Prop}
    {ending n n' : Int} (h : IsNearest member beyond before ending n)
    (h' : IsNearest member beyond before ending n')
    (hbefore : ∀ v w, before v w → before w v → v = w) : n = n' := by
  rcases h with ⟨rfl, hnone⟩ | ⟨hin, hn, hfirst⟩
  · rcases h' with ⟨rfl, -⟩ | ⟨hin', hn', -⟩
    · rfl
    · exact absurd hn' (hnone n' hin')
  · rcases h' with ⟨rfl, hnone'⟩ | ⟨hin', hn', hfirst'⟩
    · exact absurd hn (hnone' n hin)
    · exact hbefore n n' (hfirst n' hin' hn') (hfirst' n hin hn)

/-- The answer to the question for the first of the members that lie beyond something: one of them
    or `ending`, and the first of them if that one is clear. -/
structure Finds (member clear beyond : Int → Prop) (before : Int → Int → Prop) (ending n : Int) :
    Prop where
  /-- The answer is a member that lies beyond, or says that there is none. -/
  honest : n = ending ∨ member n ∧ beyond n
  /-- The first of the members that lie beyond is found if it is clear. -/
  nearest : ∀ m, member m → beyond m → (∀ w, member w → beyond w → before m w) → clear m → n = m

section

variable {member clear clear' beyond beyond' : Int → Prop} {before before' : Int → Int → Prop}
  {ending ending' n : Int}

/-- What is the nearest member is found. -/
theorem IsNearest.finds (h : IsNearest member beyond before ending n)
    (hbefore : ∀ v w, before v w → before w v → v = w) :
    Finds member clear beyond before ending n := by
  rcases h with ⟨rfl, hnone⟩ | ⟨hin, hbeyond, hfirst⟩
  · exact ⟨Or.inl rfl, fun m hm hbeyond => absurd hbeyond (hnone m hm)⟩
  · exact ⟨Or.inr ⟨hin, hbeyond⟩, fun m hm hbeyond' hleast _ =>
      hbefore n m (hfirst m hm hbeyond') (hleast n hin hbeyond)⟩

/-- An answer is handed on through a map of the members: the image of a clear member has to come
    from a clear one that is no end of the range. -/
theorem Finds.map {f g : Int → Int} (h : Finds member clear beyond before ending n)
    (hending : ending = maxValue ∨ ending = minValue)
    (himage : ∀ u, member u → g u = f u)
    (hclear : ∀ u, member u → clear' (f u) → clear u ∧ ¬ (u = maxValue ∨ u = minValue))
    (hforth : ∀ u, member u → beyond u → beyond' (f u))
    (hback : ∀ u, member u → clear' (f u) → beyond' (f u) → beyond u)
    (hbefore : ∀ u w, before' (f u) (f w) → before u w) :
    Finds (fun w => ∃ u, member u ∧ f u = w) clear' beyond' before' ending'
      (if n = maxValue ∨ n = minValue then ending' else g n) := by
  constructor
  · by_cases hend : n = maxValue ∨ n = minValue
    · exact Or.inl (if_pos hend)
    · have hne : n ≠ ending := fun heq => hend (heq ▸ hending)
      obtain ⟨hin, hbeyond⟩ := h.honest.resolve_left hne
      rw [if_neg hend, himage n hin]
      exact Or.inr ⟨⟨n, hin, rfl⟩, hforth n hin hbeyond⟩
  · rintro m ⟨u, hu, rfl⟩ hbeyond hleast hclean
    obtain ⟨hclean', hend⟩ := hclear u hu hclean
    have hfound : n = u := by
      refine h.nearest u hu (hback u hu hclean hbeyond) (fun w hw hbeyond' => ?_) hclean'
      exact hbefore u w (hleast (f w) ⟨w, hw, rfl⟩ (hforth w hw hbeyond'))
    rw [hfound, if_neg hend, himage u hu]

end

variable {d : IntegerDomain} {v : Int}

/-- Between the bounds the next value is the first one from the successor on. -/
theorem nextValue_eq_firstFrom (hd : d.Wf) (hlower : d.lower ≤ v) (hupper : v < d.upper) :
    d.nextValue v = d.firstFrom (v + 1) := by
  unfold nextValue firstFrom
  rw [if_neg (by omega), if_neg (by omega)]
  cases hs : d.values? with
  | none => rfl
  | some s =>
    have hoff := hd.offset_le s hs
    have hindex : s.index (v + 1) = s.index v + 1 := by
      unfold Enumeration.index
      omega
    simp only [hindex]
    cases hn : s.present.next? (s.index v + 1) with
    | some i => rfl
    | none =>
      -- the upper bound is a member above `v`
      have hout := BitSet.next?_eq_none hn (s.index d.upper) (by unfold Enumeration.index; omega)
      rw [show s.present.contains (s.index d.upper) = true from
        enumeration_contains hs hd.upper_mem] at hout
      cases hout

theorem previousValue_eq_lastUpTo (hd : d.Wf) (hlower : d.lower < v) (hupper : v ≤ d.upper) :
    d.previousValue v = d.lastUpTo (v - 1) := by
  unfold previousValue lastUpTo
  rw [if_neg (by omega), if_neg (by omega)]
  cases hs : d.values? with
  | none => rfl
  | some s =>
    have hoff := hd.offset_le s hs
    have hindex : s.index (v - 1) = s.index v - 1 := by
      unfold Enumeration.index
      omega
    simp only [hindex]
    cases hn : s.present.previous? (s.index v - 1) with
    | some i => rfl
    | none =>
      -- the lower bound is a member below `v`
      have hout := BitSet.previous?_eq_none hn (s.index d.lower)
        (by unfold Enumeration.index; omega)
      rw [show s.present.contains (s.index d.lower) = true from
        enumeration_contains hs hd.lower_mem] at hout
      cases hout

theorem isNext_nextValue (hd : d.Wf) (v : Int) :
    IsNext (fun w => d.contains w = true) v (d.nextValue v) := by
  by_cases hupper : d.upper ≤ v
  · left
    refine ⟨by unfold nextValue; rw [if_pos hupper], fun w hw hlt => ?_⟩
    have hle := (contains_iff.mp hw).2.1
    omega
  right
  by_cases hlower : v < d.lower
  · have heq : d.nextValue v = d.lower := by
      unfold nextValue
      rw [if_neg hupper, if_pos hlower]
    rw [heq]
    exact ⟨hd.lower_mem, hlower, fun w hw _ => (contains_iff.mp hw).1⟩
  · rw [nextValue_eq_firstFrom hd (by omega) (by omega)]
    obtain ⟨hge, hin, hmin⟩ := firstFrom_spec hd (v := v + 1) (by omega) (by omega)
    exact ⟨hin, by omega, fun w hw hlt => hmin w (by omega) hw⟩

theorem isPrevious_previousValue (hd : d.Wf) (v : Int) :
    IsPrevious (fun w => d.contains w = true) v (d.previousValue v) := by
  by_cases hlower : v ≤ d.lower
  · left
    refine ⟨by unfold previousValue; rw [if_pos hlower], fun w hw hlt => ?_⟩
    have hle := (contains_iff.mp hw).1
    omega
  right
  by_cases hupper : d.upper < v
  · have heq : d.previousValue v = d.upper := by
      unfold previousValue
      rw [if_neg hlower, if_pos hupper]
    rw [heq]
    exact ⟨hd.upper_mem, hupper, fun w hw _ => (contains_iff.mp hw).2.1⟩
  · rw [previousValue_eq_lastUpTo hd (by omega) (by omega)]
    obtain ⟨hle, hin, hmax⟩ := lastUpTo_spec hd (v := v - 1) (by omega) (by omega)
    exact ⟨hin, by omega, fun w hw hlt => hmax w (by omega) hw⟩

/-! ### Ascending lists -/

/-- Every number below the last one is followed by the next member. -/
def Climbs (member : Int → Prop) (next : Int → Int) (upper : Int) : Prop :=
  ∀ v, member v → v < upper → member (next v) ∧ v < next v ∧ ∀ w, member w → v < w → next v ≤ w

variable {member : Int → Prop} {next : Int → Int} {upper : Int}

theorem take_ascend (next : Int → Int) (upper : Int) (count extra : Nat) (v : Int) :
    (ascend next upper (count + extra) v).take count = ascend next upper count v := by
  induction count generalizing v with
  | zero => rfl
  | succ count ih =>
    rw [Nat.succ_add, ascend, ascend, List.take_succ_cons]
    by_cases h : v < upper
    · rw [if_pos h, if_pos h, ih]
    · rw [if_neg h, if_neg h, List.take_nil]

theorem length_ascend_le (next : Int → Int) (upper : Int) (count : Nat) (v : Int) :
    (ascend next upper count v).length ≤ count := by
  have htake := take_ascend next upper count 0 v
  rw [Nat.add_zero] at htake
  exact List.take_eq_self_iff _ |>.mp htake

/-- Where each number below the last one is followed by a greater one the list ends by itself. -/
theorem ascend_add (h : ∀ v, v < upper → v < next v) {count : Nat} {v : Int}
    (hcount : (upper - v).toNat < count) (extra : Nat) :
    ascend next upper (count + extra) v = ascend next upper count v := by
  induction count generalizing v with
  | zero => exact absurd hcount (Nat.not_lt_zero _)
  | succ count ih =>
    rw [Nat.succ_add, ascend, ascend]
    by_cases hlt : v < upper
    · have hgt := h v hlt
      rw [if_pos hlt, if_pos hlt, ih (by omega)]
    · rw [if_neg hlt, if_neg hlt]

theorem member_of_mem_ascend (h : Climbs member next upper) (count : Nat) {v w : Int}
    (hv : member v) (hw : w ∈ ascend next upper count v) : member w ∧ v ≤ w := by
  induction count generalizing v with
  | zero => cases hw
  | succ count ih =>
    rw [ascend, List.mem_cons] at hw
    rcases hw with rfl | hw
    · exact ⟨hv, Int.le_refl w⟩
    by_cases hlt : v < upper
    · rw [if_pos hlt] at hw
      obtain ⟨hnext, hgt, -⟩ := h v hv hlt
      obtain ⟨hmem, hle⟩ := ih hnext hw
      exact ⟨hmem, by omega⟩
    · rw [if_neg hlt] at hw
      cases hw

theorem pairwise_ascend (h : Climbs member next upper) (count : Nat) {v : Int} (hv : member v) :
    (ascend next upper count v).Pairwise (· < ·) := by
  induction count generalizing v with
  | zero => exact List.Pairwise.nil
  | succ count ih =>
    rw [ascend]
    by_cases hlt : v < upper
    · rw [if_pos hlt]
      obtain ⟨hnext, hgt, -⟩ := h v hv hlt
      refine List.Pairwise.cons (fun w hw => ?_) (ih hnext)
      have hle := (member_of_mem_ascend h count hnext hw).2
      omega
    · rw [if_neg hlt]
      exact List.pairwise_singleton _ v

/-- The list reaches every member from its beginning up to `upper` if it may be long enough. -/
theorem mem_ascend (h : Climbs member next upper) {count : Nat} {v w : Int} (hv : member v)
    (hcount : (upper - v).toNat < count) (hw : member w) (hle : v ≤ w) (hupper : w ≤ upper) :
    w ∈ ascend next upper count v := by
  induction count generalizing v with
  | zero => exact absurd hcount (Nat.not_lt_zero _)
  | succ count ih =>
    rw [ascend, List.mem_cons]
    by_cases heq : w = v
    · exact Or.inl heq
    right
    have hlt : v < upper := by omega
    rw [if_pos hlt]
    obtain ⟨hnext, hgt, hmin⟩ := h v hv hlt
    exact ih hnext (by omega) (hmin w hw (by omega))

end FiniteDomain.IntegerDomain
