import FiniteDomain.Proofs.Ascending
import FiniteDomain.Proofs.Filter.AllDifferent.Instantiation

/-! # Bounds are moved out of Hall intervals

    A pass compares the variables as they were when it began; that they have
    shrunk since does no harm, for a full interval stays full (`crowd_narrower`).
    It looks at the intervals between bounds of variables only: an interval with
    an end that is no bound is not full (`Uncrowded.of_candidates`).

    A pass that changes anything lowers the slack of the store, so the fuel of
    `byBounds` is enough. -/

namespace FiniteDomain.AllDifferent

open Filtering

variable {vars : List IntVar} {s t : Store} {sat : Valuation → Prop} {low high : Int}

/-! ### One interval -/

/-- If a bound of the variable lies in the interval, its value lies beyond it. -/
def Outside (s : Store) (low high : Int) (x : IntVar) (a : Valuation) : Prop :=
  (low ≤ x.lowerBound s → x.lowerBound s ≤ high → high < x.exactValue a.int)
    ∧ (low ≤ x.upperBound s → x.upperBound s ≤ high → x.exactValue a.int < low)

theorem Outside.of_steps {x : IntVar} {a : Valuation} (h : Outside t low high x a)
    (hst : s.Steps t) (hs : s.Wf) (hx : x.Ranges Width.value s) (ha : t.Admits a) :
    Outside s low high x a := by
  have hlower := IntVar.lowerBound_mono hst hs x
  have hupper := IntVar.upperBound_mono hst hs x
  have hxt := hx.steps hst hs
  have htakes := IntVar.takes_exactValue ha x
  have hleast := IntVar.lowerBound_le (hst.wf hs) hxt htakes
  have hgreatest := IntVar.le_upperBound (hst.wf hs) hxt htakes
  constructor
  · intro hlow hhigh
    by_cases hpast : high < x.lowerBound t
    · omega
    · exact h.1 (by omega) (by omega)
  · intro hlow hhigh
    by_cases hpast : x.upperBound t < low
    · omega
    · exact h.2 (by omega) (by omega)

/-- Next to a value that fits inside the width there are values of the width. -/
theorem checked_beside {v : Int} (h : Width.interior.Fits v) :
    Width.value.checked (v + 1) = .ok (v + 1) ∧ Width.value.checked (v - 1) = .ok (v - 1) := by
  obtain ⟨hleast, hgreatest⟩ := h
  simp only [Width.interior, minValue, maxValue, Width.value] at hleast hgreatest
  constructor <;> refine Width.checked_of_fits ⟨?_, ?_⟩ <;> simp only [Width.value] <;> omega

/-- A narrowing that changed anything has lowered the slack. -/
theorem slack_lt_of_changed {n : Narrowed} {changed : Bool} (hs : s.Wf) (hn : n.Steps s)
    (hpost : n.changed? = some changed ∧ t = n.store) (hchanged : changed = true) :
    t.slack < s.slack := by
  obtain ⟨hc, rfl⟩ := hpost
  exact (hn.step (hchanged ▸ hc)).slack_lt hs

/-- Moving the upper bound out of an interval, after whatever was done to the lower one. -/
theorem sound_moveUpperOut {x : IntVar} {raised : Bool} (hs : s.Wf) (hx : x.Ranges Width.value s)
    (hlow : Width.interior.Fits low)
    (h : ∀ t, Reaches sat s t → ∀ a, t.Admits a → sat a → Outside t low high x a)
    (hst : Reaches sat s t) (hraised : raised = true → t.slack < s.slack)
    (hfirst : low ≤ x.lowerBound s → x.lowerBound s ≤ high → ∀ a, t.Admits a →
      high < x.exactValue a.int) :
    Sound sat (do
      let upper ← Filtering.read x.upperBound
      let dropped ←
        if low ≤ upper ∧ upper ≤ high then do
          let bound ← Filtering.checked (Width.value.checked (low - 1))
          Filtering.narrowOr .inconsistent (x.tightenUpper · bound)
        else pure false
      return raised || dropped) t fun changed u =>
        (changed = true → u.slack < s.slack) ∧ ∀ a, u.Admits a → Outside s low high x a := by
  have ht := hst.steps.wf hs
  have hxt := hx.steps hst.steps hs
  have hmove := IntVar.upperBound_mono hst.steps hs x
  refine Sound.bind_read ?_
  by_cases hin : low ≤ x.upperBound t ∧ x.upperBound t ≤ high
  · simp only [if_pos hin]
    refine Sound.bind_checked (checked_beside hlow).2 ?_
    have hkeeps := IntVar.tightenUpper_keeps ht hxt.source (low - 1)
    refine Sound.bind (Sound.narrowOr hkeeps.toObeys fun a ha hsat => ?_) ?_
    · have hlt := (h t hst a ha hsat).2 hin.1 hin.2
      omega
    · intro dropped u htu hpost
      refine Sound.pure ⟨fun hchanged => ?_, fun a ha => ⟨fun hl hh => ?_, fun _ _ => ?_⟩⟩
      · rcases (Bool.or_eq_true ..).mp hchanged with hc | hc
        · exact Nat.lt_of_le_of_lt (htu.slack_le ht) (hraised hc)
        · have hlt := slack_lt_of_changed ht hkeeps.toSteps hpost hc
          exact Nat.lt_of_lt_of_le hlt (hst.steps.slack_le hs)
      · exact hfirst hl hh a (htu.admits ht ha)
      · have hne : (x.tightenUpper t (low - 1)).changed? ≠ none := by
          rw [hpost.1]
          exact Option.some_ne_none dropped
        have hle := hkeeps.exactly hne a (hpost.2 ▸ ha)
        omega
  · -- a bound that was in the interval has been moved past it before
    simp only [if_neg hin, Bool.or_false, pure_bind]
    refine Sound.pure ⟨hraised, fun a ha => ⟨fun hl hh => hfirst hl hh a ha, fun hl hh => ?_⟩⟩
    have hle := IntVar.le_upperBound ht hxt (IntVar.takes_exactValue ha x)
    omega

/-- Moving the bounds of a variable out of an interval. -/
theorem sound_moveOut {x : IntVar} (hs : s.Wf) (hx : x.Ranges Width.value s)
    (hlow : Width.interior.Fits low) (hhigh : Width.interior.Fits high)
    (h : ∀ t, Reaches sat s t → ∀ a, t.Admits a → sat a → Outside t low high x a) :
    Sound sat (moveOut x low high) s fun changed t =>
      (changed = true → t.slack < s.slack) ∧ ∀ a, t.Admits a → Outside s low high x a := by
  unfold moveOut
  refine Sound.bind_read ?_
  -- the upper bound is treated in the store in which the lower one has moved
  by_cases hin : low ≤ x.lowerBound s ∧ x.lowerBound s ≤ high
  · simp only [if_pos hin]
    refine Sound.bind_checked (checked_beside hhigh).1 ?_
    have hkeeps := IntVar.tightenLower_keeps hs hx.source (high + 1)
    refine Sound.bind_reaches (Sound.narrowOr hkeeps.toObeys fun a ha hsat => ?_) ?_
    · have hlt := (h s (.refl s) a ha hsat).1 hin.1 hin.2
      omega
    · intro raised u hsu hpost
      refine sound_moveUpperOut hs hx hlow h hsu
        (slack_lt_of_changed hs hkeeps.toSteps hpost) fun _ _ a ha => ?_
      have hne : (x.tightenLower s (high + 1)).changed? ≠ none := by
        rw [hpost.1]
        exact Option.some_ne_none raised
      have hle := hkeeps.exactly hne a (hpost.2 ▸ ha)
      omega
  · simp only [if_neg hin, pure_bind]
    exact sound_moveUpperOut hs hx hlow h (.refl s) nofun fun hl hh => absurd ⟨hl, hh⟩ hin

/-- The valuations of the relation leave full intervals to the variables that are inside. -/
def KeptUncrowded (vars : List IntVar) (sat : Valuation → Prop) (s : Store) : Prop :=
  ∀ t, Reaches sat s t → ∀ a, t.Admits a → sat a → ∀ low high, low ≤ high →
    Uncrowded t vars low high a

theorem KeptUncrowded.reaches (h : KeptUncrowded vars sat s) (hst : Reaches sat s t) :
    KeptUncrowded vars sat t :=
  fun u htu => h u (hst.trans htu)

/-- A full interval stays full, so that the variables that are not inside stay outside. -/
theorem KeptUncrowded.outside {x : IntVar} {a : Valuation} (h : KeptUncrowded vars sat s)
    (hs : s.Wf) (hfull : (crowd vars s low high : Int) = high - low + 1) (hle : low ≤ high)
    (hst : Reaches sat s t) (ha : t.Admits a) (hsat : sat a) (hmem : x ∈ vars)
    (hout : ¬ Inside s low high x) : Outside t low high x a := by
  have hkept := h t hst a ha hsat low high hle
  obtain ⟨hmore, hback⟩ := crowd_narrower vars low high (hst.steps.narrower hs)
  have hroom := hkept.room
  have hout' : ¬ Inside t low high x := fun hin => hout (hback (by omega) x hmem hin)
  exact ⟨hkept.lower (by omega) x hmem hout', hkept.upper (by omega) x hmem hout'⟩

/-- Treating an interval, for the bounds that the variables had before some steps. -/
theorem sound_treatInterval (hs : s.Wf) (hx : ∀ x ∈ vars, x.Ranges Width.value s)
    (h : KeptUncrowded vars sat s) (hst : Reaches sat s t) (hlow : Width.interior.Fits low)
    (hhigh : Width.interior.Fits high) (hle : low ≤ high) :
    Sound sat (treatInterval vars (boundsOf vars s) low high) t fun changed u =>
      (changed = true → u.slack < t.slack) ∧ ∀ a, u.Admits a → Uncrowded s vars low high a := by
  have ht := hst.steps.wf hs
  unfold treatInterval
  simp only
  change Sound sat (if high - low + 1 < (crowd vars s low high : Int) then _
    else if (crowd vars s low high : Int) < high - low + 1 then _ else _) t _
  by_cases hover : high - low + 1 < (crowd vars s low high : Int)
  · rw [if_pos hover]
    refine Sound.refuse fun a ha hsat => ?_
    have hroom := (h t hst a ha hsat low high hle).room
    have hmore := (crowd_narrower vars low high (hst.steps.narrower hs)).1
    omega
  rw [if_neg hover]
  by_cases hunder : (crowd vars s low high : Int) < high - low + 1
  · rw [if_pos hunder]
    refine Sound.pure ⟨fun hc => ?_, fun a _ => ⟨by omega, ?_, ?_⟩⟩
    · cases hc
    · exact fun hfull => absurd hfull (Int.ne_of_lt hunder)
    · exact fun hfull => absurd hfull (Int.ne_of_lt hunder)
  rw [if_neg hunder]
  have hfull : (crowd vars s low high : Int) = high - low + 1 := by omega
  -- one variable after the other; what has been moved out stays out
  refine (Sound.foldlM_reaches (I := fun changed u => changed = true → u.slack < t.slack)
    (D := fun (p : IntVar × Int × Int) u => encloses low high p.2 = true
      ∨ ∀ a, u.Admits a → Outside s low high p.1 a) ?_ ?_ (fun hc => by cases hc)).imp ?_
  · exact fun _ _ _ u w htu huw _ _ hdone =>
      hdone.imp_right fun hout a ha => hout a (huw.admits (htu.wf ht) ha)
  · intro p hp changed u htu hchanged
    obtain ⟨x, b⟩ := p
    obtain ⟨z, hmem, heq⟩ := List.mem_map.mp (zip_boundsOf vars s ▸ hp)
    obtain ⟨rfl, rfl⟩ := Prod.mk.inj heq
    by_cases hencloses : encloses low high (z.lowerBound s, z.upperBound s) = true
    · simp only [if_pos hencloses]
      exact Sound.pure ⟨hchanged, Or.inl hencloses⟩
    simp only [if_neg hencloses]
    have hsu := hst.trans htu
    have hu := htu.steps.wf ht
    refine Sound.bind (sound_moveOut hu ((hx z hmem).steps hsu.steps hs) hlow hhigh
      fun w huw a ha hsat => h.outside hs hfull hle (hsu.trans huw) ha hsat hmem hencloses) ?_
    intro moved w huw hmoved
    refine Sound.pure ⟨fun hc => ?_, Or.inr fun a ha => ?_⟩
    · rcases (Bool.or_eq_true ..).mp hc with hc | hc
      · exact Nat.lt_of_lt_of_le (hmoved.1 hc) (htu.steps.slack_le ht)
      · exact Nat.lt_of_le_of_lt (huw.slack_le hu) (hchanged hc)
    · exact (hmoved.2 a ha).of_steps hsu.steps hs (hx z hmem) (huw.admits hu ha)
  · intro changed u htu hpost
    refine ⟨hpost.1, fun a ha => ?_⟩
    have hout : ∀ x ∈ vars, ¬ Inside s low high x → Outside s low high x a := by
      intro x hmem hinside
      refine (hpost.2 (x, x.lowerBound s, x.upperBound s) ?_).resolve_left hinside a ha
      rw [zip_boundsOf]
      exact List.mem_map.mpr ⟨x, hmem, rfl⟩
    exact ⟨by omega, fun _ x hmem hinside => (hout x hmem hinside).1,
      fun _ x hmem hinside => (hout x hmem hinside).2⟩

/-! ### Passes -/

theorem mem_candidateIntervals {bounds : List (Int × Int)} {p : Int × Int}
    (h : p ∈ candidateIntervals bounds) :
    p.1 ∈ bounds.map (·.1) ∧ p.2 ∈ bounds.map (·.2) ∧ p.1 ≤ p.2 := by
  obtain ⟨low, hlow, hp⟩ := List.mem_flatMap.mp h
  obtain ⟨high, hhigh, rfl⟩ := List.mem_map.mp hp
  obtain ⟨hhigh, hle⟩ := List.mem_filter.mp hhigh
  exact ⟨((pairwise_sortedReps _).2 low).mp hlow, ((pairwise_sortedReps _).2 high).mp hhigh,
    of_decide_eq_true hle⟩

/-- The interval lies between bounds of variables. -/
theorem candidate_of_bounds {bounds : List (Int × Int)} (hlow : low ∈ bounds.map (·.1))
    (hhigh : high ∈ bounds.map (·.2)) (hle : low ≤ high) :
    (low, high) ∈ candidateIntervals bounds := by
  refine List.mem_flatMap.mpr ⟨low, ((pairwise_sortedReps _).2 low).mpr hlow, ?_⟩
  refine List.mem_map.mpr ⟨high, List.mem_filter.mpr ⟨?_, decide_eq_true hle⟩, rfl⟩
  exact ((pairwise_sortedReps _).2 high).mpr hhigh

/-- Nothing is enclosed between ends in the wrong order. -/
theorem crowd_eq_zero (hs : s.Wf) (h : high < low) : crowd vars s low high = 0 := by
  rw [crowd_eq, List.length_eq_zero_iff, List.filter_eq_nil_iff]
  intro x hmem hinside
  have hbounds := IntVar.lowerBound_le_upperBound hs x
  have hin := inside_iff.mp hinside
  omega

/-- An interval with an end that is no bound has room left. -/
theorem crowd_of_candidates (low high : Int) (hs : s.Wf)
    (h : ∀ p ∈ candidateIntervals (boundsOf vars s), (crowd vars s p.1 p.2 : Int) ≤ p.2 - p.1 + 1)
    (hle : low ≤ high + 1) :
    (crowd vars s low high : Int) ≤ high - low + 1
      ∧ (low ≤ high → (crowd vars s low high : Int) = high - low + 1 →
        (low, high) ∈ candidateIntervals (boundsOf vars s)) := by
  generalize hn : (high + 1 - low).toNat = n
  induction n generalizing low high with
  | zero =>
    rw [crowd_eq_zero hs (by omega)]
    exact ⟨by omega, fun _ => by omega⟩
  | succ n ih =>
    by_cases hcandidate : (low, high) ∈ candidateIntervals (boundsOf vars s)
    · exact ⟨h _ hcandidate, fun _ _ => hcandidate⟩
    -- moving an end that is no bound inwards loses nobody
    have hsame : ∀ low' high' : Int, low ≤ low' → high' ≤ high →
        (∀ x ∈ vars, Inside s low high x → Inside s low' high' x) →
        crowd vars s low high = crowd vars s low' high' := by
      intro low' high' hlow hhigh hinside
      rw [crowd_eq, crowd_eq]
      refine congrArg List.length (List.filter_congr fun x hmem => ?_)
      refine Bool.eq_iff_iff.mpr ⟨hinside x hmem, fun hin => ?_⟩
      have hin' := inside_iff.mp hin
      exact inside_iff.mpr (by omega)
    have hbounds : ∀ x ∈ vars, (x.lowerBound s, x.upperBound s) ∈ boundsOf vars s :=
      fun x hmem => List.mem_map.mpr ⟨x, hmem, rfl⟩
    by_cases hlow : low ∈ (boundsOf vars s).map (·.1)
    · have hhigh : high ∉ (boundsOf vars s).map (·.2) := fun hhigh =>
        hcandidate (candidate_of_bounds hlow hhigh (by omega))
      have heq := hsame low (high - 1) (Int.le_refl _) (by omega) (by
        intro x hmem hinside
        have hne : x.upperBound s ≠ high := fun heq =>
          hhigh (List.mem_map.mpr ⟨_, hbounds x hmem, heq⟩)
        have hin := inside_iff.mp hinside
        exact inside_iff.mpr (by omega))
      have hless := (ih low (high - 1) (by omega) (by omega)).1
      rw [heq]
      exact ⟨by omega, fun _ _ => by omega⟩
    · have heq := hsame (low + 1) high (by omega) (Int.le_refl _) (by
        intro x hmem hinside
        have hne : x.lowerBound s ≠ low := fun heq =>
          hlow (List.mem_map.mpr ⟨_, hbounds x hmem, heq⟩)
        have hin := inside_iff.mp hinside
        exact inside_iff.mpr (by omega))
      have hless := (ih (low + 1) high (by omega) (by omega)).1
      rw [heq]
      exact ⟨by omega, fun _ _ => by omega⟩

/-- It is enough to look at the intervals between bounds. -/
theorem Uncrowded.of_candidates {a : Valuation} (hs : s.Wf)
    (h : ∀ p ∈ candidateIntervals (boundsOf vars s), Uncrowded s vars p.1 p.2 a)
    (hle : low ≤ high) : Uncrowded s vars low high a := by
  obtain ⟨hroom, hfull⟩ := crowd_of_candidates low high hs (fun p hp => (h p hp).room) (by omega)
  exact ⟨hroom, fun heq => (h _ (hfull hle heq)).lower heq,
    fun heq => (h _ (hfull hle heq)).upper heq⟩

theorem sound_hallPass (hs : s.Wf) (hx : ∀ x ∈ vars, x.Clear s) (h : KeptUncrowded vars sat s) :
    Sound sat (hallPass vars) s fun changed t => (changed = true → t.slack < s.slack)
      ∧ ∀ a, t.Admits a → ∀ low high, low ≤ high → Uncrowded s vars low high a := by
  have hx' := fun x hmem => (hx x hmem).ranges
  unfold hallPass
  refine Sound.bind_read ?_
  refine (Sound.foldlM_reaches (I := fun changed u => changed = true → u.slack < s.slack)
    (D := fun (p : Int × Int) u => ∀ a, u.Admits a → Uncrowded s vars p.1 p.2 a) ?_ ?_
    (fun hc => by cases hc)).imp ?_
  · exact fun _ _ _ u w hsu huw _ _ hdone a ha => hdone a (huw.admits (hsu.wf hs) ha)
  · intro p hp changed t hst hchanged
    obtain ⟨low, high⟩ := p
    obtain ⟨hlow, hhigh, hle⟩ := mem_candidateIntervals hp
    -- the ends of an interval are bounds of variables, which lie inside the range
    have hlow' : Width.interior.Fits low := by
      obtain ⟨b, hb, rfl⟩ := List.mem_map.mp hlow
      obtain ⟨x, hmem, rfl⟩ := List.mem_map.mp hb
      exact (hx x hmem).inside _ (IntVar.takes_lowerBound hs (hx' x hmem))
    have hhigh' : Width.interior.Fits high := by
      obtain ⟨b, hb, rfl⟩ := List.mem_map.mp hhigh
      obtain ⟨x, hmem, rfl⟩ := List.mem_map.mp hb
      exact (hx x hmem).inside _ (IntVar.takes_upperBound hs (hx' x hmem))
    refine Sound.bind (sound_treatInterval hs hx' h hst hlow' hhigh' hle) ?_
    intro treated u htu hdone
    refine Sound.pure ⟨fun hc => ?_, hdone.2⟩
    rcases (Bool.or_eq_true ..).mp hc with hc | hc
    · exact Nat.lt_of_lt_of_le (hdone.1 hc) (hst.steps.slack_le hs)
    · exact Nat.lt_of_le_of_lt (htu.slack_le (hst.steps.wf hs)) (hchanged hc)
  · exact fun _ t hst hpost => ⟨hpost.1, fun a ha low high hle =>
      Uncrowded.of_candidates hs (fun p hp => hpost.2 p hp a ha) hle⟩

/-- The first pass does what is demanded where the passes begin. -/
theorem sound_hallPasses (fuel : Nat) (hs : s.Wf) (hx : ∀ x ∈ vars, x.Clear s)
    (h : KeptUncrowded vars sat s) (hfuel : s.slack < fuel) :
    Sound sat (hallPasses vars fuel) s
      fun _ t => ∀ a, t.Admits a → ∀ low high, low ≤ high → Uncrowded s vars low high a := by
  induction fuel generalizing s with
  | zero => exact absurd hfuel (Nat.not_lt_zero _)
  | succ fuel ih =>
    rw [hallPasses]
    refine Sound.bind_reaches (sound_hallPass hs hx h) ?_
    intro changed t hst hpost
    by_cases hc : changed = true
    · rw [if_pos hc]
      have ht := hst.steps.wf hs
      have hlt := hpost.1 hc
      refine (ih ht (fun x hmem => (hx x hmem).steps hst.steps hs) (h.reaches hst)
        (by omega)).imp ?_
      exact fun _ u htu _ a ha => hpost.2 a (htu.admits ht ha)
    · rw [if_neg hc]
      exact Sound.pure hpost.2

/-! ### Assigned values -/

theorem sound_removeFixedValues (hs : s.Wf) (hx : ∀ x ∈ vars, x.Ranges Width.value s)
    (h : KeptApart vars sat s) :
    Sound sat (removeFixedValues vars) s fun _ t => ∀ i a, t.Admits a → Apart s vars i a := by
  unfold removeFixedValues
  refine (Sound.forM_reaches (D := fun (xi : IntVar × Nat) t => ∀ a, t.Admits a →
    Apart s vars xi.2 a) ?_ ?_).imp ?_
  · exact fun _ t u hst htu hdone a ha => hdone a (htu.admits (hst.wf hs) ha)
  · intro xi hxi t hst
    obtain ⟨x, i⟩ := xi
    have hi : vars[i]? = some x := List.mem_zipIdx_iff_getElem?.mp hxi
    have ht := hst.steps.wf hs
    have hxt := fun z hz => (hx z hz).steps hst.steps hs
    -- the inner loop runs in a later store; what it achieves there holds for the first one
    have hback : ∀ {a : Valuation}, Apart t vars i a → Apart s vars i a := fun hapart =>
      hapart.of_steps hst.steps hs
    refine Sound.bind_read ?_
    by_cases hfixed : x.isFixed t = true
    swap
    · rw [if_neg hfixed]
      refine Sound.pure fun a _ => hback fun j z y _ hz _ hfix => absurd ?_ hfixed
      obtain rfl : z = x := Option.some.inj (hz.symm.trans hi)
      exact hfix
    rw [if_pos hfixed]
    refine Sound.bind_read ?_
    refine (Sound.forM_reaches (D := fun (yj : IntVar × Nat) u => yj.2 ≠ i → ∀ a, u.Admits a →
      yj.1.Removable t (x.lowerBound t) → yj.1.exactValue a.int ≠ x.lowerBound t) ?_ ?_).imp ?_
    · exact fun _ u w htu huw hdone hne a ha => hdone hne a (huw.admits (htu.wf ht) ha)
    · intro yj hyj u htu
      obtain ⟨y, j⟩ := yj
      have hj : vars[j]? = some y := List.mem_zipIdx_iff_getElem?.mp hyj
      by_cases hij : i ≠ j
      · simp only [if_pos hij]
        have hu := htu.steps.wf ht
        obtain ⟨hfixed', hlower⟩ :=
          IntVar.fixed_steps htu.steps ht hfixed
        rw [← hlower]
        refine (sound_remove hu (fun z hz => (hxt z hz).steps htu.steps ht)
          (h.reaches (hst.trans htu)) (Ne.symm hij) hi hj hfixed').imp ?_
        exact fun _ _ _ hdone _ a ha hremovable => hdone a ha (hremovable.steps htu.steps ht)
      · simp only [if_neg hij]
        exact Sound.pure fun hne => absurd hne.symm hij
    · intro _ u _ hdone a ha
      refine hback fun j z y hne hz hj _ => ?_
      obtain rfl : z = x := Option.some.inj (hz.symm.trans hi)
      exact hdone (y, j) (List.mem_zipIdx_iff_getElem?.mpr hj) hne a ha
  · intro _ t hst hdone i a ha j x y hne hi
    exact hdone (x, i) (List.mem_zipIdx_iff_getElem?.mpr hi) a ha j x y hne hi

theorem sound_byBounds (hs : s.Wf) (hx : ∀ x ∈ vars, x.Clear s)
    (h : KeptUncrowded vars sat s) (h' : KeptApart vars sat s) :
    Sound sat (byBounds vars) s fun _ t => ∀ a, t.Admits a →
      (∀ low high, low ≤ high → Uncrowded s vars low high a) ∧ ∀ i, Apart s vars i a := by
  have hx' := fun x hmem => (hx x hmem).ranges
  unfold byBounds
  refine Sound.bind_read ?_
  refine Sound.bind_reaches (sound_hallPasses _ hs hx h (Nat.lt_succ_self _)) ?_
  intro _ t hst hpasses
  have ht := hst.steps.wf hs
  have hxt := fun z hz => (hx' z hz).steps hst.steps hs
  refine (sound_removeFixedValues ht hxt (h'.reaches hst)).imp ?_
  intro _ u htu hdone a ha
  exact ⟨hpasses a (htu.admits ht ha), fun i => (hdone i a ha).of_steps hst.steps hs⟩

end FiniteDomain.AllDifferent
