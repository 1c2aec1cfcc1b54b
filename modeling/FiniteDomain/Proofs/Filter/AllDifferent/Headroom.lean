import Mathlib
import FiniteDomain.Proofs.Filter.AllDifferent.Bounds
import FiniteDomain.Proofs.Filter.Sound
import FiniteDomain.Proofs.Filter.Termination
import FiniteDomain.Proofs.Variable.Seamless

/-! # Bounds are moved within the range

    A bound that is moved out of a full interval gets the number next to it, which
    has to be in the range of values.  An interval that reaches an end of the range
    can be full, so it must not be found in the way of a variable that began
    elsewhere.

    Variables without holes do not get there.  Such a variable is raised step by
    step: its lower bound is where it was, or next to a full interval that was
    treated before and that begins no later than the variable did
    (`Swept.lower`).  If this bound lies in the full interval that is treated now,
    both intervals together are full, by counting (`crowd_exchange`), and since
    there is no conflict the variable reaches beyond them (`Swept.covers`).

    A variable with a hole can be raised right into an interval that ends with the
    range; then the number next to it is asked for and does not exist
    (`initial_overflows`). -/

namespace FiniteDomain

open Filtering Program

/-! ### First runs -/

namespace Filter

variable {f : Filter} {s : Store}

theorem runs_require {faults : Fault → Prop} {vs : List VariableId}
    (hknown : ∀ v ∈ vs, s.knows v = true) :
    Runs faults (Filtering.require vs) s fun _ t => t = s := by
  unfold Filtering.require
  induction vs with
  | nil => exact runs_pure rfl
  | cons v rest ih =>
    have hfirst : Runs faults (Filtering.checked (s.require v)) s fun _ t => t = s := by
      rw [require_eq (hknown v List.mem_cons_self)]
      exact runs_pure rfl
    refine Runs.bind (runs_bind_read id hfirst) fun _ t ht => ?_
    subst ht
    exact ih fun w hw => hknown w (List.mem_cons_of_mem v hw)

/-- A program that ends in no fault gives the first run of its filter a result. -/
theorem initial_of_runs (hknown : ∀ v ∈ f.scope, s.knows v = true)
    (h : Runs (fun _ => False) f.program s fun _ _ => True) :
    ∃ pass, Propagator.initial f s = .ok pass := by
  refine RaisesOnly.exists_ok (raises_of_runs (runs_bind_read id ?_))
  refine (runs_require fun v hv => hknown v (consulted_subset f s v hv)).bind fun _ t ht => ?_
  subst ht
  exact h

end Filter

namespace AllDifferent

variable {vars : List IntVar} {s t : Store} {done : List (Int × Int)} {a c low high : Int}
  {x : IntVar}

/-! ### Counting -/

/-- As many variables cannot leave the interval as it has values. -/
def Full (vars : List IntVar) (s : Store) (low high : Int) : Prop :=
  (crowd vars s low high : Int) = high - low + 1

/-- The variables that cannot leave the span of two intervals and do not lie in either of them. -/
def straddlers (vars : List IntVar) (s : Store) (a c low high : Int) : Nat :=
  (boundsOf vars s).countP fun b => decide (a ≤ b.1 ∧ b.1 < low ∧ c < b.2 ∧ b.2 ≤ high)

/-- Two intervals, their span and what they have in common. -/
theorem crowd_exchange (vars : List IntVar) (s : Store) (hlow : a ≤ low) (hhigh : c ≤ high) :
    crowd vars s a high + crowd vars s low c
      = crowd vars s a c + crowd vars s low high + straddlers vars s a c low high := by
  unfold crowd straddlers
  induction boundsOf vars s with
  | nil => rfl
  | cons b rest ih =>
    simp only [List.countP_cons, encloses, Bool.and_eq_true, decide_eq_true_eq] at ih ⊢
    split_ifs <;> omega

theorem straddlers_pos (hx : x ∈ vars) (hbegin : a ≤ x.lowerBound s) (hleft : x.lowerBound s < low)
    (hright : c < x.upperBound s) (hend : x.upperBound s ≤ high) :
    0 < straddlers vars s a c low high :=
  List.countP_pos_iff.mpr ⟨(x.lowerBound s, x.upperBound s), List.mem_map.mpr ⟨x, hx, rfl⟩,
    decide_eq_true ⟨hbegin, hleft, hright, hend⟩⟩

/-! ### The order of the intervals -/

/-- Intervals are treated in ascending order of their lower ends, then of their upper ends. -/
theorem pairwise_candidateIntervals (bounds : List (Int × Int)) :
    (candidateIntervals bounds).Pairwise fun p q => p.1 < q.1 ∨ p.1 = q.1 ∧ p.2 < q.2 := by
  unfold candidateIntervals
  refine List.pairwise_flatMap.mpr ⟨fun low _ => ?_, ?_⟩
  · refine List.pairwise_map.mpr (((pairwise_sortedReps _).1.filter _).imp fun hlt => ?_)
    exact Or.inr ⟨rfl, hlt⟩
  · refine (pairwise_sortedReps _).1.imp fun hlt p hp q hq => ?_
    obtain ⟨_, -, rfl⟩ := List.mem_map.mp hp
    obtain ⟨_, -, rfl⟩ := List.mem_map.mp hq
    exact Or.inl hlt

/-- The list holds the intervals of a pass up to the given one. -/
structure UpTo (vars : List IntVar) (s : Store) (done : List (Int × Int)) (low high : Int) :
    Prop where
  /-- The given one is the last. -/
  last : (low, high) ∈ done
  /-- None begins later. -/
  ordered : ∀ p ∈ done, p.1 ≤ low
  /-- They are intervals of the pass. -/
  candidate : ∀ p ∈ done, p ∈ candidateIntervals (boundsOf vars s)
  /-- None that comes earlier is missing. -/
  earlier : ∀ p ∈ candidateIntervals (boundsOf vars s), p.1 < low ∨ p.1 = low ∧ p.2 ≤ high →
    p ∈ done

theorem upTo_of_split {rest : List (Int × Int)}
    (h : candidateIntervals (boundsOf vars s) = done ++ (low, high) :: rest) :
    UpTo vars s (done ++ [(low, high)]) low high := by
  have hsorted := pairwise_candidateIntervals (boundsOf vars s)
  rw [h, List.pairwise_append, List.pairwise_cons] at hsorted
  -- the intervals come in lexicographic order
  obtain ⟨-, ⟨hlater, -⟩, hbefore⟩ := hsorted
  refine ⟨List.mem_append_right _ List.mem_cons_self, fun p hp => ?_, fun p hp => ?_,
    fun p hp hle => ?_⟩
  · rcases List.mem_append.mp hp with hp | hp
    · have hlt := hbefore p hp (low, high) List.mem_cons_self
      omega
    · rw [List.mem_singleton.mp hp]
  · rw [h]
    rcases List.mem_append.mp hp with hp | hp
    · exact List.mem_append_left _ hp
    · exact List.mem_append_right _ (List.mem_singleton.mp hp ▸ List.mem_cons_self)
  · rw [h] at hp
    rcases List.mem_append.mp hp with hp | hp
    · exact List.mem_append_left _ hp
    · rcases List.mem_cons.mp hp with rfl | hp
      · exact List.mem_append_right _ List.mem_cons_self
      · have hlt := hlater p hp
        omega

/-! ### A pass -/

/-- Different variables of the list look at different variables of the store. -/
def Unshared (vars : List IntVar) : Prop := ∀ x ∈ vars, ∀ y ∈ vars, x.base = y.base → x = y

/-- What a pass that began on a store has come to after some intervals. -/
structure Swept (vars : List IntVar) (s : Store) (done : List (Int × Int)) (t : Store) : Prop where
  /-- Nothing but narrowing has been going on. -/
  steps : s.Steps t
  /-- The intervals were not crowded. -/
  room : ∀ p ∈ done, (crowd vars s p.1 p.2 : Int) ≤ p.2 - p.1 + 1
  /-- A lower bound is where it was, or next to a full interval that begins no later than the
      variable did. -/
  lower : Unshared vars → (∀ x ∈ vars, x.Seamless s) → ∀ x ∈ vars, x.Seamless t
    ∧ (x.lowerBound t = x.lowerBound s
      ∨ ∃ p ∈ done, Full vars s p.1 p.2 ∧ p.1 ≤ x.lowerBound s ∧ x.lowerBound t = p.2 + 1)
  /-- Upper bounds stay until an interval is treated that begins above the least value. -/
  upper : Unshared vars → (∀ x ∈ vars, x.source.Ranges Width.value s) → ∀ x ∈ vars,
    x.upperBound t = x.upperBound s ∨ ∃ p ∈ done, minValue < p.1

theorem swept_refl (vars : List IntVar) (s : Store) : Swept vars s [] s where
  steps := .refl s
  room := fun _ hp => absurd hp List.not_mem_nil
  lower := fun _ hseamless x hx => ⟨hseamless x hx, Or.inl rfl⟩
  upper := fun _ _ _ _ => Or.inl rfl

namespace Swept

/-- One more interval that is not crowded. -/
theorem append (h : Swept vars s done t) (hroom : (crowd vars s low high : Int) ≤ high - low + 1) :
    Swept vars s (done ++ [(low, high)]) t where
  steps := h.steps
  room := by
    intro p hp
    rcases List.mem_append.mp hp with hp | hp
    · exact h.room p hp
    · rw [List.mem_singleton.mp hp]
      exact hroom
  lower := by
    intro hunshared hseamless x hx
    obtain ⟨hxt, hraised⟩ := h.lower hunshared hseamless x hx
    exact ⟨hxt, hraised.imp_right fun ⟨p, hp, hfull⟩ => ⟨p, List.mem_append_left _ hp, hfull⟩⟩
  upper := by
    intro hunshared hsource x hx
    exact (h.upper hunshared hsource x hx).imp_right fun ⟨p, hp, hlt⟩ =>
      ⟨p, List.mem_append_left _ hp, hlt⟩

section

variable (hs : s.Wf) (h : Swept vars s done t) (hd : UpTo vars s done low high)
  (hx : x ∈ vars) (hout : ¬ Inside s low high x)

include hs h hd hx hout

/-- A variable without holes whose lower bound has got into a full interval reaches beyond it, and
    a full interval leads from where the variable began to the end of this one. -/
theorem covers (hfull : Full vars s low high) (hunshared : Unshared vars)
    (hseamless : ∀ x ∈ vars, x.Seamless s) (hlow : low ≤ x.lowerBound t)
    (hhigh : x.lowerBound t ≤ high) :
    high < x.upperBound s
      ∧ ∃ p ∈ done, Full vars s p.1 p.2 ∧ p.1 ≤ x.lowerBound s ∧ p.2 = high := by
  by_cases hbegin : low ≤ x.lowerBound s
  · refine ⟨?_, (low, high), hd.last, hfull, hbegin, rfl⟩
    by_contra hle
    exact hout (inside_iff.mpr ⟨hbegin, Int.not_lt.mp hle⟩)
  -- the bound has been raised, to the number next to an interval that was treated before
  rcases (h.lower hunshared hseamless x hx).2 with hsame | ⟨⟨a, c⟩, hp, hfull', hbegin', hpast⟩
  · omega
  simp only at hfull' hbegin' hpast
  have hupper := Int.le_trans (IntVar.lowerBound_le_upperBound (h.steps.wf hs) x)
    (IntVar.upperBound_mono h.steps hs x)
  obtain ⟨ha, hc, -⟩ := mem_candidateIntervals (hd.candidate _ hp)
  obtain ⟨hlow', hhigh', -⟩ := mem_candidateIntervals (hd.candidate _ hd.last)
  have hspan : (a, high) ∈ done :=
    hd.earlier _ (candidate_of_bounds ha hhigh' (by omega)) (Or.inl (by omega))
  have hroom : (crowd vars s a high : Int) ≤ high - a + 1 := h.room _ hspan
  have hcommon : (crowd vars s low c : Int) ≤ c - low + 1 := by
    by_cases hlc : low ≤ c
    · exact h.room _ (hd.earlier _ (candidate_of_bounds hlow' hc hlc) (Or.inr ⟨rfl, by omega⟩))
    · rw [crowd_eq_zero hs (Int.not_le.mp hlc)]
      omega
  have hexchange : crowd vars s a high + crowd vars s low c
      = crowd vars s a c + crowd vars s low high + straddlers vars s a c low high :=
    crowd_exchange vars s (by omega) (by omega)
  unfold Full at hfull hfull'
  refine ⟨?_, (a, high), hspan, ?_, hbegin', rfl⟩
  · by_contra hle
    have hpos : 0 < straddlers vars s a c low high :=
      straddlers_pos hx hbegin' (Int.not_le.mp hbegin) (by omega) (Int.not_lt.mp hle)
    omega
  · show (crowd vars s a high : Int) = high - a + 1
    omega

/-- Raising a lower bound out of a full interval. -/
theorem raise (hfull : Full vars s low high) (hlow : low ≤ x.lowerBound t)
    (hhigh : x.lowerBound t ≤ high) (hne : (x.tightenLower t (high + 1)).changed? ≠ none) :
    Swept vars s done (x.tightenLower t (high + 1)).store where
  steps := h.steps.trans
    (.of_narrowed (Narrowing.apply_steps (h.steps.wf hs) (.tightenLower x (high + 1))))
  room := h.room
  lower := by
    intro hunshared hseamless y hy
    have ht := h.steps.wf hs
    have hxt := (h.lower hunshared hseamless x hx).1
    obtain ⟨hyt, hraised⟩ := h.lower hunshared hseamless y hy
    -- another variable keeps its bounds; the one that moves passes the interval by one
    by_cases hyx : y.base = x.base
    · obtain rfl := hunshared y hy x hx hyx
      obtain ⟨-, p, hp, hpfull, hbegin, hend⟩ :=
        h.covers hs hd hx hout hfull hunshared hseamless hlow hhigh
      refine ⟨hxt.tightenLower ht hne, Or.inr ⟨p, hp, hpfull, hbegin, ?_⟩⟩
      rw [hxt.lowerBound_tightenLower ht hne (by omega), hend]
    · have hsame := (IntVar.int_tighten (k := high + 1) ht hxt.ranges.source hyx).1
      rw [(IntVar.bounds_of_base hsame).1]
      exact ⟨hyt.of_base hsame, hraised⟩
  upper := by
    intro hunshared hsource y hy
    have ht := h.steps.wf hs
    have hxt := (hsource x hx).steps h.steps hs
    have hsame : y.upperBound (x.tightenLower t (high + 1)).store = y.upperBound t := by
      by_cases hyx : y.base = x.base
      · obtain rfl := hunshared y hy x hx hyx
        exact IntVar.upperBound_tightenLower ht hxt hne
      · exact (IntVar.bounds_of_base (IntVar.int_tighten ht hxt hyx).1).2
    rw [hsame]
    exact h.upper hunshared hsource y hy

omit hs in
/-- While the intervals begin at the least value no upper bound is in their way. -/
theorem least_lt (hunshared : Unshared vars) (hsource : ∀ x ∈ vars, x.source.Ranges Width.value s)
    (hleast : minValue ≤ x.lowerBound s) (hhigh : x.upperBound t ≤ high) : minValue < low := by
  by_contra hle
  rcases h.upper hunshared hsource x hx with hsame | ⟨p, hp, hlt⟩
  · exact hout (inside_iff.mpr ⟨by omega, hsame ▸ hhigh⟩)
  · have hbefore := hd.ordered p hp
    omega

/-- Dropping an upper bound out of a full interval. -/
theorem drop (hlow : minValue < low) (hne : (x.tightenUpper t (low - 1)).changed? ≠ none) :
    Swept vars s done (x.tightenUpper t (low - 1)).store where
  steps := h.steps.trans
    (.of_narrowed (Narrowing.apply_steps (h.steps.wf hs) (.tightenUpper x (low - 1))))
  room := h.room
  lower := by
    intro hunshared hseamless y hy
    have ht := h.steps.wf hs
    have hxt := (h.lower hunshared hseamless x hx).1
    obtain ⟨hyt, hraised⟩ := h.lower hunshared hseamless y hy
    by_cases hyx : y.base = x.base
    · obtain rfl := hunshared y hy x hx hyx
      rw [IntVar.lowerBound_tightenUpper ht hxt.ranges.source hne]
      exact ⟨hxt.tightenUpper ht hne, hraised⟩
    · have hsame := (IntVar.int_tighten (k := low - 1) ht hxt.ranges.source hyx).2
      rw [(IntVar.bounds_of_base hsame).1]
      exact ⟨hyt.of_base hsame, hraised⟩
  upper := fun _ _ _ _ => Or.inr ⟨(low, high), hd.last, hlow⟩

end

end Swept

/-! ### Headroom -/

/-- The conditions under which no bound is moved beyond an end of the range. -/
structure Headroom (vars : List IntVar) (s : Store) : Prop where
  /-- The values below lie in the range. -/
  base : ∀ x ∈ vars, (IntVar.plain x.base).Ranges Width.value s
  /-- No variable reaches the greatest value, or they are independent of each other and have no
      holes. -/
  above : (∀ x ∈ vars, x.upperBound s < maxValue)
    ∨ Unshared vars ∧ ∀ x ∈ vars, x.Seamless s
  /-- No variable reaches the least value, or they are independent of each other. -/
  below : (∀ x ∈ vars, minValue < x.lowerBound s)
    ∨ Unshared vars ∧ ∀ x ∈ vars, x.source.Ranges Width.value s

namespace Headroom

/-- What a pass leaves has headroom again. -/
theorem swept (h : Headroom vars s) (hs : s.Wf) (hst : Swept vars s done t) : Headroom vars t where
  base := fun x hx => (h.base x hx).steps hst.steps hs
  above := by
    refine h.above.imp (fun hless x hx => ?_) fun ⟨hunshared, hseamless⟩ =>
      ⟨hunshared, fun x hx => (hst.lower hunshared hseamless x hx).1⟩
    exact Int.lt_of_le_of_lt (IntVar.upperBound_mono hst.steps hs x) (hless x hx)
  below := by
    refine h.below.imp (fun hless x hx => ?_) fun ⟨hunshared, hsource⟩ =>
      ⟨hunshared, fun x hx => (hsource x hx).steps hst.steps hs⟩
    exact Int.lt_of_lt_of_le (hless x hx) (IntVar.lowerBound_mono hst.steps hs x)

section

variable (h : Headroom vars s) (hs : s.Wf) (hst : Swept vars s done t)
  (hd : UpTo vars s done low high) (hx : x ∈ vars) (hout : ¬ Inside s low high x)

include h hs hst hd hx hout

/-- The number above the interval is in the range. -/
theorem fits_above (hfull : Full vars s low high) (hlow : low ≤ x.lowerBound t)
    (hhigh : x.lowerBound t ≤ high) : Width.value.Fits (high + 1) := by
  obtain ⟨-, hend, -⟩ := mem_candidateIntervals (hd.candidate _ hd.last)
  obtain ⟨_, hb, rfl⟩ := List.mem_map.mp hend
  obtain ⟨y, hy, rfl⟩ := List.mem_map.mp hb
  obtain ⟨hleast, -⟩ := (IntVar.fits_bounds hs (h.base y hy)).2
  have hlt : y.upperBound s < maxValue := by
    rcases h.above with hless | ⟨hunshared, hseamless⟩
    · exact hless y hy
    · obtain ⟨hbeyond, -⟩ := hst.covers hs hd hx hout hfull hunshared hseamless hlow hhigh
      exact Int.lt_of_lt_of_le hbeyond (IntVar.fits_bounds hs (h.base x hx)).2.2
  exact ⟨Int.le_add_one hleast, hlt⟩

/-- The number below the interval is in the range. -/
theorem fits_below (hhigh : x.upperBound t ≤ high) :
    minValue < low ∧ Width.value.Fits (low - 1) := by
  obtain ⟨hbegin, -, -⟩ := mem_candidateIntervals (hd.candidate _ hd.last)
  obtain ⟨_, hb, rfl⟩ := List.mem_map.mp hbegin
  obtain ⟨y, hy, rfl⟩ := List.mem_map.mp hb
  obtain ⟨-, hgreatest⟩ := (IntVar.fits_bounds hs (h.base y hy)).1
  have hlt : minValue < y.lowerBound s := by
    rcases h.below with hless | ⟨hunshared, hsource⟩
    · exact hless y hy
    · exact hst.least_lt hd hx hout hunshared hsource (IntVar.fits_bounds hs (h.base x hx)).1.1 hhigh
  exact ⟨hlt, Int.le_sub_one_of_lt hlt, Int.le_trans (Int.sub_le_self _ (by decide)) hgreatest⟩

end

/-! ### Runs without a fault -/

/-- Moving the bounds of a variable that began outside out of a full interval. -/
theorem runs_moveOut (h : Headroom vars s) (hs : s.Wf) (hd : UpTo vars s done low high)
    (hfull : Full vars s low high) (hx : x ∈ vars) (hout : ¬ Inside s low high x)
    (hst : Swept vars s done t) :
    Runs (fun _ => False) (moveOut x low high) t fun _ => Swept vars s done := by
  refine runs_moveOut_of (fun hin => ?_) (fun raised u hsu hin => ?_) hst
  · have hfits := h.fits_above hs hst hd hx hout hfull hin.1 hin.2
    rw [Width.checked_of_fits hfits]
    exact ⟨.ok _, fun c hc =>
      hst.raise hs hd hx hout hfull hin.1 hin.2 (hc ▸ Option.some_ne_none c)⟩
  · obtain ⟨hlt, hfits⟩ := h.fits_below hs hsu hd hx hout hin.2
    rw [Width.checked_of_fits hfits]
    exact ⟨.ok _, fun c hc => hsu.drop hs hd hx hout hlt (hc ▸ Option.some_ne_none c)⟩

/-- Treating the next interval of the pass. -/
theorem runs_treatInterval (h : Headroom vars s) (hs : s.Wf) {rest : List (Int × Int)}
    (hsplit : candidateIntervals (boundsOf vars s) = done ++ (low, high) :: rest)
    (hst : Swept vars s done t) :
    Runs (fun _ => False) (treatInterval vars (boundsOf vars s) low high) t
      fun _ => Swept vars s (done ++ [(low, high)]) := by
  unfold treatInterval
  simp only
  change Runs _ (if high - low + 1 < (crowd vars s low high : Int) then _
    else if (crowd vars s low high : Int) < high - low + 1 then _ else _) t _
  -- too many variables inside: the pass ends in a conflict, and nothing is computed
  by_cases hover : high - low + 1 < (crowd vars s low high : Int)
  · rw [if_pos hover]
    exact ⟨.ok _, nofun⟩
  rw [if_neg hover]
  have hroom : Swept vars s (done ++ [(low, high)]) t := hst.append (Int.not_lt.mp hover)
  -- room to spare: the interval is left alone
  by_cases hunder : (crowd vars s low high : Int) < high - low + 1
  · rw [if_pos hunder]
    exact runs_pure hroom
  rw [if_neg hunder]
  have hfull : Full vars s low high := by
    unfold Full
    omega
  refine runs_foldlM (fun changed xb hxb u hsu => ?_) hroom
  obtain ⟨x, b⟩ := xb
  obtain ⟨z, hz, heq⟩ := List.mem_map.mp (zip_boundsOf vars s ▸ hxb)
  obtain ⟨rfl, rfl⟩ := Prod.mk.inj heq
  by_cases hinside : Inside s low high z
  · simp only [if_pos hinside]
    exact runs_pure hsu
  · simp only [if_neg hinside]
    exact (h.runs_moveOut hs (upTo_of_split hsplit) hfull hz hinside hsu).bind
      fun _ _ hsv => runs_pure hsv

theorem runs_hallPass (h : Headroom vars s) (hs : s.Wf) :
    Runs (fun _ => False) (hallPass vars) s
      fun _ => Swept vars s (candidateIntervals (boundsOf vars s)) := by
  unfold hallPass
  refine runs_bind_read _ (runs_foldlM_done (fun done interval rest hsplit changed t hst => ?_)
    (swept_refl vars s))
  obtain ⟨low, high⟩ := interval
  exact (h.runs_treatInterval hs hsplit hst).bind fun _ _ hsu => runs_pure hsu

/-- Each pass begins with the headroom that the one before has left. -/
theorem runs_hallPasses (fuel : Nat) (h : Headroom vars s) (hs : s.Wf) (hfuel : s.slack < fuel) :
    Runs (fun _ => False) (hallPasses vars fuel) s fun _ _ => True := by
  induction fuel generalizing s with
  | zero => exact absurd hfuel (Nat.not_lt_zero _)
  | succ fuel ih =>
    rw [hallPasses]
    have hshrinks : Runs (fun _ => True) (hallPass vars) s (Shrinks s) :=
      AllDifferent.runs_hallPass ⟨trivial, trivial⟩ hs vars
    refine ((h.runs_hallPass hs).and hshrinks).bind fun changed t hpass => ?_
    obtain ⟨hst, hsmaller⟩ := hpass
    by_cases hchanged : changed = true
    · rw [if_pos hchanged]
      have hlt := hsmaller.smaller hchanged
      exact ih (h.swept hs hst) (hst.steps.wf hs) (by omega)
    · rw [if_neg hchanged]
      exact runs_pure trivial

theorem runs_byBounds (h : Headroom vars s) (hs : s.Wf) :
    Runs (fun _ => False) (byBounds vars) s fun _ _ => True := by
  unfold byBounds
  refine runs_bind_read _ ((h.runs_hallPasses _ hs (Nat.lt_succ_self _)).bind fun _ t _ => ?_)
  exact (Filter.narrowable_true.removeFixedValues vars).runs trivial

end Headroom

/-! ### The first run -/

/-- The first run of the filter has a result, be it success or refusal, if there is headroom: no
    variable reaches the greatest value or none has holes, and no variable reaches the least value
    or they are independent of each other. -/
theorem initial_of_headroom (hs : s.Reachable)
    (hknown : ∀ x ∈ vars, s.knows (.int x.base) = true) (h : Headroom vars s) :
    ∃ pass, Propagator.initial (Filter.distinctByBounds vars) s = .ok pass := by
  have hscope : ∀ v ∈ (Filter.distinctByBounds vars).scope, s.knows v = true := by
    intro v hv
    obtain ⟨w, hw, rfl⟩ := List.mem_map.mp hv
    obtain ⟨⟨x, i⟩, hmem, rfl⟩ := List.mem_map.mp hw
    exact hknown x (List.mem_of_getElem? (List.mem_zipIdx_iff_getElem?.mp hmem))
  exact Filter.initial_of_runs hscope (h.runs_byBounds hs.traced.wf)

/-- A variable with the greatest value, one with the two greatest values, and one with the three
    least. -/
def brimful : Store :=
  (((Store.empty.addInt (IntegerDomain.bounded maxValue maxValue)).2.addInt
    (IntegerDomain.bounded (maxValue - 1) maxValue)).2.addInt
      (IntegerDomain.bounded minValue (minValue + 2))).2

/-- The first two variables, and the mirror image of the third, which has the three greatest
    values. -/
def brimfulVars : List IntVar :=
  [.plain ⟨0⟩, .plain ⟨1⟩, .view (.plain ⟨2⟩) ⟨-1, -1, AffineMap.neg_one_ne_zero⟩]

/-- The greatest value goes to the first variable and the next one to the second, which leaves the
    third greatest to the mirror image. -/
theorem initial_of_headroom_brimful :
    ∃ pass, Propagator.initial (Filter.distinctByBounds brimfulVars) brimful = .ok pass
      ∧ pass.refusal? = none
      ∧ ∀ x ∈ brimfulVars, x.isFixed pass.store = true ∧ maxValue - 2 ≤ x.lowerBound pass.store := by
  have hs : brimful.Reachable :=
    .addBounded (.addBounded (.addBounded .empty (by decide) (by decide) (by decide))
      (by decide) (by decide) (by decide)) (by decide) (by decide) (by decide)
  have hranges : ∀ y : IntId, y = ⟨0⟩ ∨ y = ⟨1⟩ ∨ y = ⟨2⟩ →
      (IntVar.plain y).Seamless brimful := by
    intro y hy
    have hbounds : Width.value.Fits (brimful.int y).lower ∧ Width.value.Fits (brimful.int y).upper
        ∧ (brimful.int y).isEnumerated = false := by
      rcases hy with rfl | rfl | rfl <;> decide
    obtain ⟨hleast, hgreatest, hbounded⟩ := hbounds
    refine IntVar.seamless_plain hs.traced.wf hbounded fun v hv => ?_
    obtain ⟨hlower, hupper, -⟩ := IntegerDomain.contains_iff.mp hv
    exact ⟨Int.le_trans hleast.1 hlower, Int.le_trans hupper hgreatest.2⟩
  -- the image of the third variable ranges over the same interval
  have hmirror : (IntVar.view (.plain ⟨2⟩) ⟨-1, -1, AffineMap.neg_one_ne_zero⟩).Seamless brimful := by
    have hthird := hranges ⟨2⟩ (Or.inr (Or.inr rfl))
    refine hthird.view hs.traced.wf (Or.inr rfl) fun v hv => ⟨hthird.ranges v hv, ?_⟩
    obtain ⟨hlower, hupper, -⟩ := IntegerDomain.contains_iff.mp hv
    have hleast : (-2147483648 : Int) ≤ v := hlower
    have hgreatest : v ≤ -2147483646 := hupper
    show (-2147483648 : Int) ≤ -1 * v + -1 ∧ -1 * v + -1 ≤ 2147483647
    omega
  have hseamless : ∀ x ∈ brimfulVars, x.Seamless brimful := by
    simp only [brimfulVars, List.forall_mem_cons]
    exact ⟨hranges _ (Or.inl rfl), hranges _ (Or.inr (Or.inl rfl)), hmirror,
      fun _ hnone => absurd hnone List.not_mem_nil⟩
  have hunshared : Unshared brimfulVars := by
    simp only [Unshared, brimfulVars, List.forall_mem_cons]
    decide
  obtain ⟨pass, hpass⟩ := initial_of_headroom hs (by decide)
    ⟨fun x hx => (hseamless x hx).ranges.base, Or.inr ⟨hunshared, hseamless⟩,
      Or.inr ⟨hunshared, fun x hx => (hseamless x hx).ranges.source⟩⟩
  -- that there is a pass is the theorem; what it comes to is computed
  have hrun : (Propagator.initial (Filter.distinctByBounds brimfulVars) brimful).map
      (fun pass => (pass.refusal?, brimfulVars.map fun x =>
        (x.isFixed pass.store, x.lowerBound pass.store)))
      = .ok (none, [(true, maxValue), (true, maxValue - 1), (true, maxValue - 2)]) := by
    cbv
  rw [hpass] at hrun
  obtain ⟨hsuccess, hbounds⟩ := Prod.mk.inj (Except.ok.inj hrun)
  refine ⟨pass, hpass, hsuccess, fun x hx => ?_⟩
  have hmem := List.mem_map_of_mem (f := fun x : IntVar =>
    (x.isFixed pass.store, x.lowerBound pass.store)) hx
  rw [hbounds] at hmem
  simp only [List.mem_cons, Prod.mk.injEq, List.not_mem_nil, or_false] at hmem
  rcases hmem with ⟨hfixed, hlower⟩ | ⟨hfixed, hlower⟩ | ⟨hfixed, hlower⟩
  all_goals exact ⟨hfixed, by omega⟩

/-- The value 1, the values 1 and `maxValue`, and the value `maxValue`. -/
def bridged : Store :=
  (((Store.empty.addInt (IntegerDomain.bounded 1 1)).2.addInt
    (match IntegerDomain.enumerated [1, maxValue] with | .ok d => d | .error _ => default)).2.addInt
      (IntegerDomain.bounded maxValue maxValue)).2

/-- The three variables. -/
def bridgedVars : List IntVar := [.plain ⟨0⟩, .plain ⟨1⟩, .plain ⟨2⟩]

/-- The values 1 and `maxValue` are full intervals, and the second variable is in the way of both
    once it has left the first. -/
theorem hallPass_bridged : (hallPass bridgedVars).run.run bridged = .error .overflow := by
  have hbounds : boundsOf bridgedVars bridged = [(1, 1), (1, maxValue), (maxValue, maxValue)] := by
    decide
  have hintervals : candidateIntervals (boundsOf bridgedVars bridged)
      = [(1, 1), (1, maxValue), (maxValue, maxValue)] := by
    rw [hbounds]
    cbv
  show ((candidateIntervals (boundsOf bridgedVars bridged)).foldlM (fun changed interval => do
    return (← treatInterval bridgedVars (boundsOf bridgedVars bridged) interval.1 interval.2)
      || changed) false : Filtering Bool).run.run bridged = _
  rw [hintervals]
  rfl

/-- The second variable is moved away from the value 1, which gets it from outside into the full
    interval of the greatest value; to move it out of that, the number after the greatest value is
    asked for. -/
theorem initial_overflows :
    bridged.Reachable ∧ (∀ x ∈ bridgedVars, bridged.knows (.int x.base) = true)
      ∧ (∀ x ∈ bridgedVars, x.Ranges Width.value bridged)
      ∧ Propagator.initial (Filter.distinctByBounds bridgedVars) bridged = .error .overflow := by
  have hsorted : ([1, maxValue] : List Int).Pairwise (· < ·) := by decide
  refine ⟨?_, by decide, ?_, ?_⟩
  · exact .addBounded (.addEnumerated (.addBounded .empty (by decide) (by decide) (by decide))
      hsorted rfl) (by decide) (by decide) (by decide)
  · simp only [bridgedVars, List.forall_mem_cons]
    refine ⟨fun v hv => ?_, fun v hv => ?_, fun v hv => ?_, nofun⟩
    all_goals
      obtain ⟨hlower, hupper, -⟩ := IntegerDomain.contains_iff.mp hv
      exact ⟨Int.le_trans (by decide) hlower, Int.le_trans hupper (by decide)⟩
  · -- the fault of the first pass is the fault of the run
    have hpasses : (hallPasses bridgedVars (bridged.slack + 1)).run.run bridged
        = .error .overflow := by
      rw [hallPasses, run_bind, hallPass_bridged]
      rfl
    have hprogram : (byBounds bridgedVars).run.run bridged = .error .overflow := by
      show (hallPasses bridgedVars (bridged.slack + 1) >>= fun _ =>
        removeFixedValues bridgedVars).run.run bridged = _
      rw [run_bind, hpasses]
      rfl
    show ((byBounds bridgedVars).run.run bridged).bind _ = _
    rw [hprogram]
    rfl

end AllDifferent

end FiniteDomain
