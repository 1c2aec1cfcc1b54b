import FiniteDomain.Proofs.Filter.Demand

/-! # Sums are filtered soundly

    A sum of no more terms than a scope has positions stays clear of the ends of
    the 64 bits in which it is computed, so every check of the filter passes.  In
    a valuation that satisfies the inequality no term exceeds its least value by
    more than the room that the least values of all terms leave. -/

namespace FiniteDomain.LinearAtMost

open Filtering FiniteDomain.Filter

variable {terms : List IntVar} {limit : Int} {l : LocalId} {s : Store} {sat : Valuation → Prop}

/-- The bounds that a sum is made of. -/
def Moderate (terms : List IntVar) (bound : IntVar → Int) : Prop :=
  ∀ x ∈ terms, -2147483647 ≤ bound x ∧ bound x ≤ 2147483647

/-- A sum of numbers of limited size. -/
theorem sum_limited {bound : IntVar → Int} {size : Int}
    (h : ∀ x ∈ terms, -size ≤ bound x ∧ bound x ≤ size) :
    -(size * terms.length) ≤ (terms.map bound).sum
      ∧ (terms.map bound).sum ≤ size * terms.length := by
  induction terms with
  | nil => simp
  | cons x rest ih =>
    have hx := h x List.mem_cons_self
    have hrest := ih fun y hy => h y (List.mem_cons_of_mem x hy)
    rw [List.map_cons, List.sum_cons, List.length_cons]
    push_cast
    rw [Int.mul_add, Int.mul_one]
    omega

/-- Sums of numbers of limited size pass every check on the way. -/
theorem sumOf_limited {bound : IntVar → Int} {size : Int}
    (h : ∀ x ∈ terms, -size ≤ bound x ∧ bound x ≤ size)
    (hlength : size * terms.length ≤ 9223372036854775807) :
    sumOf terms bound = .ok (terms.map bound).sum := by
  -- the partial sum leaves room for all terms that are still to come
  have hfold : ∀ {rest : List IntVar} {sum : Int}, (∀ x ∈ rest, -size ≤ bound x ∧ bound x ≤ size) →
      -9223372036854775807 ≤ sum - size * rest.length →
      sum + size * rest.length ≤ 9223372036854775807 →
      rest.foldlM (fun sum x => Width.sum.checked (sum + bound x)) sum
        = (.ok (sum + (rest.map bound).sum) : Except Fault Int) := by
    intro rest
    induction rest with
    | nil =>
      intro sum _ _ _
      rw [List.map_nil, List.sum_nil, Int.add_zero]
      rfl
    | cons x rest ih =>
      intro sum hrest hleast hgreatest
      have hx := hrest x List.mem_cons_self
      have hnonneg : 0 ≤ size * rest.length := Int.mul_nonneg (by omega) (by omega)
      rw [List.length_cons] at hleast hgreatest
      push_cast at hleast hgreatest
      rw [Int.mul_add, Int.mul_one] at hleast hgreatest
      have hfits : Width.sum.Fits (sum + bound x) := by
        constructor <;> simp only [Width.sum] <;> omega
      rw [List.foldlM_cons, Width.checked_of_fits hfits, List.map_cons, List.sum_cons,
        ← Int.add_assoc]
      exact ih (fun y hy => hrest y (List.mem_cons_of_mem x hy)) (by omega) (by omega)
  have hall : sumOf terms bound = .ok (0 + (terms.map bound).sum) :=
    hfold h (by omega) (by omega)
  rw [Int.zero_add] at hall
  exact hall

theorem sum_moderate {bound : IntVar → Int} (h : Moderate terms bound) :
    -(2147483647 * terms.length : Int) ≤ (terms.map bound).sum
      ∧ (terms.map bound).sum ≤ 2147483647 * terms.length :=
  sum_limited h

theorem sumOf_eq {bound : IntVar → Int} (h : Moderate terms bound)
    (hlength : terms.length ≤ 4294967296) :
    sumOf terms bound = .ok (terms.map bound).sum :=
  sumOf_limited h (by omega)

theorem moderate_lowerBound (hs : s.Wf) (hx : ∀ x ∈ terms, x.Ranges Width.interior s) :
    Moderate terms (·.lowerBound s) := by
  intro x hmem
  obtain ⟨hleast, hgreatest⟩ := (hx x hmem).fits
    (IntVar.takes_lowerBound hs ((hx x hmem).mono fun _ => Width.fits_of_interior))
  simp only [Width.interior, minValue, maxValue, Width.value] at hleast hgreatest
  constructor <;> simp only <;> omega

theorem moderate_upperBound (hs : s.Wf) (hx : ∀ x ∈ terms, x.Ranges Width.interior s) :
    Moderate terms (·.upperBound s) := by
  intro x hmem
  obtain ⟨hleast, hgreatest⟩ := (hx x hmem).fits
    (IntVar.takes_upperBound hs ((hx x hmem).mono fun _ => Width.fits_of_interior))
  simp only [Width.interior, minValue, maxValue, Width.value] at hleast hgreatest
  constructor <;> simp only <;> omega

/-- A bound that a term gets lies between its bounds, so it is the same when it is wrapped. -/
theorem wrap_bound {x : IntVar} {room : Int} (hs : s.Wf)
    (hbase : (IntVar.plain x.base).Ranges Width.value s) (hroom : 0 ≤ room)
    (hlt : x.lowerBound s + room < x.upperBound s) :
    Width.value.wrap (x.lowerBound s + room) = x.lowerBound s + room := by
  obtain ⟨hlower, hupper⟩ := IntVar.fits_bounds hs hbase
  apply Width.wrap_of_fits
  constructor
  · exact Int.le_trans hlower.1 (by omega)
  · exact Int.le_trans (Int.le_of_lt hlt) hupper.2

/-- What is left of a term exceeds its least value by no more than the room. -/
theorem sound_restrict {x : IntVar} {room : Int} (hs : s.Wf) (hx : x.Ranges Width.value s)
    (hroom : 0 ≤ room) (hfits : Width.sum.Fits (x.lowerBound s + room))
    (h : ∀ a, s.Admits a → sat a → x.exactValue a.int ≤ x.lowerBound s + room) :
    Sound sat (restrict room x) s fun _ t =>
      ∀ a, t.Admits a → x.exactValue a.int ≤ x.lowerBound t + room := by
  unfold restrict
  refine Sound.bind_read ?_
  refine Sound.bind_checked (Width.checked_of_fits hfits) ?_
  refine Sound.bind_read ?_
  by_cases hbound : x.lowerBound s + room < x.upperBound s
  · rw [if_pos hbound, wrap_bound hs hx.base hroom hbound]
    have hkeeps := IntVar.tightenUpper_keeps hs hx.source (x.lowerBound s + room)
    refine (Sound.narrowing_exactly hkeeps h).imp fun _ t hst hexactly a ha => ?_
    have hle := hexactly a ha
    have hmove := IntVar.lowerBound_mono hst hs x
    omega
  · rw [if_neg hbound]
    refine Sound.pure fun a ha => ?_
    have hle := IntVar.le_upperBound hs hx (IntVar.takes_exactValue ha x)
    omega

theorem sound (hs : s.Wf) (hr : (Filter.sumAtMost terms limit).Ready s)
    (h : (Filter.sumAtMost terms limit).Granted sat s) :
    Sound sat (filter terms limit) s fun _ t => Done (.sumAtMost terms limit) l s t := by
  have hvalue : ∀ x ∈ terms, x.Ranges Width.value s := fun x hx => hr.values hx
  have hranges : ∀ x ∈ terms, x.Ranges Width.interior s := hr.ranges
  obtain ⟨hlength, hlimit⟩ := hr.sums terms limit rfl
  have hmoderate := moderate_lowerBound hs hranges
  have hsums := sum_moderate hmoderate
  unfold filter
  refine Sound.bind_get ?_
  refine Sound.bind_checked (sumOf_eq hmoderate hlength) ?_
  generalize hsum : (terms.map (·.lowerBound s)).sum = least at hsums ⊢
  refine Sound.bind_checked (Width.checked_of_fits (n := limit - least) ?_) ?_
  · constructor <;> simp only [Width.sum] <;> omega
  by_cases hroom : limit - least < 0
  · simp only [hroom, if_true]
    refine Sound.bind_refuse fun a ha hsat => ?_
    have hle : (terms.map (·.lowerBound s)).sum ≤ limit := (h.here ha hsat l).1
    omega
  simp only [hroom, if_false]
  -- the room left over is computed once; it stays an upper bound while the terms are treated
  refine (Sound.forM_reaches (D := fun x t => x ∈ terms → ∀ a, t.Admits a →
    x.exactValue a.int ≤ x.lowerBound t + (limit - least)) ?_ ?_).imp ?_
  · -- a term that is treated stays so, since its least value only rises
    intro x t u hst htu hdone hx a ha
    have hle := hdone hx a (htu.admits (hst.wf hs) ha)
    have hmove := IntVar.lowerBound_mono htu (hst.wf hs) x
    omega
  · intro x hx t hst
    have ht := hst.steps.wf hs
    have hxt := (hvalue x hx).steps hst.steps hs
    have hmove := IntVar.lowerBound_mono hst.steps hs x
    obtain ⟨hlow, hhigh⟩ :=
      ((hranges x hx).steps hst.steps hs).fits (IntVar.takes_lowerBound ht hxt)
    simp only [Width.interior, minValue, maxValue, Width.value] at hlow hhigh
    have hfits : Width.sum.Fits (x.lowerBound t + (limit - least)) := by
      constructor <;> simp only [Width.sum] <;> omega
    refine (sound_restrict ht hxt (by omega) hfits fun a ha hsat => ?_).imp
      fun _ _ _ hdone _ => hdone
    have hgrant : x.exactValue a.int + (terms.map (·.lowerBound s)).sum
        ≤ x.lowerBound s + limit := (h.here (hst.steps.admits hs ha) hsat l).2 x hx
    omega
  · intro _ t hst hdone
    show (terms.map (·.lowerBound s)).sum ≤ limit ∧ _
    rw [hsum]
    refine ⟨by omega, fun a ha x hx => ?_⟩
    have hle := hdone x hx hx a ha
    omega

theorem entailment_eq (limit : Int) (hs : s.Wf) (hx : ∀ x ∈ terms, x.Ranges Width.interior s)
    (hlength : terms.length ≤ 4294967296) :
    entailment terms limit s
      = .ok (if (terms.map (·.upperBound s)).sum ≤ limit then .holds
          else if limit < (terms.map (·.lowerBound s)).sum then .fails else .undecided) := by
  unfold entailment
  rw [sumOf_eq (moderate_upperBound hs hx) hlength, sumOf_eq (moderate_lowerBound hs hx) hlength]
  simp only [bind, Except.bind, pure, Except.pure]
  split
  · rfl
  split <;> rfl

theorem judges (limit : Int) (hs : s.Wf) (hx : ∀ x ∈ terms, x.Ranges Width.interior s)
    (hlength : terms.length ≤ 4294967296) :
    ∃ e, entailment terms limit s = .ok e
      ∧ Judges (fun v => (terms.map (·.exactValue v.int)).sum ≤ limit) s
          (∀ x ∈ terms, x.isFixed s = true) e := by
  have hvalues : ∀ x ∈ terms, x.Ranges Width.value s := fun x hmem =>
    (hx x hmem).mono fun _ => Width.fits_of_interior
  refine ⟨_, entailment_eq limit hs hx hlength, ?_⟩
  refine Judges.ite (fun hle v hv => ?_) (fun hlt v hv hsum => ?_) fun hfixed hgt => ?_
  · have hgreatest : ∀ x ∈ terms, x.exactValue v.int ≤ x.upperBound s := fun x hmem =>
      IntVar.le_upperBound hs (hvalues x hmem) (IntVar.takes_exactValue hv x)
    exact Int.le_trans (List.sum_le_sum hgreatest) hle
  · have hleast : ∀ x ∈ terms, x.lowerBound s ≤ x.exactValue v.int := fun x hmem =>
      IntVar.lowerBound_le hs (hvalues x hmem) (IntVar.takes_exactValue hv x)
    have hle := Int.le_trans (List.sum_le_sum hleast) hsum
    omega
  · have hsame : terms.map (·.lowerBound s) = terms.map (·.upperBound s) :=
      List.map_congr_left fun x hmem => beq_iff_eq.mp (hfixed x hmem)
    rw [hsame]
    exact Int.not_le.mp hgt

end FiniteDomain.LinearAtMost
