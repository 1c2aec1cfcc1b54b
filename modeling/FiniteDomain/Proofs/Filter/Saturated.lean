import FiniteDomain.Proofs.Filter.Lossless
import FiniteDomain.Proofs.Variable.Saturation

/-! # Sums of what views show

    The filter for sums reads its terms, and what it reads is saturated.  So it
    works on the sum of what the terms show, whatever their images are: it loses
    no valuation in which that sum is at most the limit, it refuses only if there
    is none (`call_saturated`), it succeeds only if the least sum is at most the
    limit (`least_le_of_call`), and it judges this sum right
    (`entailment_saturated`).  Where all images lie in the range, this is the sum
    of the values.

    The room that a term gets is between its bounds whenever it is used, which is
    where a saturated image compares with a bound as the exact one does. -/

namespace FiniteDomain

namespace LinearAtMost

open Filtering

variable {terms : List IntVar} {limit : Int} {s : Store}

/-- The sum of what the terms show. -/
def shownSum (terms : List IntVar) (a : Valuation) : Int :=
  (terms.map fun x => x.shown (a.int x.base)).sum

/-- The variables below the terms have values of the range. -/
def Based (terms : List IntVar) (s : Store) : Prop :=
  ∀ x ∈ terms, (IntVar.plain x.base).Ranges Width.value s

theorem Based.narrower {t : Store} (h : Based terms s) (hst : s.Narrower t) : Based terms t :=
  fun x hx => (h x hx).narrower hst

/-- So the bounds of the terms are of limited size. -/
theorem Based.limited (h : Based terms s) (hs : s.Wf) :
    (∀ x ∈ terms, -2147483648 ≤ x.lowerBound s ∧ x.lowerBound s ≤ 2147483648)
      ∧ ∀ x ∈ terms, -2147483648 ≤ x.upperBound s ∧ x.upperBound s ≤ 2147483648 := by
  have hsize : ∀ {n : Int}, Width.value.Fits n → -2147483648 ≤ n ∧ n ≤ 2147483648 := by
    intro n ⟨hleast, hgreatest⟩
    simp only [Width.value] at hleast hgreatest
    omega
  exact ⟨fun x hx => hsize (IntVar.fits_bounds hs (h x hx)).1,
    fun x hx => hsize (IntVar.fits_bounds hs (h x hx)).2⟩

/-- The faults that a run may end in: a variable does not exist, or there are more terms, or there
    is a greater limit, than sums of 64 bits have room for. -/
def Excused (terms : List IntVar) (limit : Int) (s : Store) : Fault → Prop
  | .indexOutOfBounds => ∃ x ∈ terms, s.knows (.int x.base) = false
  | .overflow => 4294967294 < terms.length ∨ limit < -2147483648 ∨ 2147483648 < limit
  | _ => False

/-! ### Sums -/

/-- A sum that passes all checks is the sum. -/
theorem eq_of_sumOf {bound : IntVar → Int} {n : Int} (h : sumOf terms bound = .ok n) :
    (terms.map bound).sum = n := by
  have hfold : ∀ {rest : List IntVar} {sum : Int},
      rest.foldlM (fun sum x => Width.sum.checked (sum + bound x)) sum
        = (.ok n : Except Fault Int) → sum + (rest.map bound).sum = n := by
    intro rest
    induction rest with
    | nil =>
      intro sum hsum
      rw [List.map_nil, List.sum_nil, Int.add_zero]
      exact Except.ok.inj hsum
    | cons x rest ih =>
      intro sum hsum
      rw [List.foldlM_cons] at hsum
      cases hnext : Width.sum.checked (sum + bound x) with
      | error f =>
        rw [hnext] at hsum
        cases hsum
      | ok next =>
        rw [hnext] at hsum
        rw [List.map_cons, List.sum_cons, ← Int.add_assoc, Width.eq_of_checked hnext]
        exact ih hsum
  have hall := hfold h
  rwa [Int.zero_add] at hall

theorem raises_sumOf_fits {bound : IntVar → Int} (h : ∀ x ∈ terms, Width.value.Fits (bound x)) :
    RaisesOnly (Excused terms limit s) (sumOf terms bound) := by
  by_cases hlength : 4294967294 < terms.length
  · exact raises_sumOf (Or.inl hlength) _ _
  · have hlimited : ∀ x ∈ terms, -2147483648 ≤ bound x ∧ bound x ≤ 2147483648 := by
      intro x hx
      obtain ⟨hleast, hgreatest⟩ := h x hx
      simp only [Width.value] at hleast hgreatest
      omega
    rw [sumOf_limited hlimited (by omega)]
    exact .ok _

/-! ### Runs -/

/-- What a term shows is kept if it exceeds the least value by no more than the room. -/
theorem sound_restrict_shown {faults : Fault → Prop} {sat : Valuation → Prop} {x : IntVar}
    {room : Int} (hs : s.Wf) (hbase : (IntVar.plain x.base).Ranges Width.value s)
    (hroom : 0 ≤ room) (hraises : RaisesOnly faults (Width.sum.checked (x.lowerBound s + room)))
    (h : ∀ a, s.Admits a → sat a → x.shown (a.int x.base) ≤ x.lowerBound s + room) :
    SoundUpTo faults sat (restrict room x) s fun _ _ => True := by
  unfold restrict
  refine SoundUpTo.bind_read (SoundUpTo.bind_checked hraises fun bound hbound => ?_)
  obtain rfl := Width.eq_of_checked hbound
  refine SoundUpTo.bind_read (Or.inr ?_)
  by_cases hlt : x.lowerBound s + room < x.upperBound s
  · rw [if_pos hlt, wrap_bound hs hbase hroom hlt]
    have hleast : minValue ≤ x.lowerBound s := (IntVar.fits_bounds hs hbase).1.1
    have hkeeps := IntVar.tightenUpper_keeps_shown hs hbase (by omega) hlt
    exact (Sound.narrowing_exactly hkeeps h).imp fun _ _ _ _ => trivial
  · rw [if_neg hlt]
    exact Sound.pure trivial

/-- A run is right for the sum of what the terms show. -/
theorem sound_saturated (hs : s.Wf) (hbase : Based terms s) :
    SoundUpTo (Excused terms limit s) (fun a => shownSum terms a ≤ limit) (filter terms limit) s
      fun _ _ => True := by
  have hlower : ∀ x ∈ terms, Width.value.Fits (x.lowerBound s) := fun x hx =>
    (IntVar.fits_bounds hs (hbase x hx)).1
  have hsums := sum_limited (hbase.limited hs).1
  have hraises : ∀ n, (terms.length ≤ 4294967294 → -2147483648 ≤ limit → limit ≤ 2147483648 →
      Width.sum.Fits n) → RaisesOnly (Excused terms limit s) (Width.sum.checked n) := by
    intro n hn
    by_cases hover : 4294967294 < terms.length ∨ limit < -2147483648 ∨ 2147483648 < limit
    · exact Width.sum.raises_checked hover n
    · rw [Width.checked_of_fits (hn (by omega) (by omega) (by omega))]
      exact .ok n
  unfold filter
  refine SoundUpTo.bind_get (SoundUpTo.bind_checked (raises_sumOf_fits hlower) fun least hleast => ?_)
  obtain rfl := eq_of_sumOf hleast
  generalize hsum : (terms.map (·.lowerBound s)).sum = least at hsums ⊢
  refine SoundUpTo.bind_checked (hraises (limit - least) ?_) fun room hroom => ?_
  · intro hlength hlow hhigh
    constructor <;> simp only [Width.sum] <;> omega
  obtain rfl := Width.eq_of_checked hroom
  -- what a valuation shows exceeds the least values by no more than the room in all
  have hshown : ∀ a, s.Admits a → least ≤ shownSum terms a ∧ ∀ x ∈ terms,
      x.shown (a.int x.base) - x.lowerBound s ≤ shownSum terms a - least := by
    intro a ha
    have hleast : ∀ x ∈ terms, x.lowerBound s ≤ x.shown (a.int x.base) := fun x _ =>
      (x.shown_between (ha.int x.base)).1
    rw [← hsum]
    exact ⟨List.sum_le_sum hleast, fun x hx => sub_le_sum_sub hleast hx⟩
  by_cases hnegative : limit - least < 0
  · simp only [hnegative, if_true]
    refine Or.inr (Sound.bind_refuse fun a ha hsat => ?_)
    have hle := (hshown a ha).1
    omega
  simp only [hnegative, if_false]
  refine SoundUpTo.forM fun x hx t hst => ?_
  have ht := hst.wf hs
  have hbase' := (hbase x hx).steps hst hs
  obtain ⟨hfits, -⟩ := IntVar.fits_bounds ht hbase'
  have hmove := IntVar.lowerBound_mono hst hs x
  refine sound_restrict_shown ht hbase' (by omega) (hraises _ ?_) fun a ha hsat => ?_
  · intro hlength hlow hhigh
    obtain ⟨hleast, hgreatest⟩ := hfits
    simp only [Width.value] at hleast hgreatest
    constructor <;> simp only [Width.sum] <;> omega
  · have hle := (hshown a (hst.admits hs ha)).2 x hx
    omega

/-- A run that succeeds has computed a room that is not negative, and every term has been treated. -/
theorem accepted_cases {t : Store} (hrun : (filter terms limit).runOn s = .ok (.ok (), t)) :
    ∃ least room, sumOf terms (·.lowerBound s) = .ok least
      ∧ Width.sum.checked (limit - least) = .ok room ∧ 0 ≤ room
      ∧ (terms.forM (restrict room)).runOn s = .ok (.ok (), t) := by
  unfold filter at hrun
  change (checked (sumOf terms (·.lowerBound s)) >>= _).runOn s = _ at hrun
  cases hleast : sumOf terms (·.lowerBound s) with
  | error e =>
    rw [hleast] at hrun
    cases hrun
  | ok least =>
    rw [hleast] at hrun
    change (checked (Width.sum.checked (limit - least)) >>= _).runOn s = _ at hrun
    cases hroom : Width.sum.checked (limit - least) with
    | error e =>
      rw [hroom] at hrun
      cases hrun
    | ok room =>
      rw [hroom] at hrun
      change (if room < 0 then _ else _ : Filtering Unit).runOn s = _ at hrun
      split at hrun
      next => cases hrun
      next hnonneg => exact ⟨least, room, rfl, hroom, Int.not_lt.mp hnonneg, hrun⟩

/-- A run that succeeds has found that the least sum is at most the limit. -/
theorem least_le_of_runOn {t : Store} (hrun : (filter terms limit).runOn s = .ok (.ok (), t)) :
    (terms.map (·.lowerBound s)).sum ≤ limit := by
  obtain ⟨least, room, hleast, hroom, hnonneg, -⟩ := accepted_cases hrun
  rw [eq_of_sumOf hleast]
  have hcomputed := Width.eq_of_checked hroom
  omega

theorem entailment_saturated {e : Entailment} (h : entailment terms limit s = .ok e) :
    (e = .holds → (terms.map (·.upperBound s)).sum ≤ limit)
      ∧ (e = .fails → limit < (terms.map (·.lowerBound s)).sum) := by
  unfold entailment at h
  -- the least sum is computed only if the greatest one exceeds the limit
  cases hgreatest : sumOf terms (·.upperBound s) with
  | error f =>
    rw [hgreatest] at h
    cases h
  | ok greatest =>
    rw [hgreatest] at h
    rw [eq_of_sumOf hgreatest]
    simp only [bind, Except.bind] at h
    split at h
    next hle =>
      cases h
      refine ⟨fun _ => hle, fun hfails => ?_⟩
      cases hfails
    next =>
      cases hleast : sumOf terms (·.lowerBound s) with
      | error f =>
        rw [hleast] at h
        cases h
      | ok least =>
        rw [hleast] at h
        rw [eq_of_sumOf hleast]
        simp only at h
        split at h
        next hlt =>
          cases h
          refine ⟨fun hholds => ?_, fun _ => hlt⟩
          cases hholds
        next =>
          cases h
          constructor
          · intro hholds
            cases hholds
          · intro hfails
            cases hfails

end LinearAtMost

/-! ### Calls -/

namespace Filter

open Filtering LinearAtMost

variable {f : Filter} {s : Store} {faults : Fault → Prop} {sat : Valuation → Prop}
  {terms : List IntVar} {limit : Int}

/-- Looking variables up changes nothing, unless one of them does not exist. -/
theorem soundUpTo_require {vs : List VariableId}
    (hmissing : ∀ v ∈ vs, s.knows v = false → faults .indexOutOfBounds) :
    SoundUpTo faults sat (Filtering.require vs) s fun _ t => t = s := by
  induction vs with
  | nil => exact Or.inr (Sound.pure rfl)
  | cons v rest ih =>
    have hfirst : RaisesOnly faults (s.require v) := by
      unfold Store.require
      cases hknown : s.knows v with
      | true => exact .ok ()
      | false => exact .error (hmissing v List.mem_cons_self hknown)
    have hone : SoundUpTo faults sat (do
        let s ← get
        Filtering.checked (s.require v)) s fun _ t => t = s :=
      SoundUpTo.bind_get (SoundUpTo.checked hfirst fun _ _ => rfl)
    refine hone.bind fun _ t _ ht => ?_
    rw [ht]
    exact ih fun w hw => hmissing w (List.mem_cons_of_mem v hw)

theorem soundUpTo_guarded {program : Filtering Unit} {post : Unit → Store → Prop}
    (hmissing : ∀ v ∈ f.scope, s.knows v = false → faults .indexOutOfBounds)
    (h : SoundUpTo faults sat program s post) :
    SoundUpTo faults sat (f.guarded program) s post := by
  refine SoundUpTo.bind_get ((soundUpTo_require fun v hv =>
    hmissing v (consulted_subset f s v hv)).bind fun _ t _ ht => ?_)
  rw [ht]
  exact h

theorem ofFilter_upTo {program : Filtering Unit} {post : Store → Prop}
    (h : SoundUpTo faults sat program s fun _ t => post t) :
    (∃ e, Pass.ofFilter f program s = .error e ∧ faults e)
      ∨ ∃ pass, Pass.ofFilter f program s = .ok pass ∧ f.Ran sat s post pass := by
  rcases h with ⟨e, hrun, he⟩ | hsound
  · left
    refine ⟨e, ?_, he⟩
    unfold Pass.ofFilter
    rw [hrun]
    rfl
  · exact Or.inr (ran_ofFilter hsound)

theorem mem_scope_sumAtMost {v : VariableId} (hv : v ∈ (Filter.sumAtMost terms limit).scope) :
    ∃ x ∈ terms, v = .int x.base := by
  obtain ⟨w, hw, rfl⟩ := List.mem_map.mp hv
  obtain ⟨⟨x, i⟩, hx, rfl⟩ := List.mem_map.mp hw
  exact ⟨x, List.mem_of_getElem? (List.mk_mem_zipIdx_iff_getElem?.mp hx), rfl⟩

/-- A call of the filter for sums, at whatever images: unless it is excused, it answers; no
    valuation in which the terms show at most the limit is lost, and there is none if it refuses. -/
theorem call_saturated (hs : s.Wf) (hbase : Based terms s) (c : Call) :
    (∃ e, c.run (.sumAtMost terms limit) s = .error e ∧ Excused terms limit s e)
      ∨ ∃ pass, c.run (.sumAtMost terms limit) s = .ok pass
        ∧ (Filter.sumAtMost terms limit).Ran (fun a => shownSum terms a ≤ limit) s
          (fun _ => True) pass := by
  have hmissing : ∀ v ∈ (Filter.sumAtMost terms limit).scope, s.knows v = false →
      Excused terms limit s .indexOutOfBounds := by
    intro v hv hunknown
    obtain ⟨x, hx, rfl⟩ := mem_scope_sumAtMost hv
    exact ⟨x, hx, hunknown⟩
  have hguarded := soundUpTo_guarded hmissing (sound_saturated hs hbase)
  -- every call of this filter is a run over its whole scope
  cases c with
  | initial => exact ofFilter_upTo hguarded
  | propagate l e => exact ofFilter_upTo hguarded

/-- A pass that succeeds is a success of the program, which has run on the store as it was. -/
theorem runOn_of_ofFilter {program : Filtering Unit} {pass : Pass Filter}
    (hrun : Pass.ofFilter f (f.guarded program) s = .ok pass) (hsuccess : pass.refusal? = none) :
    ∃ t, program.runOn s = .ok (.ok (), t) := by
  -- looking the variables up leaves the store as it is, if it does not end in a fault
  have hlookup : SoundUpTo (fun _ => True) (fun _ => True) (Filtering.require (f.consulted s)) s
      fun _ t => t = s := soundUpTo_require fun _ _ _ => trivial
  have hguarded : (f.guarded program).runOn s
      = (Filtering.require (f.consulted s) >>= fun _ => program).runOn s := rfl
  unfold Pass.ofFilter at hrun
  rw [hguarded, runOn_bind] at hrun
  simp only [bind, Except.bind] at hrun
  rcases hlookup with ⟨e, hfault, -⟩ | ⟨r, t, hfound, hverdict⟩
  · rw [hfault] at hrun
    cases hrun
  rw [hfound] at hrun
  cases r with
  | error refusal =>
    cases hrun
    cases hsuccess
  | ok u =>
    obtain rfl := hverdict.accepted u rfl
    cases hprogram : program.runOn t with
    | error e =>
      simp only [hprogram] at hrun
      cases hrun
    | ok out =>
      obtain ⟨verdict, last⟩ := out
      simp only [hprogram] at hrun
      cases verdict with
      | error refusal =>
        cases hrun
        cases hsuccess
      | ok v => exact ⟨last, rfl⟩

/-- A call that succeeds has found that the least sum is at most the limit. -/
theorem least_le_of_call {c : Call} {pass : Pass Filter}
    (hrun : c.run (.sumAtMost terms limit) s = .ok pass) (hsuccess : pass.refusal? = none) :
    (terms.map (·.lowerBound s)).sum ≤ limit := by
  have hpass : Pass.ofFilter (Filter.sumAtMost terms limit)
      ((Filter.sumAtMost terms limit).guarded (LinearAtMost.filter terms limit)) s = .ok pass := by
    cases c with
    | initial => exact hrun
    | propagate l e => exact hrun
  obtain ⟨t, hprogram⟩ := runOn_of_ofFilter hpass hsuccess
  exact least_le_of_runOn hprogram

end Filter

end FiniteDomain
