import FiniteDomain.Proofs.Filter.Saturated
import FiniteDomain.Proofs.Filter.Termination
import FiniteDomain.Proofs.Variable.Arithmetic

/-! # The room of a sum

    The room is computed once, from the least values before the loop.  When a term
    has its turn its bounds are read anew, and by then earlier turns may have
    raised its least value, if they were about the same variable.

    The turns before leave a store that comes from the one before the loop by
    narrowings (`Turn.steps`).  There every bound still has the width of values,
    and the room is not negative; that is all a turn needs (`exactTurn_of_room`).
    A new bound is stored only if it is less than the greatest value, and it is
    not less than the least one, so it lies between numbers of the width in which
    it is stored, and the least value stays.  For fewer than 2 ^ 31 terms no sum
    leaves its width either, in a run or in a judgement (`exact_sums`).

    A turn that is refused is one of a view (`ExactTurn.refused`).  So without
    views a run is refused for the sum of the least values alone
    (`runOn_filter_plain`). -/

namespace FiniteDomain

namespace LinearAtMost

open Filtering Program

variable {terms : List IntVar} {limit room : Int} {x : IntVar} {s t : Store}

/-! ### Turns -/

/-- The term has its turn in a run on `s`: the room has been computed and is not negative, and the
    terms before it have been treated, which has led to the store `t`. -/
structure Turn (terms : List IntVar) (limit : Int) (s : Store) (room : Int) (x : IntVar)
    (t : Store) : Prop where
  /-- The room is what the least values leave. -/
  computed : (sumOf terms (·.lowerBound s) >>= fun least => Width.sum.checked (limit - least))
    = .ok room
  /-- The sum of the least values is at most the limit. -/
  passed : 0 ≤ room
  /-- The terms before have been treated. -/
  earlier : ∃ before after, terms = before ++ x :: after
    ∧ (before.forM (restrict room)).runOn s = .ok (.ok (), t)

/-- A turn computes what it should.  Its new bound is the least value of the term plus the room, and
    it is stored if it is less than the greatest value. -/
structure ExactTurn (room : Int) (x : IntVar) (t : Store) : Prop where
  /-- The new bound fits in the width of sums. -/
  sum : Width.sum.Fits (x.lowerBound t + room)
  /-- If it is stored, it lies between the bounds of the term. -/
  between : x.lowerBound t + room < x.upperBound t →
    x.lowerBound t ≤ x.lowerBound t + room ∧ x.lowerBound t + room ≤ x.upperBound t
  /-- If it is stored, it is stored as it is. -/
  stored : x.lowerBound t + room < x.upperBound t →
    Width.value.wrap (x.lowerBound t + room) = x.lowerBound t + room
  /-- If it is stored for a variable of the store itself, the domain shrinks and is not empty. -/
  shrinks : ∀ y, x = .plain y → x.lowerBound t + room < x.upperBound t →
    (x.tightenUpper t (Width.value.wrap (x.lowerBound t + room))).changed? = some true
  /-- What views compute on the way, to read the bounds and to store the new one, fits. -/
  views : x.Slim → x.ReadsExactly t
    ∧ x.NarrowsExactly (Width.value.wrap (x.lowerBound t + room))

/-! ### One turn -/

/-- A bound from the least value on leaves something of a domain. -/
theorem changed_tightenUpper {y : IntId} {k : Int} (hlow : (t.int y).lower ≤ k)
    (hhigh : k < (t.int y).upper) : (t.tightenUpper y k).changed? = some true := by
  unfold Store.tightenUpper IntegerDomain.tightenUpper
  rw [if_neg (not_le.mpr hhigh), if_neg (not_lt.mpr hlow)]
  rfl

/-- A turn computes what it should at every store, as long as the room is not negative and a value
    can be added to it. -/
theorem exactTurn_of_room (ht : t.Wf) (hbase : (IntVar.plain x.base).Ranges Width.value t)
    (hroom : 0 ≤ room) (hsize : room ≤ 9223372034707292160) : ExactTurn room x t := by
  obtain ⟨hlower, -⟩ := IntVar.fits_bounds ht hbase
  have hstored : x.lowerBound t + room < x.upperBound t →
      Width.value.wrap (x.lowerBound t + room) = x.lowerBound t + room :=
    wrap_bound ht hbase hroom
  -- the least value is the one at the turn; the room may be from before, if only it is no less than 0
  refine ⟨?_, fun hlt => ⟨by omega, Int.le_of_lt hlt⟩, hstored, ?_, fun hslim => ⟨?_, ?_⟩⟩
  · obtain ⟨hleast, hgreatest⟩ := hlower
    simp only [Width.value] at hleast hgreatest
    constructor <;> simp only [Width.sum] <;> omega
  · rintro y rfl hlt
    rw [hstored hlt]
    change (t.int y).lower + room < (t.int y).upper at hlt
    exact changed_tightenUpper (Int.le_add_of_nonneg_right hroom) hlt
  · exact IntVar.readsExactly ht hbase hslim
  · exact IntVar.narrowsExactly hslim (Width.fits_wrap _ (by decide))

/-! ### The turns before -/

/-- A turn narrows the store, whatever the room is. -/
theorem upholds_restrict (hs : s.Wf) (room : Int) (x : IntVar) :
    Upholds (fun _ => True) s.Steps (restrict room x) :=
  (narrowable_steps hs).restrict ⟨trivial, trivial⟩ room x

/-- The store has been narrowed since the room was computed. -/
theorem Turn.steps (hs : s.Wf) (h : Turn terms limit s room x t) : s.Steps t := by
  obtain ⟨before, -, -, hrun⟩ := h.earlier
  have hturns : Upholds (fun _ => True) s.Steps (before.forM (restrict room)) :=
    upholds_forM (upholds_restrict hs room)
  exact hturns.keeps _ _ _ (.refl s) hrun

theorem Turn.mem (h : Turn terms limit s room x t) : x ∈ terms := by
  obtain ⟨before, after, rfl, -⟩ := h.earlier
  exact List.mem_append_right before List.mem_cons_self

/-- The room is what the sum of the least values leaves of the limit. -/
theorem Turn.room_eq (h : Turn terms limit s room x t) :
    room = limit - (terms.map (·.lowerBound s)).sum := by
  obtain ⟨least, hleast, hroom⟩ := except_bind_eq_ok_iff.mp h.computed
  rw [eq_of_sumOf hleast, Width.eq_of_checked hroom]

/-- A value can be added to the room that fewer than 2 ^ 31 terms leave. -/
theorem room_le (hs : s.Wf) (hbase : Based terms s) (hlength : terms.length < 2147483648)
    (hhigh : limit ≤ 2147483648) :
    limit - (terms.map (·.lowerBound s)).sum ≤ 9223372034707292160 := by
  have hsum := (sum_limited (hbase.limited hs).1).1
  omega

/-- Neither their sum nor the room overflows. -/
theorem room_computed (hs : s.Wf) (hbase : Based terms s) (hlength : terms.length < 2147483648)
    (hlow : -2147483648 ≤ limit) (hhigh : limit ≤ 2147483648) :
    sumOf terms (·.lowerBound s) = .ok (terms.map (·.lowerBound s)).sum
      ∧ Width.sum.checked (limit - (terms.map (·.lowerBound s)).sum)
        = .ok (limit - (terms.map (·.lowerBound s)).sum) := by
  have hlimited := (hbase.limited hs).1
  have hsum := sum_limited hlimited
  refine ⟨sumOf_limited hlimited (by omega), Width.checked_of_fits ?_⟩
  constructor <;> simp only [Width.sum] <;> omega

theorem Turn.exact (hs : s.Wf) (hbase : Based terms s) (hlength : terms.length < 2147483648)
    (hhigh : limit ≤ 2147483648) (h : Turn terms limit s room x t) : ExactTurn room x t := by
  have hsteps := h.steps hs
  refine exactTurn_of_room (hsteps.wf hs) ((hbase x h.mem).steps hsteps hs) h.passed ?_
  rw [h.room_eq]
  exact room_le hs hbase hlength hhigh

/-! ### Runs -/

/-- In a run that succeeds every term has its turn. -/
theorem exists_turn {before after : List IntVar} {u : Store}
    (hrun : (filter terms limit).runOn s = .ok (.ok (), u)) (hsplit : terms = before ++ x :: after) :
    ∃ room t, Turn terms limit s room x t := by
  obtain ⟨least, room, hleast, hroom, hpassed, hloop⟩ := accepted_cases hrun
  have happend : terms.forM (restrict room)
      = before.forM (restrict room) >>= fun _ => (x :: after).forM (restrict room) :=
    hsplit ▸ List.forM_append
  rw [happend] at hloop
  obtain ⟨first, t, hfirst, hrest⟩ := run_bind_cases hloop
  rcases hrest with ⟨reason, -, hreason, -⟩ | ⟨⟨⟩, rfl, -⟩
  · cases hreason
  · exact ⟨room, t, except_bind_eq_ok_iff.mpr ⟨least, hleast, hroom⟩, hpassed, before, after,
      hsplit, hfirst⟩

/-- What a run is: the sum of the least values is compared with the limit, and if it does not exceed
    it the terms are treated with the room that it leaves. -/
theorem runOn_filter_eq (hs : s.Wf) (hbase : Based terms s) (hlength : terms.length < 2147483648)
    (hlow : -2147483648 ≤ limit) (hhigh : limit ≤ 2147483648) :
    (filter terms limit).runOn s
      = if limit < (terms.map (·.lowerBound s)).sum then .ok (.error .inconsistent, s)
        else (terms.forM (restrict (limit - (terms.map (·.lowerBound s)).sum))).runOn s := by
  obtain ⟨hleast, hroom⟩ := room_computed hs hbase hlength hlow hhigh
  unfold filter
  change (checked (sumOf terms (·.lowerBound s)) >>= _).runOn s = _
  rw [hleast]
  change (checked (Width.sum.checked (limit - (terms.map (·.lowerBound s)).sum)) >>= _).runOn s = _
  rw [hroom]
  change (if limit - (terms.map (·.lowerBound s)).sum < 0 then _ else _ : Filtering Unit).runOn s = _
  simp only [sub_neg]
  split <;> rfl

/-- What a turn is, if its sum fits. -/
theorem runOn_restrict (hfits : Width.sum.Fits (x.lowerBound t + room)) :
    (restrict room x).runOn t
      = if x.lowerBound t + room < x.upperBound t then
          (narrowing (x.tightenUpper · (Width.value.wrap (x.lowerBound t + room)))).runOn t
        else .ok (.ok (), t) := by
  unfold restrict
  change (checked (Width.sum.checked (x.lowerBound t + room)) >>= _).runOn t = _
  rw [Width.checked_of_fits hfits]
  change (if _ then _ else _ : Filtering Unit).runOn t = _
  split <;> rfl

/-- A turn that is refused changes nothing, and it is one of a view. -/
theorem ExactTurn.refused (h : ExactTurn room x t) (ht : t.Wf) {refusal : Refusal} {u : Store}
    (hrun : (restrict room x).runOn t = .ok (.error refusal, u)) :
    refusal = .emptyDomain ∧ u = t ∧ ∃ inner map, x = .view inner map := by
  rw [runOn_restrict h.sum] at hrun
  split at hrun
  next hlt =>
    rw [narrowing, runOn_bind, runOn_narrowOr] at hrun
    cases hchanged : (x.tightenUpper t (Width.value.wrap (x.lowerBound t + room))).changed? with
    | none =>
      rw [hchanged] at hrun
      cases hrun
      -- a refusal leaves the store as it was; a plain variable would have been narrowed
      have hne : (x.tightenUpper t (Width.value.wrap (x.lowerBound t + room))).changed?
          ≠ some true := by
        rw [hchanged]
        exact nofun
      refine ⟨rfl, (x.tighten_steps ht _).2.same hne, ?_⟩
      cases x with
      | plain y => exact absurd (h.shrinks y rfl hlt) hne
      | view inner map => exact ⟨inner, map, rfl⟩
    | some changed =>
      rw [hchanged] at hrun
      cases hrun
  next => cases hrun

/-- A loop that is refused is refused at the turn of one of its terms. -/
theorem restricts_refused {refusal : Refusal} {u : Store}
    (hrun : (terms.forM (restrict room)).runOn s = .ok (.error refusal, u)) :
    ∃ before x after t, terms = before ++ x :: after
      ∧ (before.forM (restrict room)).runOn s = .ok (.ok (), t)
      ∧ (restrict room x).runOn t = .ok (.error refusal, u) := by
  induction terms generalizing s with
  | nil => cases hrun
  | cons y rest ih =>
    change (restrict room y >>= fun _ => rest.forM (restrict room)).runOn s = _ at hrun
    obtain ⟨first, t, hfirst, hrest⟩ := run_bind_cases hrun
    rcases hrest with ⟨reason, rfl, hreason, rfl⟩ | ⟨⟨⟩, rfl, hlater⟩
    · cases hreason
      exact ⟨[], y, rest, s, rfl, rfl, hfirst⟩
    · obtain ⟨before, x, after, t', rfl, hbefore, hrefused⟩ := ih hlater
      refine ⟨y :: before, x, after, t', rfl, ?_, hrefused⟩
      change (restrict room y >>= fun _ => before.forM (restrict room)).runOn s = _
      change (restrict room y).runOn s = _ at hfirst
      rw [runOn_bind, hfirst]
      exact hbefore

/-- A run is refused for its sum, or else at the turn of a view. -/
theorem refused_cases (hs : s.Wf) (hbase : Based terms s) (hlength : terms.length < 2147483648)
    (hlow : -2147483648 ≤ limit) (hhigh : limit ≤ 2147483648) {refusal : Refusal} {u : Store}
    (hrun : (filter terms limit).runOn s = .ok (.error refusal, u)) :
    refusal = .inconsistent ∧ limit < (terms.map (·.lowerBound s)).sum ∧ u = s
      ∨ refusal = .emptyDomain ∧ ∃ room inner map, Turn terms limit s room (.view inner map) u := by
  rw [runOn_filter_eq hs hbase hlength hlow hhigh] at hrun
  split at hrun
  next hlt =>
    cases hrun
    exact Or.inl ⟨rfl, hlt, rfl⟩
  next hle =>
    obtain ⟨before, x, after, t, hsplit, hbefore, hrefused⟩ := restricts_refused hrun
    have hcomputed := room_computed hs hbase hlength hlow hhigh
    have hturn : Turn terms limit s _ x t :=
      ⟨except_bind_eq_ok_iff.mpr ⟨_, hcomputed⟩, by omega, before, after, hsplit, hbefore⟩
    have hexact := hturn.exact hs hbase hlength hhigh
    obtain ⟨hempty, rfl, inner, map, rfl⟩ := hexact.refused ((hturn.steps hs).wf hs) hrefused
    exact Or.inr ⟨hempty, _, inner, map, hturn⟩

/-- None of the excuses for a fault applies to known variables, fewer than 2 ^ 31 terms and a limit
    of at most 2 ^ 31. -/
theorem not_excused (hknown : ∀ x ∈ terms, s.knows (.int x.base) = true)
    (hlength : terms.length < 2147483648) (hlow : -2147483648 ≤ limit)
    (hhigh : limit ≤ 2147483648) (e : Fault) : ¬ Excused terms limit s e := by
  intro hexcused
  cases e with
  | indexOutOfBounds =>
    obtain ⟨x, hx, hunknown⟩ := hexcused
    rw [hknown x hx] at hunknown
    cases hunknown
  | overflow =>
    have hsizes : 4294967294 < terms.length ∨ limit < -2147483648 ∨ 2147483648 < limit := hexcused
    omega
  | _ => exact hexcused.elim

/-- Without views a run is refused for the sum of the least values alone: if it is at most the limit
    the run succeeds, and if it is not the run changes nothing. -/
theorem runOn_filter_plain (hs : s.Wf) (hknown : ∀ x ∈ terms, s.knows (.int x.base) = true)
    (hbase : Based terms s) (hplain : ∀ x ∈ terms, ∃ y, x = .plain y)
    (hlength : terms.length < 2147483648) (hlow : -2147483648 ≤ limit)
    (hhigh : limit ≤ 2147483648) :
    ((terms.map (·.lowerBound s)).sum ≤ limit →
        ∃ t, (filter terms limit).runOn s = .ok (.ok (), t))
      ∧ (limit < (terms.map (·.lowerBound s)).sum →
        (filter terms limit).runOn s = .ok (.error .inconsistent, s)) := by
  constructor
  · intro hle
    have hends : SoundUpTo (Excused terms limit s) (fun a => shownSum terms a ≤ limit)
        (filter terms limit) s fun _ _ => True := sound_saturated hs hbase
    rcases hends with ⟨e, -, hexcused⟩ | ⟨verdict, t, hrun, -⟩
    · exact absurd hexcused (not_excused hknown hlength hlow hhigh e)
    cases verdict with
    | ok u => exact ⟨t, hrun⟩
    | error refusal =>
      rcases refused_cases hs hbase hlength hlow hhigh hrun with ⟨-, hlt, -⟩ | ⟨-, _, _, _, hturn⟩
      · omega
      · -- a refused turn would be one of a view
        obtain ⟨y, hy⟩ := hplain _ hturn.mem
        cases hy
  · intro hlt
    rw [runOn_filter_eq hs hbase hlength hlow hhigh, if_pos hlt]

end LinearAtMost

/-! ### Calls and judgements -/

namespace Filter

open LinearAtMost

variable {terms : List IntVar} {limit : Int} {s : Store}

/-- What the filter for a sum computes is what it would be over the integers. -/
structure ExactSums (terms : List IntVar) (limit : Int) (s : Store) : Prop where
  /-- Every call answers, so no sum that it checks overflows. -/
  calls : ∀ c : Call, ∃ pass, c.run (.sumAtMost terms limit) s = .ok pass
  /-- Every judgement does, and compares the sums of the bounds with the limit. -/
  judges : (Filter.sumAtMost terms limit).entailment s
    = .ok (if (terms.map (·.upperBound s)).sum ≤ limit then .holds
      else if limit < (terms.map (·.lowerBound s)).sum then .fails else .undecided)
  /-- A run compares the sum of the least values with the limit, and what it leaves is the room. -/
  runs : (LinearAtMost.filter terms limit).runOn s
    = if limit < (terms.map (·.lowerBound s)).sum then .ok (.error .inconsistent, s)
      else (terms.forM (restrict (limit - (terms.map (·.lowerBound s)).sum))).runOn s
  /-- Every turn of the loop computes what it should. -/
  turns : ∀ room x t, Turn terms limit s room x t → ExactTurn room x t
  /-- In a run that succeeds every term has its turn. -/
  treated : ∀ u, (LinearAtMost.filter terms limit).runOn s = .ok (.ok (), u) →
    ∀ x ∈ terms, ∃ room t, Turn terms limit s room x t
  /-- A run is refused for its sum, or else at the turn of a view. -/
  refused : ∀ refusal u, (LinearAtMost.filter terms limit).runOn s = .ok (.error refusal, u) →
    refusal = .inconsistent ∧ limit < (terms.map (·.lowerBound s)).sum ∧ u = s
      ∨ refusal = .emptyDomain ∧ ∃ room inner map, Turn terms limit s room (.view inner map) u
  /-- What views compute to show the bounds that are summed up fits. -/
  views : ∀ x ∈ terms, x.Slim → x.ReadsExactly s

/-- A call answers, since nothing excuses a fault. -/
theorem call_answers (hs : s.Wf) (hknown : ∀ x ∈ terms, s.knows (.int x.base) = true)
    (hbase : Based terms s) (hlength : terms.length < 2147483648) (hlow : -2147483648 ≤ limit)
    (hhigh : limit ≤ 2147483648) (c : Call) : ∃ pass, c.run (.sumAtMost terms limit) s = .ok pass := by
  have hends : (∃ e, c.run (.sumAtMost terms limit) s = .error e ∧ Excused terms limit s e) ∨ _ :=
    call_saturated hs hbase c
  rcases hends with ⟨e, -, hexcused⟩ | ⟨pass, hpass, -⟩
  · exact absurd hexcused (not_excused hknown hlength hlow hhigh e)
  · exact ⟨pass, hpass⟩

theorem judgement_exact (hs : s.Wf) (hknown : ∀ x ∈ terms, s.knows (.int x.base) = true)
    (hbase : Based terms s) (hlength : terms.length < 2147483648) (limit : Int) :
    (Filter.sumAtMost terms limit).entailment s
      = .ok (if (terms.map (·.upperBound s)).sum ≤ limit then .holds
        else if limit < (terms.map (·.lowerBound s)).sum then .fails else .undecided) := by
  have hlookup : (Filter.sumAtMost terms limit).scope.forM s.require = .ok () := by
    refine forM_require fun v hv => ?_
    obtain ⟨x, hx, rfl⟩ := mem_scope_sumAtMost hv
    exact hknown x hx
  obtain ⟨hlower, hupper⟩ := hbase.limited hs
  have hjudged : (Filter.sumAtMost terms limit).entailment s
      = LinearAtMost.entailment terms limit s := by
    simp only [entailment, judged, hlookup, bind, Except.bind]
  rw [hjudged, LinearAtMost.entailment, sumOf_limited hupper (by omega),
    sumOf_limited hlower (by omega)]
  simp only [bind, Except.bind, pure, Except.pure]
  split
  · rfl
  split <;> rfl

/-- The filter for a sum computes exactly, whatever variables of the store its terms are and however
    many of them are views of one: for fewer than 2 ^ 31 terms over values and a limit of at most
    2 ^ 31, no sum overflows, a new bound is stored as it is, and a variable of the store itself
    keeps a value. -/
theorem exact_sums (hs : s.Wf) (hknown : ∀ x ∈ terms, s.knows (.int x.base) = true)
    (hbase : Based terms s) (hlength : terms.length < 2147483648) (hlow : -2147483648 ≤ limit)
    (hhigh : limit ≤ 2147483648) : ExactSums terms limit s where
  calls := call_answers hs hknown hbase hlength hlow hhigh
  judges := judgement_exact hs hknown hbase hlength limit
  runs := runOn_filter_eq hs hbase hlength hlow hhigh
  turns := fun _ _ _ hturn => hturn.exact hs hbase hlength hhigh
  treated := by
    intro u hrun x hx
    obtain ⟨before, after, hsplit⟩ := List.append_of_mem hx
    exact exists_turn hrun hsplit
  refused := fun _ _ hrun => refused_cases hs hbase hlength hlow hhigh hrun
  views := fun x hx hslim => IntVar.readsExactly hs (hbase x hx) hslim

/-- A variable with the values from -10 to 10, and one with the values 0, 3 and 9. -/
def spread : Store :=
  ((Store.empty.addInt (IntegerDomain.bounded (-10) 10)).2.addInt
    ⟨0, 9, 3, some ([0, 3, 9].foldl Enumeration.insert ⟨0, BitSet.empty 10⟩)⟩).2

/-- The opposite of the first variable, its double, and the second variable. -/
def entangled : List IntVar :=
  [.view (.plain ⟨0⟩) ⟨-1, 0, AffineMap.neg_one_ne_zero⟩,
    .view (.plain ⟨0⟩) ⟨2, 0, AffineMap.two_ne_zero⟩, .plain ⟨1⟩]

theorem spread_wf : spread.Wf := by
  have hascending : [(0 : Int), 3, 9].Pairwise (· < ·) := by decide
  exact (Store.wf_empty.addInt (IntegerDomain.bounded_wf (by decide) (by decide))).addInt
    (IntegerDomain.enumerated_wf hascending rfl)

/-- The turn of the opposite raises the least value of the double from -20 to 4, so the double gets
    the bound 12, which is beyond the one that the room was computed for; and the second variable
    keeps the values up to 8. -/
theorem exact_sums_entangled :
    ExactSums entangled (-22) spread
      ∧ (∃ t, Turn entangled (-22) spread 8 entangled[1] t
        ∧ entangled[1].lowerBound spread = -20 ∧ entangled[1].lowerBound t = 4
        ∧ Width.value.wrap (entangled[1].lowerBound t + 8) = 12)
      ∧ ∃ t, Turn entangled (-22) spread 8 (.plain ⟨1⟩) t
        ∧ ((IntVar.plain ⟨1⟩).tightenUpper t 8).changed? = some true := by
  have hends : ∀ x ∈ entangled, Width.value.Fits (spread.int x.base).lower
      ∧ Width.value.Fits (spread.int x.base).upper := by
    decide
  have hbase : Based entangled spread := by
    intro x hx v hv
    obtain ⟨hlow, hhigh, -⟩ := IntegerDomain.contains_iff.mp hv
    obtain ⟨⟨hleast, -⟩, -, hgreatest⟩ := hends x hx
    exact ⟨Int.le_trans hleast hlow, Int.le_trans hhigh hgreatest⟩
  have hsums : ExactSums entangled (-22) spread :=
    exact_sums spread_wf (by decide) hbase (by decide) (by decide) (by decide)
  have hsecond : ∃ t, Turn entangled (-22) spread 8 entangled[1] t ∧ entangled[1].lowerBound t = 4
      ∧ entangled[1].upperBound t = 20 :=
    ⟨_, ⟨rfl, by decide, [entangled[0]], [entangled[2]], rfl, rfl⟩, rfl, rfl⟩
  have hthird : ∃ t, Turn entangled (-22) spread 8 (.plain ⟨1⟩) t
      ∧ (IntVar.plain ⟨1⟩).lowerBound t = 0 ∧ (IntVar.plain ⟨1⟩).upperBound t = 9 := by
    refine ⟨_, ⟨rfl, by decide, [entangled[0], entangled[1]], [], rfl, rfl⟩, ?_⟩
    decide +kernel
  refine ⟨hsums, ?_, ?_⟩
  · obtain ⟨t, hturn, hlower, hupper⟩ := hsecond
    have hexact := hsums.turns _ _ _ hturn
    refine ⟨t, hturn, rfl, hlower, ?_⟩
    rw [hexact.stored (by omega), hlower]
    rfl
  · obtain ⟨t, hturn, hlower, hupper⟩ := hthird
    have hexact := hsums.turns _ _ _ hturn
    have hchanged := hexact.shrinks ⟨1⟩ rfl (by omega)
    rw [hexact.stored (by omega), hlower] at hchanged
    exact ⟨t, hturn, hchanged⟩

end Filter

end FiniteDomain
