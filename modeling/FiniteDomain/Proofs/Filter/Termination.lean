import FiniteDomain.Proofs.Filter.AllDifferent.Instantiation
import FiniteDomain.Proofs.Propagation.Termination
import FiniteDomain.Proofs.Propagation.Wakeup

/-! # The filters terminate

    Two filters have loops that are not bounded by a list.  The filter for *all
    different* by assigned values works on a stack of positions: a position is
    pushed only when it becomes fixed, and it stays fixed, whatever positions are
    repeated and whatever views look at one variable (`runs_strike`).  The filter
    by bounds repeats passes until one changes nothing: a pass that tells that it
    has changed something has lowered the slack of the store (`runs_hallPass`).

    All other loops run along lists that are made before they begin.  The walks
    along chains of certain arcs take as many steps as there are nodes, cycle or
    not, and the values of a variable are counted up from its lower bound to its
    upper bound; that this count ends by itself, saturated or not, is
    `IntVar.firstValues_add`.

    So a call of a filter ends, on every well-formed store and for every scope
    (`disciplined_filter`), and with it propagation (`propagation_terminates`). -/

namespace FiniteDomain

open Filtering Program

variable {faults : Fault → Prop} {s t u : Store} {vars : List IntVar}

/-! ### Runs of filters -/

theorem narrowable_steps (hs : s.Wf) : Narrowable s.Steps :=
  fun request _ hst => hst.trans (Store.steps_apply (hst.wf hs) request)

namespace Filtering

variable {α β : Type} {post : β → Store → Prop}

theorem runs_bind_read {f : α → Filtering β} (view : Store → α)
    (h : Runs faults (f (view s)) s post) : Runs faults (read view >>= f) s post :=
  ⟨h.raises, h.answers⟩

theorem runs_bind_checked {result : Except Fault α} {f : α → Filtering β}
    (hresult : RaisesOnly faults result) (h : ∀ a, result = .ok a → Runs faults (f a) s post) :
    Runs faults (checked result >>= f) s post := by
  cases result with
  | error e => exact ⟨.error (hresult e rfl), nofun⟩
  | ok a => exact ⟨(h a rfl).raises, (h a rfl).answers⟩

/-- Narrowing has been going on, and it is said truly whether anything has changed. -/
structure Shrinks (s : Store) (changed : Bool) (t : Store) : Prop where
  /-- Nothing but narrowing has been going on. -/
  steps : s.Steps t
  /-- What has changed has lowered the slack. -/
  smaller : changed = true → t.slack < s.slack
  /-- Without a change the store is as it was. -/
  idle : changed = false → t = s

theorem Shrinks.refl (s : Store) : Shrinks s false s := ⟨.refl s, nofun, fun _ => rfl⟩

theorem Shrinks.trans {changed changed' : Bool} (h₁ : Shrinks s changed t)
    (h₂ : Shrinks t changed' u) (hs : s.Wf) : Shrinks s (changed || changed') u := by
  refine ⟨h₁.steps.trans h₂.steps, fun hc => ?_, fun hc => ?_⟩
  · rcases (Bool.or_eq_true ..).mp hc with hc | hc
    · exact Nat.lt_of_le_of_lt (h₂.steps.slack_le (h₁.steps.wf hs)) (h₁.smaller hc)
    · exact Nat.lt_of_lt_of_le (h₂.smaller hc) (h₁.steps.slack_le hs)
  · obtain ⟨hc₁, hc₂⟩ := (Bool.or_eq_false_iff ..).mp hc
    exact (h₂.idle hc₂).trans (h₁.idle hc₁)

/-- A narrowing that is not refused leaves its store. -/
theorem runs_narrowOr_of {refusal : Refusal} {narrow : Store → Narrowed}
    {post : Bool → Store → Prop}
    (h : ∀ changed, (narrow s).changed? = some changed → post changed (narrow s).store) :
    Runs faults (narrowOr refusal narrow) s post := by
  have hrun := runOn_narrowOr refusal narrow s
  change (narrowOr refusal narrow).run.run s = _ at hrun
  refine ⟨hrun ▸ .ok _, fun changed t hanswer => ?_⟩
  rw [hrun] at hanswer
  obtain ⟨hchanged, rfl⟩ := Prod.mk.inj (Except.ok.inj hanswer)
  cases hc : (narrow s).changed? with
  | none => rw [hc] at hchanged; cases hchanged
  | some c =>
    rw [hc] at hchanged
    exact h changed (hc.trans (congrArg some (Except.ok.inj hchanged)))

/-- A narrowing tells truly whether it changed anything. -/
theorem shrinks_apply (hs : s.Wf) (request : Narrowing) {changed : Bool}
    (hc : (request.apply s).changed? = some changed) :
    Shrinks s changed (request.apply s).store := by
  have hsteps := request.apply_steps hs
  refine ⟨.of_narrowed hsteps, fun htrue => ?_, fun hfalse => ?_⟩
  · exact (hsteps.step (htrue ▸ hc)).slack_lt hs
  · exact hsteps.same (by rw [hc, hfalse]; decide)

end Filtering

/-! ### Assigned values -/

namespace AllDifferent

/-- Every position that is pushed was open before. -/
theorem runs_strike (hs : s.Wf) (i : Nat) (value : Int) (stack : List Nat) :
    Runs faults (strike vars i value stack) s fun stack' t =>
      s.Steps t ∧ stack'.length + openCount vars t ≤ stack.length + openCount vars s := by
  unfold strike
  refine runs_foldlM (fun stack' yj hyj t h => ?_) ⟨.refl s, Nat.le_refl _⟩
  obtain ⟨y, j⟩ := yj
  obtain ⟨hst, hbound⟩ := h
  have ht := hst.wf hs
  by_cases hij : j = i
  · simp only [if_pos hij]
    exact runs_pure ⟨hst, hbound⟩
  simp only [if_neg hij]
  refine runs_bind_read _ ?_
  have hnarrowing : Runs faults (narrowing (y.removeValue · value)) t fun _ => t.Steps :=
    (upholds_narrowing fun u hu => narrowable_steps ht (.removeValue y value) u hu).runs (.refl t)
  refine hnarrowing.bind fun _ u htu => runs_bind_read _ (runs_pure ⟨hst.trans htu, ?_⟩)
  exact Nat.le_trans (length_push_le htu ht (List.mem_zipIdx_iff_getElem?.mp hyj) stack') hbound

theorem runs_settle (hf : Tolerates faults) (fuel : Nat) {stack : List Nat} (hs : s.Wf)
    (hfuel : stack.length + openCount vars s ≤ fuel) :
    Runs faults (settle vars fuel stack) s fun _ _ => True := by
  -- on the steps that are allowed; each takes one position from the stack
  induction fuel generalizing stack s with
  | zero =>
    cases stack with
    | nil => exact runs_pure trivial
    | cons i rest =>
      rw [List.length_cons] at hfuel
      omega
  | succ fuel ih =>
    cases stack with
    | nil => exact runs_pure trivial
    | cons i rest =>
      rw [settle]
      cases hi : vars[i]? with
      | none => exact (upholds_fault (I := fun _ => True) hf.missing).runs trivial
      | some x =>
        simp only
        refine runs_bind_read _ ((runs_strike hs i _ rest).bind fun stack' t h => ?_)
        rw [List.length_cons] at hfuel
        exact ih (h.1.wf hs) (by omega)

theorem runs_settleAll (hf : Tolerates faults) (hs : s.Wf) (stack : List Nat) :
    Runs faults (settleAll vars stack) s fun _ _ => True := by
  have hopen := openCount_le_length vars s
  exact runs_settle hf _ hs (by omega)

/-! ### Hall intervals -/

/-- Moving the bounds of a variable out of an interval: what a bound that lies in the interval asks
    for, and what holds after each of the two narrowings. -/
theorem runs_moveOut_of {x : IntVar} {low high : Int} {inv : Bool → Store → Prop}
    (hraise : low ≤ x.lowerBound s ∧ x.lowerBound s ≤ high →
      RaisesOnly faults (Width.value.checked (high + 1))
        ∧ ∀ c, (x.tightenLower s (high + 1)).changed? = some c →
          inv c (x.tightenLower s (high + 1)).store)
    (hdrop : ∀ raised t, inv raised t → low ≤ x.upperBound t ∧ x.upperBound t ≤ high →
      RaisesOnly faults (Width.value.checked (low - 1))
        ∧ ∀ c, (x.tightenUpper t (low - 1)).changed? = some c →
          inv (raised || c) (x.tightenUpper t (low - 1)).store)
    (hs : inv false s) : Runs faults (moveOut x low high) s inv := by
  -- the upper bound, after whatever was done to the lower one
  have hsecond : ∀ (raised : Bool) (t : Store), inv raised t → Runs faults (do
      let upper ← Filtering.read x.upperBound
      let dropped ←
        if low ≤ upper ∧ upper ≤ high then do
          let bound ← Filtering.checked (Width.value.checked (low - 1))
          Filtering.narrowOr .inconsistent (x.tightenUpper · bound)
        else pure false
      return raised || dropped) t inv := by
    intro raised t ht
    refine runs_bind_read _ ?_
    by_cases hin : low ≤ x.upperBound t ∧ x.upperBound t ≤ high
    · obtain ⟨hraises, hleft⟩ := hdrop raised t ht hin
      simp only [if_pos hin]
      refine runs_bind_checked hraises fun bound hb => ?_
      obtain rfl := Width.eq_of_checked hb
      have hnarrow : Runs faults (narrowOr .inconsistent (x.tightenUpper · (low - 1))) t
          fun c => inv (raised || c) := runs_narrowOr_of hleft
      exact hnarrow.bind fun _ _ => runs_pure
    · simp only [if_neg hin, pure_bind, Bool.or_false]
      exact runs_pure ht
  unfold moveOut
  refine runs_bind_read _ ?_
  by_cases hin : low ≤ x.lowerBound s ∧ x.lowerBound s ≤ high
  · obtain ⟨hraises, hleft⟩ := hraise hin
    simp only [if_pos hin]
    refine runs_bind_checked hraises fun bound hb => ?_
    obtain rfl := Width.eq_of_checked hb
    exact (runs_narrowOr_of hleft).bind hsecond
  · simp only [if_neg hin, pure_bind]
    exact hsecond false s hs

theorem runs_moveOut (hf : Tolerates faults) (hs : s.Wf) (x : IntVar) (low high : Int) :
    Runs faults (moveOut x low high) s (Shrinks s) := by
  refine runs_moveOut_of (fun _ => ⟨hf.fits _ _, fun c hc => ?_⟩)
    (fun raised t hst _ => ⟨hf.fits _ _, fun c hc => ?_⟩) (.refl s)
  · exact shrinks_apply hs (.tightenLower x (high + 1)) hc
  · exact hst.trans (shrinks_apply (hst.steps.wf hs) (.tightenUpper x (low - 1)) hc) hs

theorem runs_treatInterval (hf : Tolerates faults) (hs : s.Wf) (bounds : List (Int × Int))
    (low high : Int) : Runs faults (treatInterval vars bounds low high) s (Shrinks s) := by
  unfold treatInterval
  extract_lets inside room
  split
  · exact ⟨.ok _, nofun⟩
  split
  · exact runs_pure (.refl s)
  refine runs_foldlM (fun changed xb _ t hst => ?_) (.refl s)
  obtain ⟨x, b⟩ := xb
  by_cases hinside : encloses low high b = true
  · simp only [if_pos hinside]
    exact runs_pure hst
  · simp only [if_neg hinside]
    refine (runs_moveOut hf (hst.steps.wf hs) x low high).bind fun moved u htu => runs_pure ?_
    rw [Bool.or_comm]
    exact hst.trans htu hs

/-- A pass that has changed something has lowered the slack. -/
theorem runs_hallPass (hf : Tolerates faults) (hs : s.Wf) (vars : List IntVar) :
    Runs faults (hallPass vars) s (Shrinks s) := by
  unfold hallPass
  refine runs_bind_read _ (runs_foldlM (fun changed interval _ t hst => ?_) (.refl s))
  obtain ⟨low, high⟩ := interval
  refine (runs_treatInterval hf (hst.steps.wf hs) _ low high).bind fun treated u htu =>
    runs_pure ?_
  rw [Bool.or_comm]
  exact hst.trans htu hs

theorem runs_hallPasses (hf : Tolerates faults) (fuel : Nat) (hs : s.Wf) (vars : List IntVar)
    (hfuel : s.slack < fuel) : Runs faults (hallPasses vars fuel) s fun _ _ => True := by
  induction fuel generalizing s with
  | zero => exact absurd hfuel (Nat.not_lt_zero _)
  | succ fuel ih =>
    rw [hallPasses]
    refine (runs_hallPass hf hs vars).bind fun changed t hst => ?_
    by_cases hchanged : changed = true
    · rw [if_pos hchanged]
      have hlt := hst.smaller hchanged
      exact ih (hst.steps.wf hs) (by omega)
    · rw [if_neg hchanged]
      exact runs_pure trivial

end AllDifferent

/-! ### All filters -/

namespace Filter

variable {f : Filter}

theorem narrowable_true : Narrowable fun _ => True := fun _ _ _ => trivial

theorem runs_program (hf : Tolerates faults) (hs : s.Wf) (f : Filter) :
    Runs faults f.program s fun _ _ => True := by
  have hall := narrowable_true
  cases f with
  | distinctByValue vars => exact runs_bind_read _ (AllDifferent.runs_settleAll hf hs _)
  | distinctByBounds vars =>
    refine runs_bind_read _ ?_
    refine (AllDifferent.runs_hallPasses hf _ hs vars (Nat.lt_succ_self _)).bind ?_
    exact fun _ _ _ => (hall.removeFixedValues vars).runs trivial
  | sumAtMost terms limit => exact (hall.linear hf terms limit).runs trivial
  | atMost a b => exact (hall.atMost a b).runs trivial
  | distinct a b => exact (hall.distinct a b).runs trivial
  | subset a b => exact (hall.subset a b).runs trivial
  | disjoint a b => exact (hall.disjoint a b).runs trivial
  | member x y => exact (hall.member x y).runs trivial
  | oneNeighbour d g but => exact (hall.oneNeighbour d g but).runs trivial
  | pathNoCycle g source sink => exact (hall.pathNoCycle hf g source sink).runs trivial

theorem runs_programAt (hf : Tolerates faults) (hs : s.Wf) (f : Filter) (l : LocalId) :
    Runs faults (f.programAt l) s fun _ _ => True := by
  unfold programAt
  split
  · exact AllDifferent.runs_settleAll hf hs _
  · exact runs_program hf hs _

/-- A pass ends in no other faults than its program. -/
theorem raises_of_runs {P : Type} {self : P} {program : Filtering Unit}
    (h : Runs faults program s fun _ _ => True) : RaisesOnly faults (Pass.ofFilter self program s) := by
  refine h.raises.bind fun out _ => ?_
  obtain ⟨verdict, t⟩ := out
  cases verdict <;> exact .ok _

theorem raises_ofFilter (hf : Tolerates faults) {program : Filtering Unit}
    (h : Runs faults program s fun _ _ => True) :
    RaisesOnly faults (Pass.ofFilter f (f.guarded program) s) := by
  refine raises_of_runs (runs_bind_read id ?_)
  refine ((hf.upholds_require (I := fun t => t = s) _).runs rfl).bind fun _ t ht => ?_
  subst ht
  exact h

theorem entailment_raises (hf : Tolerates faults) (f : Filter) (s : Store) :
    RaisesOnly faults (f.entailment s) := by
  have hrequire : ∀ vs : List VariableId, RaisesOnly faults (vs.forM s.require) := by
    intro vs
    induction vs with
    | nil => exact .ok _
    | cons v rest ih => exact (hf.require s v).bind fun _ _ => ih
  refine (hrequire _).bind fun _ _ => ?_
  cases f with
  | sumAtMost terms limit =>
    refine (hf.sumOf terms (·.upperBound s)).bind fun greatest _ => ?_
    split
    · exact .ok _
    · refine (hf.sumOf terms (·.lowerBound s)).bind fun least _ => ?_
      split <;> exact .ok _
  | pathNoCycle g source sink =>
    show RaisesOnly faults (PathNoCycle.entailment g source sink s)
    unfold PathNoCycle.entailment
    extract_lets d
    split
    · exact .ok _
    split
    · exact .error hf.missing
    split <;> exact .ok _
  | _ => exact .ok _

/-- Single calls of the filters end, and they are narrowings. -/
theorem disciplined_filter (hf : Tolerates faults) : Disciplined faults Filter where
  initial := fun f _ hs => raises_ofFilter hf (runs_program hf hs f)
  propagate := fun f l _ _ hs => raises_ofFilter hf (runs_programAt hf hs f l)
  entailment := fun f s _ => entailment_raises hf f s
  narrowsInitially := fun f s _ hpass =>
    (ofFilter_keeps (I := s.Narrowings) (keeps_initial (fun request _ h => .narrow request h) f)
      .refl hpass).2
  narrows := Space.narrowers_filter

/-- A variable or node is missing, or a number does not fit. -/
def Faults (e : Fault) : Prop := e = .indexOutOfBounds ∨ e = .overflow

end Filter

/-! ### Propagation -/

/-- Propagation terminates.  Let the single calls of some propagators, on well-formed stores, have a
    result or end in one of the given faults, and touch the store by narrowings only.  Then in
    every state in which whoever waits is posted, or in which it may be a fault that somebody is
    not, propagating and posting have a result or end in one of these faults: if `outOfFuel` is not
    among them the queue gets empty, and to allow for more runs makes no difference.

    The calls of the filters are such calls, and they do not run out of steps.  The values of a
    variable are counted up until there are no more. -/
theorem propagation_terminates :
    (∀ (P : Type) [Propagator P] (faults : Fault → Prop), Disciplined faults P →
      ∀ sp : Space P, sp.Runnable faults →
        RaisesOnly faults sp.propagate
        ∧ (∀ more, ({ sp with phase := .propagating } : Space P).dispatch.drain
            (sp.stepBound + more) = sp.propagate)
        ∧ ∀ p, RaisesOnly faults (sp.post p))
    ∧ Disciplined Filter.Faults Filter
    ∧ ∀ (s : Store) (x : IntVar), s.Wf → (IntVar.plain x.base).Ranges Width.value s → ∀ more,
        x.firstValues s (IntegerDomain.span (x.lowerBound s) (x.upperBound s) + 1 + more)
          = x.values s := by
  refine ⟨fun P _ faults hP sp h => ?_, ?_, fun s x hs hbase more => ?_⟩
  · obtain ⟨hraises, hmore⟩ := Space.propagate_terminates hP h
    exact ⟨hraises, hmore, Space.post_raises hP h⟩
  · exact Filter.disciplined_filter ⟨Or.inl rfl, Or.inr rfl⟩
  · exact IntVar.firstValues_add hs hbase more

/-- A variable that differs from 8 less its triple and from itself. -/
def Filter.tangled : Filter :=
  .distinctByValue [.plain ⟨0⟩, .view (.plain ⟨0⟩) ⟨-3, 8, by decide⟩, .plain ⟨0⟩]

/-- All positions are over one variable, which is fixed when the filter is posted. -/
theorem propagation_terminates_tangled :
    let s := (Narrowing.apply Store.mixed (.instantiate (.plain ⟨0⟩) 3)).store
    let sp : Space Filter := { Space.empty with store := s }
    Disciplined Filter.Faults Filter ∧ RaisesOnly Filter.Faults (sp.post .tangled)
      ∧ ((sp.post .tangled).toOption.map fun out => out.1.toOption) = some none
      ∧ ∀ more, (IntVar.plain ⟨0⟩).firstValues s (2 + more) = [3] := by
  intro s sp
  have hs : s.Wf := (Store.steps_apply Store.mixed_reachable.traced.wf _).wf
    Store.mixed_reachable.traced.wf
  have hdisciplined := propagation_terminates.2.1
  -- nothing is posted, so nothing waits
  have hrunnable : sp.Runnable Filter.Faults := ⟨hs, Or.inl (Or.inl rfl)⟩
  have hbase : (IntVar.plain ⟨0⟩).Ranges Width.value s := by
    intro v hv
    obtain ⟨hlower, hupper, -⟩ := IntegerDomain.contains_iff.mp hv
    have hbounds : (s.int ⟨0⟩).lower = 3 ∧ (s.int ⟨0⟩).upper = 3 := by decide +kernel
    obtain ⟨hlow, hhigh⟩ := hbounds
    obtain rfl : v = 3 := by
      change (s.int ⟨0⟩).lower ≤ v at hlower
      change v ≤ (s.int ⟨0⟩).upper at hupper
      omega
    exact (by decide : Width.value.Fits 3)
  refine ⟨hdisciplined, (propagation_terminates.1 Filter _ hdisciplined sp hrunnable).2.2 _,
    by decide +kernel, fun more => ?_⟩
  have hvalues := propagation_terminates.2.2 s (.plain ⟨0⟩) hs hbase more
  have hspan : IntegerDomain.span ((IntVar.plain ⟨0⟩).lowerBound s)
      ((IntVar.plain ⟨0⟩).upperBound s) + 1 = 2 := by decide +kernel
  rw [hspan] at hvalues
  exact hvalues.trans (by decide +kernel)

end FiniteDomain
