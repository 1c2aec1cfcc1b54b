import FiniteDomain.Proofs.Filter.AllDifferent.Bounds
import FiniteDomain.Proofs.Filter.Comparison
import FiniteDomain.Proofs.Filter.Linear
import FiniteDomain.Proofs.Filter.OneNeighbour
import FiniteDomain.Proofs.Filter.PathNoCycle
import FiniteDomain.Proofs.Filter.Sets

/-! # The filters are sound

    Every run of a filter that is ready ends without a fault.  For every relation
    whose valuations grant what the filter demands it keeps the valuations of the
    relation, refuses only if there is none, and all that is left after a success
    grants what was demanded at its position (`initial_granted`,
    `propagate_granted`).  The constraint of the filter is such a relation
    (`initial_spec`, `propagate_spec`).  What a filter says about the contents
    that are left is right, and it says something once its scope is fixed
    (`entailment_spec`). -/

namespace FiniteDomain

open Filtering

/-! ### Lists without repetitions -/

theorem nodup_of_length_le_eraseDups {l : List Int} :
    l.eraseDups.length ≤ l.length ∧ (l.length ≤ l.eraseDups.length → l.Nodup) := by
  -- the tail of the result comes from a filtered list, so the induction is on the length
  generalize hn : l.length = n
  induction n using Nat.strong_induction_on generalizing l with
  | _ n ih =>
    cases l with
    | nil => exact ⟨Nat.zero_le n, fun _ => List.nodup_nil⟩
    | cons a rest =>
      rw [List.eraseDups_cons, List.length_cons]
      rw [List.length_cons] at hn
      have hfilter := List.length_filter_le (fun b => !b == a) rest
      obtain ⟨hle, -⟩ := ih _ (by omega) (l := rest.filter fun b => !b == a) rfl
      refine ⟨by omega, fun hlength => ?_⟩
      have hsame : rest.filter (fun b => !b == a) = rest :=
        List.filter_eq_self.mpr (List.length_filter_eq_length_iff.mp (by omega))
      rw [hsame] at hlength
      refine List.nodup_cons.mpr ⟨fun hmem => ?_, (ih _ (by omega) rfl).2 (by omega)⟩
      have hne := List.filter_eq_self.mp hsame a hmem
      simp at hne

theorem eraseDups_of_nodup {l : List Int} (h : l.Nodup) : l.eraseDups = l := by
  induction l with
  | nil => rfl
  | cons a rest ih =>
    obtain ⟨hnew, hrest⟩ := List.nodup_cons.mp h
    have hfilter : rest.filter (fun b => !b == a) = rest := by
      refine List.filter_eq_self.mpr fun b hb => ?_
      have hne : b ≠ a := fun heq => hnew (heq ▸ hb)
      simpa using hne
    rw [List.eraseDups_cons, hfilter, ih hrest]

namespace AllDifferent

open FiniteDomain.Filter

variable {vars : List IntVar} {s : Store}

theorem judges (hs : s.Wf) (hx : ∀ x ∈ vars, x.Ranges Width.value s) :
    Judges (Differ vars) s (∀ x ∈ vars, x.isFixed s = true) (entailment vars s) := by
  -- the fixed variables have their values in every valuation
  have hvalues : ∀ v, s.Admits v →
      (vars.filter (·.isFixed s)).map (·.exactValue v.int) = fixedValues vars s := by
    intro v hv
    refine List.map_congr_left fun x hmem => ?_
    obtain ⟨hx', hfixed⟩ := List.mem_filter.mp hmem
    exact IntVar.eq_lowerBound_of_isFixed hs (hx x hx') hfixed (IntVar.takes_exactValue hv x)
  unfold entailment
  simp only
  split
  next hdups =>
    refine ⟨nofun, fun _ v hv hdiffer => ?_, nofun⟩
    have hnodup : (fixedValues vars s).Nodup := by
      rw [← hvalues v hv]
      exact List.Nodup.sublist (List.filter_sublist.map _) hdiffer
    rw [eraseDups_of_nodup hnodup] at hdups
    exact absurd hdups (Nat.lt_irrefl _)
  next hdups =>
    have hnodup := nodup_of_length_le_eraseDups.2 (Nat.not_lt.mp hdups)
    have hlength : (fixedValues vars s).length = vars.length ↔ ∀ x ∈ vars, x.isFixed s = true := by
      rw [fixedValues, List.length_map]
      exact List.length_filter_eq_length_iff
    split
    next hall =>
      refine ⟨fun _ v hv => ?_, nofun, nofun⟩
      have hfixed := hlength.mp hall
      rw [← hvalues v hv, List.filter_eq_self.mpr hfixed] at hnodup
      exact hnodup
    next hopen => exact ⟨nofun, nofun, fun hfixed => absurd (hlength.mpr hfixed) hopen⟩

end AllDifferent

namespace Filter

variable {f : Filter} {s : Store}

/-! ### Variables that have to exist -/

/-- A run looks at variables of the scope only. -/
theorem consulted_subset (f : Filter) (s : Store) : ∀ v ∈ f.consulted s, v ∈ f.scope := by
  intro v hv
  cases f with
  | atMost a b =>
    rcases List.mem_cons.mp hv with rfl | hv
    · exact List.mem_cons_of_mem _ List.mem_cons_self
    · obtain ⟨y, hy, rfl⟩ := Option.map_eq_some_iff.mp (Option.mem_toList.mp hv)
      rw [(a.subject?_bounds _).2 y hy]
      exact List.mem_cons_self
  | subset a b =>
    change v ∈ VariableId.set a :: (if _ then _ else _) at hv
    rcases List.mem_cons.mp hv with rfl | hv
    · exact List.mem_cons_self
    · split at hv
      · cases hv
      · rw [List.mem_singleton.mp hv]
        exact List.mem_cons_of_mem _ List.mem_cons_self
  | distinctByValue vars => exact hv
  | distinctByBounds vars => exact hv
  | sumAtMost terms limit => exact hv
  | distinct a b => exact hv
  | disjoint a b => exact hv
  | member x y => exact hv
  | oneNeighbour d g but => exact hv
  | pathNoCycle g source sink => exact hv

theorem judged_subset (f : Filter) (s : Store) : ∀ v ∈ f.judged s, v ∈ f.scope := by
  have hpair : ∀ {a b : SetId} {c : Bool} {v : VariableId},
      v ∈ VariableId.set a :: (if c = true then [] else [VariableId.set b]) →
      v = .set a ∨ v = .set b := by
    intro a b c v hv
    rcases List.mem_cons.mp hv with rfl | hv
    · exact Or.inl rfl
    · split at hv
      · cases hv
      · exact Or.inr (List.mem_singleton.mp hv)
  intro v hv
  cases f with
  | subset a b =>
    rcases hpair hv with rfl | rfl
    · exact List.mem_cons_self
    · exact List.mem_cons_of_mem _ List.mem_cons_self
  | disjoint a b =>
    rcases hpair hv with rfl | rfl
    · exact List.mem_cons_self
    · exact List.mem_cons_of_mem _ List.mem_cons_self
  | atMost a b => exact hv
  | distinctByValue vars => exact hv
  | distinctByBounds vars => exact hv
  | sumAtMost terms limit => exact hv
  | distinct a b => exact hv
  | member x y => exact hv
  | oneNeighbour d g but => exact hv
  | pathNoCycle g source sink => exact hv

theorem require_eq {v : VariableId} (h : s.knows v = true) : s.require v = .ok () := if_pos h

theorem forM_require {vs : List VariableId} (h : ∀ v ∈ vs, s.knows v = true) :
    vs.forM s.require = .ok () := by
  induction vs with
  | nil => rfl
  | cons v rest ih =>
    show (s.require v >>= fun _ => rest.forM s.require) = _
    rw [require_eq (h v List.mem_cons_self)]
    exact ih fun w hw => h w (List.mem_cons_of_mem v hw)

theorem sound_require {sat : Valuation → Prop} {vs : List VariableId}
    (h : ∀ v ∈ vs, s.knows v = true) :
    Sound sat (Filtering.require vs) s fun _ t => t = s := by
  unfold Filtering.require
  refine (Sound.forM (I := fun t => t = s) (F := fun _ => True) ?_ rfl).imp
    fun _ _ _ hpost => hpost.1
  intro v hv t _ ht
  subst ht
  refine Sound.bind_get ?_
  exact Sound.checked (require_eq (h v hv)) ⟨rfl, trivial⟩

/-! ### Runs -/

/-- The position is one that an event can wake: the filter that works on assigned values is woken
    where a variable is fixed. -/
def Expects (f : Filter) (s : Store) (l : LocalId) : Prop :=
  match f with
  | .distinctByValue vars => AllDifferent.FixedAt s vars l.index
  | _ => True

/-- What is known after a run that has done what the positions demand: a filter that does not
    decide its constraint leaves alone what it watches for. -/
structure Served (f : Filter) (served : LocalId → Prop) (s t : Store) : Prop where
  done : ∀ l, served l → f.Done l s t
  calm : f.Decisive ∨ ∀ l, f.Calm l s t

section

variable {sat : Valuation → Prop} {t : Store}

/-- A filter whose demands do not depend on the position. -/
theorem Served.decisive {served : LocalId → Prop} (hf : f.Decisive) (h : ∀ l, f.Done l s t) :
    f.Served served s t :=
  ⟨fun l _ => h l, Or.inl hf⟩

theorem Served.mono {served served' : LocalId → Prop} (h : f.Served served s t)
    (himp : ∀ l, served' l → served l) : f.Served served' s t :=
  ⟨fun l hl => h.done l (himp l hl), h.calm⟩

theorem sound_program (hs : s.Wf) (hr : f.Ready s) (h : f.Granted sat s) :
    Sound sat f.program s fun _ t => f.Served (fun _ => True) s t := by
  have hvalues := fun x hx => hr.values (f := f) (x := x) hx
  cases f with
  | distinctByValue vars =>
    have hapart : AllDifferent.KeptApart vars sat s := fun t hst a ha hsat i => h t hst a ha hsat ⟨i⟩
    exact (AllDifferent.sound_byValue hs hvalues hapart).imp fun _ t _ hpost =>
      .decisive trivial fun l a ha => hpost l.index a ha
  | distinctByBounds vars =>
    have hall := fun t hst a ha hsat => h t hst a ha hsat ⟨0⟩
    exact (AllDifferent.sound_byBounds hs (fun x hx => (hr.ranges x hx).clear)
      (fun t hst a ha hsat => (hall t hst a ha hsat).1)
      fun t hst a ha hsat => (hall t hst a ha hsat).2).imp fun _ _ _ hpost =>
      .decisive trivial fun _ => hpost
  | sumAtMost terms limit =>
    exact (LinearAtMost.sound (l := ⟨0⟩) hs hr h).imp fun _ _ _ hpost =>
      .decisive trivial fun _ => hpost
  | atMost x y =>
    exact (AtMost.sound (l := ⟨0⟩) hs hr h).imp fun _ _ _ hpost => .decisive trivial fun _ => hpost
  | distinct x y =>
    have hx := hvalues x List.mem_cons_self
    have hy := hvalues y (List.mem_cons_of_mem _ List.mem_cons_self)
    exact (Distinct.sound (l := ⟨0⟩) hs hx hy h).imp fun _ _ _ hpost =>
      .decisive trivial fun _ => hpost
  | subset y z =>
    exact (Subset.sound (l := ⟨0⟩) hs h).imp fun _ _ _ hpost => .decisive trivial fun _ => hpost
  | disjoint y z =>
    exact (Disjoint.sound (l := ⟨0⟩) hs h).imp fun _ _ _ hpost => .decisive trivial fun _ => hpost
  | member x y =>
    have hshelters := (hr.ranges x List.mem_cons_self).shelters
    exact (Member.sound (l := ⟨0⟩) hs (hvalues x List.mem_cons_self) hshelters h).imp
      fun _ _ _ hpost => .decisive trivial fun _ => hpost
  | oneNeighbour d g but =>
    exact (OneNeighbour.sound (l := ⟨0⟩) hs h).imp fun _ _ _ hpost => .decisive trivial fun _ => hpost
  | pathNoCycle g source sink =>
    -- this filter is not decisive, but a run leaves the kernel as it is, by which it judges
    refine (PathNoCycle.sound hs hr h).imp fun _ t hst hpost => ?_
    obtain ⟨hkernel, havoids⟩ := hpost
    refine ⟨fun _ _ a ha => ?_, Or.inr fun _ => hkernel⟩
    exact havoids.congr (hst.order g).symm hkernel.symm fun m n hmn =>
      (ha.graph g).envelopeArcs m n hmn

theorem sound_programAt (hs : s.Wf) (hr : f.Ready s) (h : f.Granted sat s) {l : LocalId}
    (hl : f.Expects s l) :
    Sound sat (f.programAt l) s fun _ t => f.Served (f.Handles l) s t := by
  have hwhole : Sound sat f.program s fun _ t => f.Served (f.Handles l) s t :=
    (sound_program hs hr h).imp fun _ _ _ hpost => hpost.mono fun _ _ => trivial
  cases f with
  | distinctByValue vars =>
    have hapart : AllDifferent.KeptApart vars sat s := fun t hst a ha hsat i => h t hst a ha hsat ⟨i⟩
    refine (AllDifferent.sound_byValueAt hs (fun x hx => hr.values hx) hapart hl).imp
      fun _ t _ hpost => ⟨?_, Or.inl trivial⟩
    rintro _ rfl a ha
    exact hpost a ha
  | distinctByBounds vars => exact hwhole
  | sumAtMost terms limit => exact hwhole
  | atMost a b => exact hwhole
  | distinct a b => exact hwhole
  | subset a b => exact hwhole
  | disjoint a b => exact hwhole
  | member x y => exact hwhole
  | oneNeighbour d g but => exact hwhole
  | pathNoCycle g source sink => exact hwhole

/-- Looking up the variables first changes nothing if they exist. -/
theorem sound_guarded {program : Filtering Unit} {post : Unit → Store → Prop}
    (hknown : ∀ v ∈ f.scope, s.knows v = true) (h : Sound sat program s post) : Sound sat (f.guarded program) s post := by
  unfold guarded
  refine Sound.bind_get ?_
  refine Sound.bind (sound_require fun v hv => hknown v (consulted_subset f s v hv)) ?_
  intro _ t _ ht
  rw [ht]
  exact h

end

theorem Expects.steps {l : LocalId} {t : Store} (h : f.Expects s l) (hst : s.Steps t)
    (hs : s.Wf) (hr : f.Ready s) : f.Expects t l := by
  cases f with
  | distinctByValue vars => exact AllDifferent.FixedAt.steps h hst hs
  | _ => trivial

theorem Expects.sameDomains {l : LocalId} {t : Store} (h : f.Expects s l)
    (hst : s.SameDomains t) : f.Expects t l := by
  cases f with
  | distinctByValue vars =>
    obtain ⟨x, hx, hfixed⟩ := h
    exact ⟨x, hx, (IntVar.isFixed_sameDomains hst x).trans hfixed⟩
  | _ => trivial

/-- The filter that works on assigned values subscribes to assignments only. -/
theorem expects_of_watch {w : Watch} {e : Event} (hs : s.Wf) (hr : f.Ready s) (hw : w ∈ f.watches)
    (hmeets : w.events.meets e.wakes = true)
    (hassigned : ∀ x, e = .assign → w.target = .int x → (s.int x).isFixed = true) :
    f.Expects s w.position := by
  cases f with
  | distinctByValue vars =>
    obtain ⟨⟨x, i⟩, hmem, rfl⟩ := List.mem_map.mp hw
    have hi := List.mem_zipIdx_iff_getElem?.mp hmem
    refine ⟨x, hi, ?_⟩
    have hassign : e = .assign := by
      have hevents : (x.watch (.ofList [.assign]) ⟨i⟩).events = .ofList [.assign] := by
        show x.watchedEvents _ = _
        rw [IntVar.watchedEvents_eq]
        split <;> rfl
      rw [hevents] at hmeets
      cases e <;> first | rfl | exact absurd hmeets (by decide)
    rw [IntVar.isFixed_eq hs (hr.values (List.mem_of_getElem? hi))]
    exact hassigned x.base hassign rfl
  | _ => trivial

/-- What a run of a filter comes to that loses no valuation of a relation. -/
structure Ran (f : Filter) (sat : Valuation → Prop) (s : Store) (post : Store → Prop)
    (pass : Pass Filter) : Prop where
  /-- The filter stays as it is. -/
  self : pass.self = f
  /-- The store has made steps. -/
  steps : s.Steps pass.store
  /-- No valuation of the relation is lost. -/
  kept : ∀ a, s.Admits a → sat a → pass.store.Admits a
  /-- What is known after a success. -/
  accepted : pass.refusal? = none → post pass.store
  /-- A refusal is right. -/
  refused : ∀ r, pass.refusal? = some r → ∀ a, s.Admits a → ¬ sat a

theorem Ran.imp {sat : Valuation → Prop} {post post' : Store → Prop} {pass : Pass Filter}
    (h : f.Ran sat s post pass) (himp : ∀ t, post t → post' t) : f.Ran sat s post' pass :=
  ⟨h.self, h.steps, h.kept, fun hsuccess => himp _ (h.accepted hsuccess), h.refused⟩

theorem ran_ofFilter {program : Filtering Unit} {sat : Valuation → Prop} {post : Store → Prop}
    (h : Sound sat program s fun _ t => post t) :
    ∃ pass, Pass.ofFilter f program s = .ok pass ∧ f.Ran sat s post pass := by
  obtain ⟨r, t, hrun, hv⟩ := h
  unfold Pass.ofFilter
  rw [hrun]
  cases r with
  | ok x =>
    refine ⟨_, rfl, rfl, hv.steps, hv.kept, fun _ => hv.accepted x rfl, ?_⟩
    intro r hr
    cases hr
  | error e =>
    refine ⟨_, rfl, rfl, hv.steps, hv.kept, ?_, fun _ _ => hv.refused e rfl⟩
    intro h
    cases h

/-- The first run of a filter for any relation whose valuations grant its demands. -/
theorem initial_granted {sat : Valuation → Prop} (hs : s.Wf) (hr : f.Ready s)
    (h : f.Granted sat s) : ∃ pass, Propagator.initial f s = .ok pass
      ∧ f.Ran sat s (f.Served (fun _ => True) s) pass :=
  ran_ofFilter (sound_guarded hr.known (sound_program hs hr h))

/-- The run of a filter for an event, for any relation whose valuations grant its demands. -/
theorem propagate_granted {sat : Valuation → Prop} (hs : s.Wf) (hr : f.Ready s)
    (h : f.Granted sat s) {l : LocalId} (hl : f.Expects s l) (e : Event) :
    ∃ pass, Propagator.propagate f l e s = .ok pass
      ∧ f.Ran sat s (f.Served (f.Handles l) s) pass :=
  ran_ofFilter (sound_guarded hr.known (sound_programAt hs hr h hl))

/-- The constraint of a filter is such a relation. -/
theorem granted_sat (hs : s.Wf) (hr : f.Ready s) : f.Granted f.Sat s := fun _ hst _ ha hsat l =>
  .of_sat (hst.steps.wf hs) (hr.steps hst.steps hs) ha hsat l

theorem initial_spec (hs : s.Wf) (hr : f.Ready s) :
    ∃ pass, Propagator.initial f s = .ok pass
      ∧ f.Ran f.Sat s (f.Served (fun _ => True) s) pass :=
  initial_granted hs hr (granted_sat hs hr)

theorem propagate_spec (hs : s.Wf) (hr : f.Ready s) {l : LocalId}
    (hl : f.Expects s l) (e : Event) :
    ∃ pass, Propagator.propagate f l e s = .ok pass
      ∧ f.Ran f.Sat s (f.Served (f.Handles l) s) pass :=
  propagate_granted hs hr (granted_sat hs hr) hl e

/-- A run that succeeds has excluded the clashes at its positions where it began. -/
theorem Ran.no_clash {sat : Valuation → Prop} {served : LocalId → Prop} {pass : Pass Filter}
    (h : f.Ran sat s (f.Served served s) pass) (hs : s.Wf) (hr : f.Ready s)
    (hsuccess : pass.refusal? = none) {A : Set LocalId} {l : LocalId} (hl : served l)
    (hA : l ∈ A) : ¬ Clash s f A :=
  ((h.accepted hsuccess).done l hl).no_clash h.steps hs hr hA

/-! ### Judgements -/

/-- A filter that is ready can say what it knows, and it is right. -/
theorem entailment_spec (hf : f.Decisive) (hs : s.Wf) (hr : f.Ready s) :
    ∃ e, f.entailment s = .ok e ∧ Judges f.Sat s (∀ v ∈ f.scope, s.Settles v) e := by
  have hjudged := forM_require (s := s) fun v hv => hr.known v (judged_subset f s v hv)
  have hvalues := fun x hx => hr.values (f := f) (x := x) hx
  have hfixed : (∀ v ∈ f.scope, s.Settles v) → ∀ x ∈ f.views, x.isFixed s = true := fun hall x hx =>
    (fixed_of_settles hs hr hall hx).1
  unfold entailment
  rw [hjudged]
  cases f with
  | distinctByValue vars => exact ⟨_, rfl, (AllDifferent.judges hs hvalues).mono hfixed⟩
  | distinctByBounds vars => exact ⟨_, rfl, (AllDifferent.judges hs hvalues).mono hfixed⟩
  | sumAtMost terms limit =>
    obtain ⟨hlength, -⟩ := hr.sums terms limit rfl
    obtain ⟨e, he, hjudges⟩ := LinearAtMost.judges limit hs hr.ranges hlength
    exact ⟨e, he, hjudges.mono hfixed⟩
  | atMost a b =>
    have ha := List.mem_cons_self (a := a) (l := [b])
    have hb := List.mem_cons_of_mem a (List.mem_cons_self (a := b) (l := []))
    exact ⟨_, rfl, (AtMost.judges hs (hvalues a ha) (hvalues b hb)).mono fun hall =>
      ⟨hfixed hall a ha, hfixed hall b hb⟩⟩
  | distinct a b =>
    have ha := List.mem_cons_self (a := a) (l := [b])
    have hb := List.mem_cons_of_mem a (List.mem_cons_self (a := b) (l := []))
    exact ⟨_, rfl, (Distinct.judges hs (hvalues a ha) (hvalues b hb)).mono fun hall =>
      ⟨hfixed hall a ha, hfixed hall b hb⟩⟩
  | subset a b =>
    exact ⟨_, rfl, (Subset.judges hs).mono fun hall =>
      ⟨hall (.set a) List.mem_cons_self, hall (.set b) (List.mem_cons_of_mem _ List.mem_cons_self)⟩⟩
  | disjoint a b =>
    exact ⟨_, rfl, (Disjoint.judges hs).mono fun hall =>
      ⟨hall (.set a) List.mem_cons_self, hall (.set b) (List.mem_cons_of_mem _ List.mem_cons_self)⟩⟩
  | member x y =>
    have hx := hr.ranges x List.mem_cons_self
    exact ⟨_, rfl, (Member.judges hs (hr.values List.mem_cons_self) hx.shelters).mono fun hall =>
      ⟨hfixed hall x List.mem_cons_self,
        hall (.set y) (List.mem_cons_of_mem _ List.mem_cons_self)⟩⟩
  | oneNeighbour d g but =>
    exact ⟨_, rfl, (OneNeighbour.judges hs).mono fun hall => hall (.graph g) List.mem_cons_self⟩
  | pathNoCycle g source sink => exact hf.elim

/-- Nothing is said about paths before the graph is fixed. -/
theorem entailment_pathNoCycle {g : GraphId} {source sink : Nat}
    (hr : (Filter.pathNoCycle g source sink).Ready s) :
    ∃ e, (Filter.pathNoCycle g source sink).entailment s = .ok e
      ∧ (e = .holds → (s.graph g).isFixed = true) := by
  have hjudged := forM_require (s := s) fun v hv => hr.known v (judged_subset _ s v hv)
  obtain ⟨hsource, hsink⟩ := hr.ends g source sink rfl
  unfold entailment
  rw [hjudged]
  show ∃ e, PathNoCycle.entailment g source sink s = .ok e ∧ _
  unfold PathNoCycle.entailment
  by_cases hfixed : (s.graph g).isFixed = true
  · have hinside : ¬ (s.graph g).order ≤ max source sink := not_le.mpr (max_lt hsource hsink)
    simp only [hfixed, Bool.not_true, Bool.false_eq_true, if_false, hinside]
    split
    · exact ⟨.fails, rfl, nofun⟩
    · exact ⟨.holds, rfl, fun _ => trivial⟩
  · exact ⟨.undecided, by simp only [hfixed, Bool.not_false, if_true], nofun⟩

/-- A filter that is ready can say what it knows. -/
theorem exists_entailment (hs : s.Wf) (hr : f.Ready s) : ∃ e, f.entailment s = .ok e := by
  rcases f.decisive_or with hf | ⟨g, source, sink, rfl⟩
  · obtain ⟨e, he, -⟩ := entailment_spec hf hs hr
    exact ⟨e, he⟩
  · obtain ⟨e, he, -⟩ := entailment_pathNoCycle hr
    exact ⟨e, he⟩

end Filter

end FiniteDomain
