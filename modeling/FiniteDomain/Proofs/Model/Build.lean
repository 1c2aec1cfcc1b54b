import FiniteDomain.Model.Constraint
import FiniteDomain.Proofs.Ascending
import FiniteDomain.Proofs.Filter.Termination
import FiniteDomain.Proofs.Model.Growth

/-! # Building models

    A model is built by statements, each of which adds a variable, posts a
    constraint or narrows a domain.  Whatever has been stated and however that
    has gone, the solver is left without a search in progress, and unless it is
    known to have no solution its space has come to rest (`Solver.Resting`).  A
    solver in such a state does not refuse a statement for a search in progress.

    A statement narrows, posts filters, and adds and names variables.  What these
    keep true of a solver at rest (`Solver.Kept`) every statement does
    (`Statement.upholds_kept`).  So what was there before stays: variables with at
    most the contents that they had, and the filters that were posted
    (`Solver.Onward`). -/

namespace FiniteDomain

/-- Any fault but the complaint that a search is in progress. -/
abbrev Fault.AtRoot (f : Fault) : Prop := f ≠ .searchInProgress

/-! ### Statements -/

/-- A request to a solver that no search is in progress in. -/
inductive Statement where
  /-- There is an integer variable with the values between two bounds. -/
  | bounded (lower upper : Int)
      (fits : Width.value.Fits lower ∧ Width.value.Fits upper) (name? : Option String)
  /-- There is an integer variable with the listed values. -/
  | enumerated (values : List Int) (fits : ∀ v ∈ values, Width.value.Fits v)
      (name? : Option String)
  /-- There is a set variable with elements among the listed ones. -/
  | set (elements : List Int) (name? : Option String)
  /-- There is a graph variable with nodes below the order and arcs among the listed ones. -/
  | graph (order : Nat) (arcs : List (Nat × Nat)) (name? : Option String)
  /-- The constraint holds. -/
  | post (c : Constraint)
  /-- The predicate holds. -/
  | impose (p : Predicate)

theorem Width.fits_zero_two : Width.value.Fits 0 ∧ Width.value.Fits 2 := by decide

/-- What a solver does about a statement. -/
def Statement.program : Statement → Modelling Filter Unit
  | .bounded lower upper _ name? => do let _ ← Modelling.newBounded lower upper name?
  | .enumerated values _ name? => do let _ ← Modelling.newEnumerated values name?
  | .set elements name? => do let _ ← Modelling.newSet elements name?
  | .graph order arcs name? => do let _ ← Modelling.newGraph order arcs name?
  | .post c => Constraint.post c
  | .impose p => Modelling.impose p

/-- The solver after a list of statements; a statement that is refused does not end the list. -/
def Solver.state (sv : Solver Filter) : List Statement → Except Fault (Solver Filter)
  | [] => return sv
  | st :: rest => do
    let (_, sv) ← Modelling.runOn st.program sv
    sv.state rest

/-! ### Posting and narrowing -/

namespace Modelling

open Program

variable {sv : Solver Filter}

theorem run_requireFeasible (h : sv.infeasible = false) :
    (requireFeasible : Modelling Filter Unit).run.run sv = .ok (.ok (), sv) := by
  rw [requireFeasible, run_bind, run_get]
  simp only [Except.bind, h, Bool.false_eq_true, if_false]
  rfl

theorem run_requireFeasible_infeasible (h : sv.infeasible = true) :
    (requireFeasible : Modelling Filter Unit).run.run sv = .ok (.error .infeasibleModel, sv) := by
  rw [requireFeasible, run_bind, run_get]
  simp only [Except.bind, h, if_true]
  rfl

theorem run_requireRoot (h : sv.root? = none) :
    (requireRoot : Modelling Filter Unit).run.run sv = .ok (.ok (), sv) := by
  rw [requireRoot, run_bind, run_get]
  simp only [Except.bind, Solver.isSearching, h, Option.isSome_none, Bool.false_eq_true, if_false]
  rfl

/-- The number of nodes of a graph that exists. -/
theorem run_orderOf {g : GraphId} (hknown : sv.store.knows (.graph g) = true) :
    (Modelling.orderOf g : Modelling Filter Nat).run.run sv
      = .ok (.ok (sv.store.graph g).order, sv) := by
  simp only [Modelling.orderOf, run_bind, run_get, checked, run_lift, Store.require, hknown,
    if_true, Except.map, Except.bind, run_pure]

/-- A node is looked up in a graph that exists. -/
theorem run_requireNode {g : GraphId} (hknown : sv.store.knows (.graph g) = true) {n : Nat}
    (hlt : n < (sv.store.graph g).order) :
    (requireNode g n : Modelling Filter Unit).run.run sv = .ok (.ok (), sv) := by
  simp only [requireNode, run_bind, run_orderOf hknown, Except.bind, if_pos hlt, run_pure]

theorem run_requireNode_refused {g : GraphId} (hknown : sv.store.knows (.graph g) = true) {n : Nat}
    (hle : ¬ n < (sv.store.graph g).order) :
    (requireNode g n : Modelling Filter Unit).run.run sv
      = .ok (.error (.nodeOutOfRange n (sv.store.graph g).order), sv) := by
  simp only [requireNode, run_bind, run_orderOf hknown, Except.bind, if_neg hle, run_throw]

theorem run_post (f : Filter) (hroot : sv.root? = none) (hfeasible : sv.infeasible = false) :
    (post f).run.run sv = (sv.space.post f).bind fun r =>
      match r with
      | (.ok _, space) => .ok (.ok (), { sv with space })
      | (.error c, space) =>
        .ok (.error .infeasibleAddition,
          ({ sv with space, infeasible := true }.observe (.postingRefused c))) := by
  simp only [post, checked, run_bind, run_requireFeasible hfeasible, run_requireRoot hroot,
    run_get, run_lift, Except.bind]
  cases sv.space.post f with
  | error e => rfl
  | ok r =>
    obtain ⟨result, space⟩ := r
    cases result <;> rfl

theorem run_narrow (request : Narrowing) (hroot : sv.root? = none)
    (hfeasible : sv.infeasible = false) :
    (narrow request : Modelling Filter Unit).run.run sv
      = (sv.space.settle [request]).bind fun r =>
        match r with
        | (none, space) => .ok (.ok (), { sv with space })
        | (some c, space) =>
          .ok (.error .infeasibleAddition,
            ({ sv with space := space.dropEvents, infeasible := true }.observe
              (.narrowingRefused c))) := by
  simp only [narrow, checked, run_bind, run_requireFeasible hfeasible, run_requireRoot hroot,
    run_get, run_lift, Except.bind]
  cases sv.space.settle [request] with
  | error e => rfl
  | ok r =>
    obtain ⟨contradiction?, space⟩ := r
    cases contradiction? <;> rfl

/-- Once the model is known to have no solution nothing can be posted. -/
theorem run_post_infeasible (f : Filter) (h : sv.infeasible = true) :
    (post f).run.run sv = .ok (.error .infeasibleModel, sv) := by
  simp only [post, run_bind, run_requireFeasible_infeasible h, Except.bind]

theorem run_narrow_infeasible (request : Narrowing) (h : sv.infeasible = true) :
    (narrow request : Modelling Filter Unit).run.run sv = .ok (.error .infeasibleModel, sv) := by
  simp only [narrow, run_bind, run_requireFeasible_infeasible h, Except.bind]

/-- A filter is posted on the space, unless the model was known to have no solution. -/
theorem post_cases {f : Filter} {r : Except ModelError Unit} {sv' : Solver Filter}
    (hroot : sv.root? = none) (hrun : (post f).run.run sv = .ok (r, sv')) :
    (sv.infeasible = true ∧ r = .error .infeasibleModel ∧ sv' = sv)
      ∨ sv.infeasible = false ∧ ∃ result space, sv.space.post f = .ok (result, space)
        ∧ ((∃ id, result = .ok id ∧ r = .ok () ∧ sv' = { sv with space })
          ∨ ∃ c, result = .error c ∧ r = .error .infeasibleAddition
            ∧ sv' = { sv with space, infeasible := true }.observe (.postingRefused c)) := by
  rcases Bool.eq_false_or_eq_true sv.infeasible with hinfeasible | hfeasible
  · rw [run_post_infeasible f hinfeasible] at hrun
    cases hrun
    exact Or.inl ⟨hinfeasible, rfl, rfl⟩
  · rw [run_post f hroot hfeasible] at hrun
    cases hpost : sv.space.post f with
    | error e => rw [hpost] at hrun; cases hrun
    | ok out =>
      obtain ⟨result, space⟩ := out
      rw [hpost] at hrun
      refine Or.inr ⟨hfeasible, result, space, rfl, ?_⟩
      cases result with
      | error c =>
        cases hrun
        exact Or.inr ⟨c, rfl, rfl, rfl⟩
      | ok id =>
        cases hrun
        exact Or.inl ⟨id, rfl, rfl, rfl⟩

/-- The space is narrowed, unless the model was known to have no solution. -/
theorem narrow_cases {request : Narrowing} {r : Except ModelError Unit} {sv' : Solver Filter}
    (hroot : sv.root? = none) (hrun : (narrow request).run.run sv = .ok (r, sv')) :
    (sv.infeasible = true ∧ r = .error .infeasibleModel ∧ sv' = sv)
      ∨ sv.infeasible = false ∧ ∃ c? space, sv.space.settle [request] = .ok (c?, space)
        ∧ ((c? = none ∧ r = .ok () ∧ sv' = { sv with space })
          ∨ ∃ c, c? = some c ∧ r = .error .infeasibleAddition
            ∧ sv' = { sv with space := space.dropEvents, infeasible := true }.observe
              (.narrowingRefused c)) := by
  -- a model without solutions is left as it is
  rcases Bool.eq_false_or_eq_true sv.infeasible with hinfeasible | hfeasible
  · rw [run_narrow_infeasible request hinfeasible] at hrun
    cases hrun
    exact Or.inl ⟨hinfeasible, rfl, rfl⟩
  · rw [run_narrow request hroot hfeasible] at hrun
    cases hsettle : sv.space.settle [request] with
    | error e => rw [hsettle] at hrun; cases hrun
    | ok out =>
      obtain ⟨c?, space⟩ := out
      rw [hsettle] at hrun
      refine Or.inr ⟨hfeasible, c?, space, rfl, ?_⟩
      cases c? with
      | some c =>
        cases hrun
        exact Or.inr ⟨c, rfl, rfl, rfl⟩
      | none =>
        cases hrun
        exact Or.inl ⟨rfl, rfl, rfl⟩

end Modelling

/-! ### Solvers at rest -/

/-- No search is in progress, and unless the model has no solution nothing is pending. -/
structure Solver.Resting (sv : Solver Filter) : Prop where
  root : sv.root? = none
  levels : sv.levels = []
  decision : sv.decision? = none
  cut : sv.cut? = none
  wf : sv.store.Wf
  lines : sv.space.queue.lines.size = Priority.count
  settled : sv.infeasible = false → sv.space.Settled

namespace Solver

variable {sv : Solver Filter}

theorem resting_empty (random : Random) : (Solver.empty random : Solver Filter).Resting := by
  refine ⟨rfl, rfl, rfl, rfl, Store.wf_empty, rfl, fun _ => ⟨rfl, rfl, fun i p hp => ?_⟩⟩
  simp [Solver.empty, Space.empty] at hp

/-- Everybody may wait, for it may be a fault that somebody is not posted. -/
theorem Resting.runnable (h : sv.Resting) : sv.space.Runnable Fault.AtRoot :=
  ⟨h.wf, Or.inl nofun⟩

/-! ### What statements keep -/

/-- The property implies that the solver is at rest, and it is kept by all that statements consist
    of. -/
structure Kept (I : Solver Filter → Prop) : Prop where
  /-- No search is in progress, and nothing is pending. -/
  resting : ∀ {sv : Solver Filter}, I sv → sv.Resting
  /-- A variable is named. -/
  name : ∀ {sv : Solver Filter} (names : Names), I sv → I { sv with names }
  /-- There is a new variable. -/
  grows : ∀ {sv : Solver Filter} {store : Store}, I sv → sv.store.Grows store →
    store.events = sv.store.events → store.passive = sv.store.passive →
    I { sv with space := { sv.space with store } }
  /-- A filter is posted, with success or not. -/
  post : ∀ {sv sv' : Solver Filter} {f : Filter} {r : Except ModelError Unit}, I sv →
    (Modelling.post f).run.run sv = .ok (r, sv') → I sv'
  /-- A domain is narrowed, with success or not. -/
  narrow : ∀ {sv sv' : Solver Filter} {request : Narrowing} {r : Except ModelError Unit}, I sv →
    (Modelling.narrow request).run.run sv = .ok (r, sv') → I sv'

/-! ### What was there before -/

/-- The second solver is at rest and has what the first has: its variables with at most the contents
    that they have there, its filters, and maybe more. -/
structure Onward (origin sv : Solver Filter) : Prop where
  /-- No search is in progress. -/
  resting : sv.Resting
  /-- Variables stay, and no content is added to them. -/
  store : origin.store.Evolves sv.store
  /-- Filters stay posted. -/
  filters : ∀ i f, origin.space.filterAt? i = some f → sv.space.filterAt? i = some f
  /-- That there is no solution remains known. -/
  infeasible : origin.infeasible = true → sv.infeasible = true

variable {origin sv' : Solver Filter}

theorem Resting.onward (h : sv.Resting) : sv.Onward sv :=
  ⟨h, .refl _, fun _ _ hf => hf, fun hinfeasible => hinfeasible⟩

theorem Onward.then (h : origin.Onward sv) (hresting : sv'.Resting)
    (hstore : sv.store.Evolves sv'.store)
    (hfilters : ∀ i f, sv.space.filterAt? i = some f → sv'.space.filterAt? i = some f)
    (hinfeasible : sv.infeasible = true → sv'.infeasible = true) : origin.Onward sv' :=
  ⟨hresting, h.store.trans hstore, fun i f hf => hfilters i f (h.filters i f hf),
    fun horigin => hinfeasible (h.infeasible horigin)⟩

theorem Onward.name (h : origin.Onward sv) (names : Names) :
    origin.Onward { sv with names := names } := by
  obtain ⟨hroot, hlevels, hdecision, hcut, hwf, hlines, hsettled⟩ := h.resting
  exact h.then ⟨hroot, hlevels, hdecision, hcut, hwf, hlines, hsettled⟩ (.refl _)
    (fun _ _ hf => hf) fun hinfeasible => hinfeasible

/-- A new variable does not disturb a solver at rest. -/
theorem Onward.withStore (h : origin.Onward sv) {store : Store} (hgrows : sv.store.Grows store)
    (hevents : store.events = sv.store.events) :
    origin.Onward { sv with space := { sv.space with store } } := by
  obtain ⟨hroot, hlevels, hdecision, hcut, hwf, hlines, hsettled⟩ := h.resting
  refine h.then ⟨hroot, hlevels, hdecision, hcut, hgrows.wf, hlines, fun hfeasible => ?_⟩
    hgrows.evolves (fun _ _ hf => hf) fun hinfeasible => hinfeasible
  obtain ⟨hnone, hqueue, hpending⟩ := hsettled hfeasible
  exact ⟨hevents.trans hnone, hqueue, hpending⟩

end Solver

/-! ### Faults -/

theorem tolerates_atRoot : Filtering.Tolerates Fault.AtRoot := ⟨nofun, nofun⟩

theorem AffineMap.raises_make (scale offset : Int) :
    RaisesOnly Fault.AtRoot (AffineMap.make scale offset) := by
  unfold make
  split
  · refine .error fun heq => ?_
    cases heq
  · exact .ok _

theorem IntVar.raises_scaled (x : IntVar) (factor : Int) :
    RaisesOnly Fault.AtRoot (x.scaled factor) := by
  cases x with
  | plain y => exact (AffineMap.raises_make factor 0).bind fun _ _ => .ok _
  | view inner map =>
    refine RaisesOnly.bind ?_ fun _ _ => .ok _
    unfold AffineMap.scaled
    split
    · exact AffineMap.raises_make _ _
    · refine .error fun heq => ?_
      cases heq

theorem IntVar.raises_shifted (x : IntVar) (shift : Int) :
    RaisesOnly Fault.AtRoot (x.shifted shift) := by
  cases x with
  | plain y => exact (AffineMap.raises_make 1 shift).bind fun _ _ => .ok _
  | view inner map =>
    refine RaisesOnly.bind ?_ fun _ _ => .ok _
    unfold AffineMap.shifted
    split
    · exact .ok _
    · refine .error fun heq => ?_
      cases heq

theorem IntVar.raises_mapM_negated (terms : List IntVar) :
    RaisesOnly Fault.AtRoot (terms.mapM IntVar.negated) := by
  induction terms with
  | nil => exact .ok _
  | cons x rest ih =>
    rw [List.mapM_cons]
    exact (x.raises_scaled (-1)).bind fun _ _ => ih.bind fun _ _ => .ok _

theorem IntegerDomain.raises_enumerated (values : List Int) :
    RaisesOnly Fault.AtRoot (IntegerDomain.enumerated values) := by
  cases values with
  | nil => exact .error nofun
  | cons v rest => exact .ok _

theorem GraphDomain.raises_subgraphsOf (order : Nat) (arcs : List (Nat × Nat)) :
    RaisesOnly Fault.AtRoot (GraphDomain.subgraphsOf order arcs) := by
  unfold subgraphsOf
  split
  · exact .ok _
  · exact .error nofun

theorem Narrowing.raises_check (request : Narrowing) (s : Store) :
    RaisesOnly Fault.AtRoot (request.check s) := by
  have hsubject : RaisesOnly Fault.AtRoot (request.subject?.forM s.require) := by
    cases request.subject? with
    | none => exact .ok _
    | some v => exact tolerates_atRoot.require s v
  have hnode : ∀ c : Prop, [Decidable c] →
      RaisesOnly Fault.AtRoot (if c then .ok () else .error .assertionFailed) := by
    intro c _
    split
    · exact .ok _
    · exact .error nofun
  refine hsubject.bind fun _ _ => ?_
  cases request <;> first | exact .ok _ | exact hnode _

/-! ### What was there before stays -/

namespace Modelling

open Program Solver

variable {origin sv : Solver Filter}

/-- The filter is entered, and then propagators are run. -/
theorem onward_post (h : origin.Onward sv) {f : Filter} {r : Except ModelError Unit}
    {sv' : Solver Filter} (hrun : (post f).run.run sv = .ok (r, sv')) : origin.Onward sv' := by
  obtain ⟨hroot, hlevels, hdecision, hcut, hwf, hlines, hsettled⟩ := h.resting
  rcases post_cases hroot hrun with ⟨-, -, rfl⟩ | ⟨hfeasible, result, space, hpost, hend⟩
  · exact h
  have hleads := Space.leads_post hwf hpost
  have hlines' := hleads.lines.trans hlines
  have hstore : sv.store.Evolves space.store := (hleads.store.narrower hwf).evolves
  have hfilters : ∀ i g, sv.space.filterAt? i = some g → space.filterAt? i = some g := by
    intro i g hg
    rw [hleads.filterAt, Space.filterAt?_entered, if_neg (Nat.ne_of_lt (Space.filterAt?_lt hg))]
    exact hg
  rcases hend with ⟨id, rfl, -, rfl⟩ | ⟨c, rfl, -, rfl⟩
  · exact h.then ⟨hroot, hlevels, hdecision, hcut, hleads.wf hwf, hlines',
      fun _ => Space.settled_post (hsettled hfeasible) hpost⟩ hstore hfilters
      fun hinfeasible => hinfeasible
  · exact h.then ⟨hroot, hlevels, hdecision, hcut, hleads.wf hwf, hlines', nofun⟩ hstore hfilters
      fun _ => rfl

/-- The domain is narrowed, and then propagators are run. -/
theorem onward_narrow (h : origin.Onward sv) {request : Narrowing} {r : Except ModelError Unit}
    {sv' : Solver Filter} (hrun : (narrow request).run.run sv = .ok (r, sv')) :
    origin.Onward sv' := by
  obtain ⟨hroot, hlevels, hdecision, hcut, hwf, hlines, hsettled⟩ := h.resting
  rcases narrow_cases hroot hrun with ⟨-, -, rfl⟩ | ⟨hfeasible, c?, space, hsettle, hend⟩
  · exact h
  have hleads := Space.leads_settle hwf hsettle
  have hlines' := hleads.lines.trans hlines
  have hwf' := hleads.wf hwf
  have hfilters : ∀ i g, sv.space.filterAt? i = some g → space.filterAt? i = some g :=
    fun i g hg => (hleads.filterAt i).trans hg
  rcases hend with ⟨rfl, -, rfl⟩ | ⟨c, rfl, -, rfl⟩
  · exact h.then ⟨hroot, hlevels, hdecision, hcut, hwf', hlines',
      fun _ => Space.settled_settle (hsettled hfeasible).alert hsettle⟩
      (hleads.store.narrower hwf).evolves hfilters fun hinfeasible => hinfeasible
  · have hdropped := hleads.trans (Space.leads_dropEvents space)
    exact h.then ⟨hroot, hlevels, hdecision, hcut, hwf'.dropEvents, hlines', nofun⟩
      (hdropped.store.narrower hwf).evolves hfilters fun _ => rfl

end Modelling

/-- Statements keep what was there before. -/
theorem Solver.kept_onward (origin : Solver Filter) : Kept origin.Onward where
  resting := Onward.resting
  name := fun names h => h.name names
  grows := fun h hgrows hevents _ => h.withStore hgrows hevents
  post := fun h hrun => Modelling.onward_post h hrun
  narrow := fun h hrun => Modelling.onward_narrow h hrun

/-! ### What all statements keep -/

theorem Modelling.upholds_checked {I : Solver Filter → Prop} {α : Type} {result : Except Fault α}
    (h : RaisesOnly Fault.AtRoot result) :
    Program.Upholds Fault.AtRoot I (Modelling.checked result : Modelling Filter α) :=
  Program.upholds_lift h

theorem Modelling.pairwise_sortedDistinct (values : List Int) :
    (Modelling.sortedDistinct values).Pairwise (· < ·) :=
  (pairwise_sortedReps values).1

namespace Solver.Kept

open Program Modelling Constraint

variable {I : Solver Filter → Prop}

section

variable (hI : Kept I)

include hI

theorem upholds_requireRoot : Upholds Fault.AtRoot I requireRoot where
  keeps := by
    intro sv r sv' h hrun
    rw [run_requireRoot (hI.resting h).root] at hrun
    cases hrun
    exact h
  raises := by
    intro sv h
    rw [run_requireRoot (hI.resting h).root]
    exact .ok _

theorem upholds_name (v : VariableId) (name? : Option String) :
    Upholds Fault.AtRoot I (Modelling.name v name?) := by
  cases name? with
  | none => exact upholds_pure _
  | some text => exact upholds_modify fun sv h => hI.name _ h

theorem upholds_withStore {α : Type} {change : Store → α × Store}
    (hgrows : ∀ s : Store, s.Wf → s.Grows (change s).2)
    (hrest : ∀ s : Store, (change s).2.events = s.events ∧ (change s).2.passive = s.passive) :
    Upholds Fault.AtRoot I (withStore change) := by
  refine upholds_of_run (fun sv => (.ok (change sv.store).1,
    { sv with space := { sv.space with store := (change sv.store).2 } })) (fun _ => rfl) ?_
  intro sv h
  exact hI.grows h (hgrows _ (hI.resting h).wf) (hrest sv.store).1 (hrest sv.store).2

theorem upholds_newBounded {lower upper : Int}
    (fits : Width.value.Fits lower ∧ Width.value.Fits upper) (name? : Option String) :
    Upholds Fault.AtRoot I (newBounded lower upper name?) := by
  unfold newBounded
  refine upholds_guard fun hle => hI.upholds_requireRoot.bind fun _ =>
    (hI.upholds_withStore (fun s hs => Store.grows_addInt hs ?_) fun _ => ⟨rfl, rfl⟩).bind fun x =>
      (hI.upholds_name _ _).bind fun _ => upholds_pure _
  obtain ⟨⟨hlow, -⟩, -, hhigh⟩ := fits
  simp only [Width.value] at hlow hhigh
  exact IntegerDomain.bounded_wf (by omega) (by omega)

theorem upholds_newEnumerated (values : List Int) (name? : Option String) :
    Upholds Fault.AtRoot I (newEnumerated values name?) := by
  unfold newEnumerated
  refine upholds_guard fun _ => hI.upholds_requireRoot.bind fun _ =>
    upholds_lift_bind (IntegerDomain.raises_enumerated _) fun d hd => ?_
  have hwf := IntegerDomain.enumerated_wf (pairwise_sortedDistinct values) hd
  exact (hI.upholds_withStore (fun s hs => Store.grows_addInt hs hwf) fun _ => ⟨rfl, rfl⟩).bind
    fun x => (hI.upholds_name _ _).bind fun _ => upholds_pure _

theorem upholds_newSet (elements : List Int) (name? : Option String) :
    Upholds Fault.AtRoot I (newSet elements name?) := by
  have hwf := SetDomain.subsetsOf_wf (pairwise_sortedDistinct elements)
  exact hI.upholds_requireRoot.bind fun _ =>
    (hI.upholds_withStore (fun s hs => Store.grows_addSet hs hwf) fun _ => ⟨rfl, rfl⟩).bind
      fun y => (hI.upholds_name _ _).bind fun _ => upholds_pure _

theorem upholds_newGraph (order : Nat) (arcs : List (Nat × Nat)) (name? : Option String) :
    Upholds Fault.AtRoot I (newGraph order arcs name?) := by
  have hrest : Upholds Fault.AtRoot I (do
      requireRoot
      let d ← checked (GraphDomain.subgraphsOf order arcs)
      let g ← withStore (·.addGraph d)
      Modelling.name (.graph g) name?
      return g : Modelling Filter GraphId) := by
    refine hI.upholds_requireRoot.bind fun _ =>
      upholds_lift_bind (GraphDomain.raises_subgraphsOf _ _) fun d hd => ?_
    have hwf := (GraphDomain.subgraphsOf_spec hd).1
    exact (hI.upholds_withStore (fun s hs => Store.grows_addGraph hs hwf) fun _ => ⟨rfl, rfl⟩).bind
      fun g => (hI.upholds_name _ _).bind fun _ => upholds_pure _
  unfold newGraph
  simp only
  split
  · exact (upholds_throw _).bind fun _ => hrest
  · exact hrest

theorem upholds_filter (f : Filter) : Upholds Fault.AtRoot I (Modelling.post f) where
  keeps := fun _ _ _ h hrun => hI.post h hrun
  raises := by
    intro sv h
    cases hfeasible : sv.infeasible with
    | true =>
      rw [run_post_infeasible f hfeasible]
      exact .ok _
    | false =>
      rw [run_post f (hI.resting h).root hfeasible]
      refine (Space.post_raises (Filter.disciplined_filter tolerates_atRoot)
        (hI.resting h).runnable f).bind ?_
      intro out _
      obtain ⟨result, space⟩ := out
      cases result <;> exact .ok _

theorem upholds_narrow (request : Narrowing) :
    Upholds Fault.AtRoot I (Modelling.narrow request) where
  keeps := fun _ _ _ h hrun => hI.narrow h hrun
  raises := by
    intro sv h
    cases hfeasible : sv.infeasible with
    | true =>
      rw [run_narrow_infeasible request hfeasible]
      exact .ok _
    | false =>
      rw [run_narrow request (hI.resting h).root hfeasible]
      have hcheck : ∀ r ∈ [request], ∀ s, RaisesOnly Fault.AtRoot (r.check s) :=
        fun r _ s => r.raises_check s
      refine (Space.settle_raises (Filter.disciplined_filter tolerates_atRoot) hcheck
        (hI.resting h).runnable).bind ?_
      intro out _
      obtain ⟨contradiction?, space⟩ := out
      cases contradiction? <;> exact .ok _

omit hI in
theorem upholds_orderOf (g : GraphId) : Upholds Fault.AtRoot I (orderOf g) :=
  upholds_get.bind fun sv =>
    (upholds_checked (tolerates_atRoot.require sv.store _)).bind fun _ => upholds_pure _

omit hI in
theorem upholds_requireNode (g : GraphId) (n : Nat) :
    Upholds Fault.AtRoot I (requireNode g n) :=
  (upholds_orderOf g).bind fun _ => upholds_ite (upholds_pure _) (upholds_throw _)

/-! ### Constraints -/

theorem upholds_postSumAtMost (terms : List IntVar) (limit : Int) :
    Upholds Fault.AtRoot I (postSumAtMost (P := Filter) terms limit) := by
  unfold postSumAtMost
  exact upholds_guard fun _ => hI.upholds_filter _

theorem upholds_postSumEquals (terms : List IntVar) (sum : Int) :
    Upholds Fault.AtRoot I (postSumEquals (P := Filter) terms sum) :=
  (upholds_checked (IntVar.raises_mapM_negated terms)).bind fun _ =>
    (hI.upholds_postSumAtMost _ _).bind fun _ => hI.upholds_postSumAtMost _ _

theorem upholds_postOneNeighbour (d : Direction) (g : GraphId) (but : Nat) :
    Upholds Fault.AtRoot I (postOneNeighbour (P := Filter) d g but) :=
  (upholds_requireNode g but).bind fun _ => hI.upholds_filter _

theorem upholds_postPathNoCycle (g : GraphId) (source sink : Nat) :
    Upholds Fault.AtRoot I (postPathNoCycle (P := Filter) g source sink) :=
  (upholds_requireNode g source).bind fun _ => (upholds_requireNode g sink).bind fun _ =>
    hI.upholds_filter _

theorem upholds_postHamiltonianPath (g : GraphId) (source sink : Nat) :
    Upholds Fault.AtRoot I (postHamiltonianPath (P := Filter) g source sink) := by
  refine (upholds_requireNode g source).bind fun _ => (upholds_requireNode g sink).bind fun _ => ?_
  refine (upholds_orderOf g).bind fun _ => ?_
  refine (upholds_forM fun n => ?_).bind fun _ => ?_
  · exact (upholds_requireNode g n).bind fun _ => hI.upholds_narrow _
  · exact (hI.upholds_postOneNeighbour _ _ _).bind fun _ =>
      (hI.upholds_postOneNeighbour _ _ _).bind fun _ =>
      hI.upholds_postPathNoCycle g source sink

end

mutual

theorem upholds_post (hI : Kept I) :
    (c : Constraint) → Upholds Fault.AtRoot I (Constraint.post (P := Filter) c)
  | .allDifferent vars strength => by
    unfold Constraint.post
    exact upholds_guard fun _ => upholds_guard fun _ => hI.upholds_filter _
  | .sumAtMost terms limit => hI.upholds_postSumAtMost terms limit
  | .sumEquals terms sum => hI.upholds_postSumEquals terms sum
  | .atMost a b => hI.upholds_filter _
  | .less a b => (upholds_checked (b.raises_shifted _)).bind fun _ => hI.upholds_filter _
  | .equal a b => (upholds_checked (a.raises_scaled _)).bind fun _ =>
      (upholds_checked (b.raises_scaled _)).bind fun _ =>
      hI.upholds_postSumEquals _ _
  | .distinct a b => hI.upholds_filter _
  | .differs x k => hI.upholds_narrow _
  | .subset a b => hI.upholds_filter _
  | .disjoint a b => hI.upholds_filter _
  | .member x y => hI.upholds_filter _
  | .oneNeighbour d g but => hI.upholds_postOneNeighbour d g but
  | .pathNoCycle g source sink => hI.upholds_postPathNoCycle g source sink
  | .hamiltonianPath g source sink => hI.upholds_postHamiltonianPath g source sink
  | .all constraints => upholds_postAll hI constraints

theorem upholds_postAll (hI : Kept I) : (constraints : List Constraint) →
    Upholds Fault.AtRoot I (postAll (P := Filter) constraints)
  | [] => upholds_pure _
  | c :: rest => (upholds_post hI c).bind fun _ => upholds_postAll hI rest

end

end Solver.Kept

/-- A statement keeps what all that it consists of keeps, and it is not refused for a search in
    progress. -/
theorem Statement.upholds_kept {I : Solver Filter → Prop} (hI : Solver.Kept I) (st : Statement) :
    Program.Upholds Fault.AtRoot I st.program := by
  have hvoid : ∀ {α : Type} {p : Modelling Filter α},
      Program.Upholds Fault.AtRoot I p →
      Program.Upholds Fault.AtRoot I (do let _ ← p) :=
    fun hp => hp.bind fun _ => Program.upholds_pure _
  cases st with
  | bounded lower upper fits name? => exact hvoid (hI.upholds_newBounded fits name?)
  | enumerated values fits name? => exact hvoid (hI.upholds_newEnumerated values name?)
  | set elements name? => exact hvoid (hI.upholds_newSet elements name?)
  | graph order arcs name? => exact hvoid (hI.upholds_newGraph order arcs name?)
  | post c => exact hI.upholds_post c
  | impose p => exact hI.upholds_narrow _

/-- A statement leaves a solver at rest that has what was there before. -/
theorem Statement.upholds_onward (origin : Solver Filter) (st : Statement) :
    Program.Upholds Fault.AtRoot origin.Onward st.program :=
  st.upholds_kept (Solver.kept_onward origin)

/-- A statement leaves a solver at rest, and it is not refused for a search in progress. -/
theorem Statement.upholds_program (st : Statement) :
    Program.Upholds Fault.AtRoot Solver.Resting st.program where
  keeps := fun sv _ _ h hrun => ((st.upholds_onward sv).keeps _ _ _ h.onward hrun).resting
  raises := fun sv h => (st.upholds_onward sv).raises sv h.onward

/-- What was there before a list of statements is there afterwards. -/
theorem Solver.Onward.state {origin sv sv' : Solver Filter} {statements : List Statement}
    (h : origin.Onward sv) (hrun : sv.state statements = .ok sv') : origin.Onward sv' := by
  induction statements generalizing sv with
  | nil =>
    cases hrun
    exact h
  | cons st rest ih =>
    simp only [Solver.state, bind, Except.bind] at hrun
    split at hrun
    · cases hrun
    next r hr => exact ih ((st.upholds_onward origin).keeps _ _ _ h hr) hrun

end FiniteDomain
