import FiniteDomain.Proofs.Filter.Judgement
import FiniteDomain.Proofs.Propagation.Fixpoint
import FiniteDomain.Proofs.Store.Changes

/-! # Propagation leaves nothing to do

    A filter that is at rest on a store would change nothing if it were run again
    (`Filter.Rests.initial`).  Over enumerated domains propagation ends only when
    all filters are at rest, also the passive ones and those of paths, which never
    check their constraint.

    A `Course` is a history of a space: filters are posted, domains are narrowed,
    propagation is run, and the space goes back to moments when it was at rest.
    Wherever a course has led, a propagation that meets no contradiction reaches a
    common fixpoint of all filters (`common_fixpoint`). -/

namespace FiniteDomain

namespace Filter

variable {f : Filter} {s : Store}

/-- The first run of a filter at rest succeeds and changes nothing. -/
theorem Rests.initial (h : f.Rests s) (hs : s.Wf) (hr : f.Ready s) :
    ∃ pass, Propagator.initial f s = .ok pass ∧ pass.refusal? = none ∧ pass.store = s := by
  -- all valuations of the store grant what is demanded, and a run may lose none of them
  have hgranted : f.Granted s.Admits s := by
    intro t hst a ha _ l
    have hsame := hst.steps.eq_of_admits hs fun b hb => hst.kept b hb hb
    exact hsame ▸ h l a (hsame ▸ ha)
  obtain ⟨pass, hpass, hran⟩ := initial_granted hs hr hgranted
  exact ⟨pass, hpass, hran.idle hs fun _ ha => ha⟩

end Filter

namespace Space

variable {sp sp' base : Space Filter} {f : Filter} {i : Nat}

/-! ### Spaces at rest -/

/-- The filters of a space at rest are at rest, whether they are passive or not. -/
theorem Watchful.rests (h : sp.Watchful .unrest fun _ _ => False) (hsettled : sp.Settled)
    (hf : sp.filterAt? i = some f) : f.Rests sp.store := by
  cases hpassive : sp.store.isPassive ⟨i⟩ with
  | true =>
    obtain ⟨g, hg, hspent⟩ := h.closed i hpassive
    obtain rfl : g = f := Option.some.inj (hg.symm.trans hf)
    exact Concern.Spent.rests hspent h.wf (h.ready i g hf)
  | false => exact Concern.rests_of_not_unrest (h.not_amiss hsettled ⟨hf, hpassive⟩)

/-- A first run of any posted filter succeeds and changes nothing. -/
def Steady (sp : Space Filter) : Prop :=
  ∀ i f, sp.filterAt? i = some f → ∃ pass, Propagator.initial f sp.store = .ok pass
    ∧ pass.refusal? = none ∧ pass.store = sp.store

theorem Watchful.steady (h : sp.Watchful .unrest fun _ _ => False) (hsettled : sp.Settled) :
    sp.Steady :=
  fun i f hf => (h.rests hsettled hf).initial h.wf (h.ready i f hf)

/-! ### Courses -/

/-- What can be done with a space next. -/
inductive Standing where
  /-- Propagation has come to rest, and nothing was narrowed since. -/
  | rest
  /-- Propagation has not come to rest. -/
  | stirred
  /-- A request has failed, so the space has to go back. -/
  | failed
deriving DecidableEq

/-- What a propagation leads to. -/
def Standing.ofSuccess (success : Bool) : Standing := if success then .rest else .failed

/-- What a narrowing leads to. -/
def Standing.narrowed (before : Standing) : (changed? : Option Bool) → Standing
  | none => .failed
  | some true => .stirred
  | some false => before

/-- The histories of a space, with the checkpoints that can be gone back to, the latest first:
    those taken at rest since a filter was last posted, unless the space has gone back behind
    them. -/
inductive Course : Space Filter → List Checkpoint → Standing → Prop where
  /-- The variables are there, and nothing has happened to them. -/
  | start {s : Store} (wf : s.Wf) (events : s.events = EventSink.empty)
      (passive : ∀ p, s.isPassive p = false) : Course { Space.empty with store := s } [] .stirred
  /-- A filter over enumerated domains is posted. -/
  | post {sp sp' : Space Filter} {marks : List Checkpoint} {standing : Standing} {f : Filter}
      {result : Except Contradiction PropagatorId} (before : Course sp marks standing)
      (able : standing ≠ .failed) (enumerated : f.Enumerated sp.store) (ready : f.Ready sp.store)
      (run : sp.post f = .ok (result, sp')) : Course sp' [] (.ofSuccess result.isOk)
  /-- A domain is narrowed. -/
  | narrow {sp : Space Filter} {marks : List Checkpoint} {standing : Standing} {request : Narrowing}
      {n : Narrowed} (before : Course sp marks standing) (able : standing ≠ .failed)
      (run : request.run sp.store = .ok n) :
      Course { sp with store := n.store } marks (standing.narrowed n.changed?)
  /-- Propagators are run. -/
  | propagate {sp sp' : Space Filter} {marks : List Checkpoint} {standing : Standing}
      {c? : Option Contradiction} (before : Course sp marks standing) (able : standing ≠ .failed)
      (run : sp.propagate = .ok (c?, sp')) : Course sp' marks (.ofSuccess c?.isNone)
  /-- A checkpoint is taken at rest. -/
  | mark {sp : Space Filter} {marks : List Checkpoint} (before : Course sp marks .rest) :
      Course sp (sp.store.checkpoint :: marks) .rest
  /-- The space goes back. -/
  | undo {sp sp' : Space Filter} {newer older : List Checkpoint} {c : Checkpoint}
      {standing : Standing} (before : Course sp (newer ++ c :: older) standing)
      (run : sp.backtrackTo c = .ok sp') : Course sp' (c :: older) .rest

/-- Each checkpoint was taken at rest, and the space has been narrowed since. -/
inductive Backed : List Checkpoint → Space Filter → Prop where
  /-- There is no checkpoint. -/
  | nil {sp : Space Filter} : Backed [] sp
  /-- The latest checkpoint. -/
  | cons {base sp : Space Filter} {marks : List Checkpoint}
      (watchful : base.Watchful .unrest fun _ _ => False) (settled : base.Settled)
      (leads : base.Leads sp) (outer : Backed marks base) :
      Backed (base.store.checkpoint :: marks) sp

namespace Backed

variable {marks older newer : List Checkpoint} {c : Checkpoint}

theorem mono (h : Backed marks sp) (hleads : sp.Leads sp') : Backed marks sp' := by
  cases h with
  | nil => exact .nil
  | cons watchful settled leads outer => exact .cons watchful settled (leads.trans hleads) outer

/-- The space in which a checkpoint was taken. -/
theorem exists_base (h : Backed (newer ++ c :: older) sp) :
    ∃ base : Space Filter, base.Watchful .unrest (fun _ _ => False) ∧ base.Settled
      ∧ c = base.store.checkpoint ∧ base.Leads sp ∧ Backed older base := by
  induction newer generalizing sp with
  | nil =>
    cases h with
    | cons watchful settled leads outer => exact ⟨_, watchful, settled, rfl, leads, outer⟩
  | cons head rest ih =>
    cases h with
    | cons watchful settled leads outer =>
      obtain ⟨base, hwatchful, hsettled, hc, hleads, houter⟩ := ih outer
      exact ⟨base, hwatchful, hsettled, hc, hleads.trans leads, houter⟩

end Backed

/-- What is kept along a course. -/
structure Kept (sp : Space Filter) (marks : List Checkpoint) (standing : Standing) : Prop where
  watchful : standing ≠ .failed → sp.Watchful .unrest fun _ _ => False
  settled : standing = .rest → sp.Settled
  backed : Backed marks sp

/-- What is known after a propagation that came to rest or failed. -/
theorem Kept.ofSuccess {marks : List Checkpoint} {success : Bool} (hbacked : Backed marks sp)
    (h : success = true → sp.Watchful .unrest (fun _ _ => False) ∧ sp.Settled) :
    Kept sp marks (.ofSuccess success) := by
  cases success with
  | true => exact ⟨fun _ => (h rfl).1, fun _ => (h rfl).2, hbacked⟩
  | false => exact ⟨fun hne => absurd rfl hne, nofun, hbacked⟩

theorem Kept.narrow {marks : List Checkpoint} {standing : Standing} {request : Narrowing}
    {n : Narrowed} (h : Kept sp marks standing) (hable : standing ≠ .failed)
    (hrun : request.run sp.store = .ok n) :
    Kept { sp with store := n.store } marks (standing.narrowed n.changed?) := by
  have hwatchful := h.watchful hable
  simp only [Narrowing.run, bind, Except.bind] at hrun
  split at hrun
  · cases hrun
  obtain rfl := Except.ok.inj hrun
  have hsteps := request.apply_steps hwatchful.wf
  have hst := Store.steps_apply hwatchful.wf request
  refine ⟨fun _ => hwatchful.steps hst, fun hrest => ?_,
    h.backed.mono ⟨hst.toExtends, fun _ => rfl, rfl, rfl⟩⟩
  -- nothing has happened if the space is still at rest
  have hidle : (request.apply sp.store).changed? = some false ∧ standing = .rest := by
    cases hc : (request.apply sp.store).changed? with
    | none => rw [hc] at hrest; cases hrest
    | some changed =>
      rw [hc] at hrest
      cases changed with
      | true => cases hrest
      | false => exact ⟨rfl, hrest⟩
  have hsame : (request.apply sp.store).store = sp.store :=
    hsteps.same (by rw [hidle.1]; decide)
  have hsettled := h.settled hidle.2
  exact ⟨(congrArg Store.events hsame).trans hsettled.events, hsettled.queue, hsettled.pending⟩

/-- Going back leads to a space at rest. -/
theorem Kept.undo {newer older : List Checkpoint} {c : Checkpoint} {standing : Standing}
    (h : Kept sp (newer ++ c :: older) standing) (hrun : sp.backtrackTo c = .ok sp') :
    Kept sp' (c :: older) .rest := by
  obtain ⟨base, hwatchful, hsettled, rfl, hleads, houter⟩ := h.backed.exists_base
  obtain ⟨t, hback, halike⟩ := backtrackTo_leads hsettled hwatchful.wf hleads
  obtain rfl : t = sp' := Except.ok.inj (hback.symm.trans hrun)
  refine ⟨fun _ => hwatchful.alike halike, fun _ => ?_, .cons hwatchful hsettled halike.leads houter⟩
  refine ⟨(congrArg Store.events halike.store).trans hsettled.events,
    halike.queue.trans hsettled.queue, fun i p hp => ?_⟩
  rw [halike.posted] at hp
  exact hsettled.pending i p hp

theorem Course.kept {marks : List Checkpoint} {standing : Standing}
    (h : Course sp marks standing) : Kept sp marks standing := by
  -- on the history; posting forgets the checkpoints, so that `Backed` starts anew
  induction h with
  | start wf events passive =>
    exact ⟨fun _ => watchful_start wf events passive, nofun, .nil⟩
  | post before able enumerated ready run ih =>
    have hwatchful := ih.watchful able
    obtain ⟨c?, sp', hpost, -, hend⟩ := post_spec hwatchful enumerated ready
      (hwatchful.entered enumerated ready).spares_satisfies
    obtain ⟨rfl, rfl⟩ := Prod.mk.inj (Except.ok.inj (hpost.symm.trans run))
    refine .ofSuccess .nil fun hok => hend ?_
    cases c? with
    | none => rfl
    | some c => cases hok
  | narrow before able run ih => exact ih.narrow able run
  | propagate before able run ih =>
    have hwatchful := ih.watchful able
    obtain ⟨c?, sp', hpropagate, hconclude, hend⟩ :=
      propagate_spec hwatchful hwatchful.spares_satisfies
    obtain ⟨rfl, rfl⟩ := Prod.mk.inj (Except.ok.inj (hpropagate.symm.trans run))
    exact .ofSuccess (ih.backed.mono hconclude.leads) fun hok => hend (Option.isNone_iff_eq_none.mp hok)
  | mark before ih =>
    exact ⟨ih.watchful, ih.settled,
      .cons (ih.watchful (by decide)) (ih.settled rfl) (.refl _) ih.backed⟩
  | undo before run ih => exact ih.undo run

/-! ### Common fixpoints -/

/-- Propagating and posting always come to an end, and unless they meet a contradiction, no filter
    that is posted would do anything if it were run once more, whether it is passive or not. -/
theorem common_fixpoint {marks : List Checkpoint} {standing : Standing}
    (h : Course sp marks standing) (hable : standing ≠ .failed) :
    (∃ c? sp', sp.propagate = .ok (c?, sp') ∧ (c? = none → sp'.Steady))
      ∧ ∀ f : Filter, f.Enumerated sp.store → f.Ready sp.store →
        ∃ result sp', sp.post f = .ok (result, sp') ∧ ∀ id, result = .ok id → sp'.Steady := by
  have hwatchful := h.kept.watchful hable
  constructor
  · obtain ⟨c?, sp', hrun, -, hend⟩ := propagate_spec hwatchful hwatchful.spares_satisfies
    exact ⟨c?, sp', hrun, fun hnone => (hend hnone).1.steady (hend hnone).2⟩
  · intro f henum hready
    obtain ⟨c?, sp', hrun, -, hend⟩ := post_spec hwatchful henum hready
      (hwatchful.entered henum hready).spares_satisfies
    refine ⟨_, sp', hrun, fun id hid => ?_⟩
    cases c? with
    | none => exact (hend rfl).1.steady (hend rfl).2
    | some c => cases hid

/-- Two variables with the values 0, 1, 3 and 4. -/
def twoListed : Store :=
  match IntegerDomain.enumerated [0, 1, 3, 4] with
  | .ok d => ((Store.empty.addInt d).2.addInt d).2
  | .error _ => Store.empty

theorem twoListed_wf : twoListed.Wf := by
  have hascending : [(0 : Int), 1, 3, 4].Pairwise (· < ·) := by decide
  have hd := IntegerDomain.enumerated_wf hascending rfl
  exact (Store.wf_empty.addInt hd).addInt hd

/-- The second variable plus three. -/
def plusThree : IntVar := .view (.plain ⟨1⟩) ⟨1, 3, Int.one_ne_zero⟩

theorem twoListed_ranges {x : IntVar} (hx : x ∈ [.plain ⟨0⟩, .plain ⟨1⟩, plusThree]) :
    x.Ranges Width.interior twoListed := by
  intro v hv
  simp only [plusThree, List.mem_cons, List.not_mem_nil, or_false] at hx
  have hbounds : 0 ≤ v ∧ v ≤ 4 := by
    rcases hx with rfl | rfl | rfl
    all_goals
      obtain ⟨hlow, hhigh, -⟩ := IntegerDomain.contains_iff.mp hv
      exact ⟨hlow, hhigh⟩
  rcases hx with rfl | rfl | rfl
  all_goals
    simp only [IntVar.Within, IntVar.image, AffineMap.image, Width.Fits, Width.interior,
      Width.value, minValue, maxValue]
    omega

/-- The first variable differs from the second plus three. -/
def apart : Filter := .distinct (.plain ⟨0⟩) plusThree

theorem apart_ready : apart.Ready twoListed := by
  refine ⟨by decide, fun x hx => twoListed_ranges ?_, nofun, nofun⟩
  rcases List.mem_pair.mp hx with rfl | rfl <;> decide

/-- The second variable is fixed to 0; propagation takes 3 away from the first, and then nothing is
    left to do. -/
theorem common_fixpoint_apart :
    ∃ (sp sp' : Space Filter) (marks : List Checkpoint), Course sp marks .stirred ∧ marks ≠ []
      ∧ (sp.store.int ⟨0⟩).contains 3 = true
      ∧ sp.propagate = .ok (none, sp') ∧ sp'.Steady ∧ (sp'.store.int ⟨0⟩).contains 3 = false := by
  let start : Space Filter := { Space.empty with store := twoListed }
  let request : Narrowing := .instantiate (.plain ⟨1⟩) 0
  have hstart : Course start [] .stirred := .start twoListed_wf rfl fun _ => rfl
  have hrun : ((start.post apart).bind fun r => (request.run r.2.store).bind fun n =>
      ({ r.2 with store := n.store } : Space Filter).propagate.map fun out =>
        (r.1.isOk, n.changed?, (n.store.int ⟨0⟩).contains 3, out.1,
          (out.2.store.int ⟨0⟩).contains 3)).toOption = some (true, some true, true, none, false) := by
    decide +kernel
  have henum : apart.Enumerated start.store := by
    intro x hx
    rcases List.mem_pair.mp hx with rfl | rfl <;> rfl
  cases hpost : start.post apart with
  | error fault => rw [hpost] at hrun; cases hrun
  | ok r =>
    obtain ⟨result, posted⟩ := r
    have hposted := Course.post hstart (by decide) henum apart_ready hpost
    simp only [hpost, Except.bind] at hrun
    cases hnarrow : request.run posted.store with
    | error fault => rw [hnarrow] at hrun; cases hrun
    | ok n =>
      simp only [hnarrow] at hrun
      cases hpropagate : ({ posted with store := n.store } : Space Filter).propagate with
      | error fault => rw [hpropagate] at hrun; cases hrun
      | ok out =>
        obtain ⟨c?, sp'⟩ := out
        simp only [hpropagate, Except.map, Except.toOption, Option.some.injEq,
          Prod.mk.injEq] at hrun
        obtain ⟨hok, hchanged, hbefore, rfl, hafter⟩ := hrun
        rw [hok] at hposted
        -- the computed run is one of the courses that the theorem speaks of
        have hcourse := (Course.mark hposted).narrow (by decide) hnarrow
        rw [hchanged] at hcourse
        obtain ⟨⟨c?, last, hlast, hsteady⟩, -⟩ := common_fixpoint hcourse (by decide)
        obtain ⟨rfl, rfl⟩ := Prod.mk.inj (Except.ok.inj (hlast.symm.trans hpropagate))
        exact ⟨_, _, _, hcourse, List.cons_ne_nil _ _, hbefore, hpropagate, hsteady rfl,
          hafter⟩

end Space

end FiniteDomain
