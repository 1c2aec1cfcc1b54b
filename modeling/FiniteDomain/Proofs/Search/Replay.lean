import FiniteDomain.Proofs.Propagation.Alike
import FiniteDomain.Proofs.Search.Step

/-! # Going back is as good as starting again

    A search keeps one space and repairs it when it goes back.  Whenever it asks
    for a branch, the space is the one that results from the root by carrying out
    the current alternative of every open level, from the outermost to the
    innermost, with propagation after each.  What has been tried and given up on
    the way leaves no trace.

    The proof follows the search with the spaces in which its levels were opened
    (`Opened`): a level can be gone back to since the present store extends the
    store of that space (`Within`). -/

namespace FiniteDomain

namespace Space

/-- Carries out decisions one after the other, with propagation after each, until a
    contradiction is met. -/
def replay (sp : Space Filter) :
    List Decision → Except Fault (Option Contradiction × Space Filter)
  | [] => return (none, sp)
  | d :: rest => do
    let (contradiction?, sp) ← sp.settle [d.request]
    match contradiction? with
    | some c => return (some c, sp)
    | none => sp.replay rest

variable {root base sp t : Space Filter}

theorem replay_append {first : List Decision} {d : Decision}
    (h : root.replay first = .ok (none, base)) (hd : base.settle [d.request] = .ok (none, sp)) :
    root.replay (first ++ [d]) = .ok (none, sp) := by
  induction first generalizing root with
  | nil =>
    cases h
    simp only [List.nil_append, replay, bind, Except.bind, hd]
    rfl
  | cons d' rest ih =>
    simp only [List.cons_append, replay, bind, Except.bind] at h ⊢
    split at h
    · cases h
    next r hr =>
      split at h
      · cases h
      · exact ih h

end Space

namespace Search

/-- In the space, which comes from the root, the current alternative of every level has been
    carried out, each together with a cut that is allowed. -/
inductive Opened (cuts : Option Predicate → Prop) (root : Space Filter) :
    List Level → Space Filter → Prop where
  /-- No level is open. -/
  | root : Opened cuts root [] root
  /-- The current alternative of the innermost level has been carried out. -/
  | level {level : Level} {outer : List Level} {base sp : Space Filter} {d : Decision}
      {cut? : Option Predicate} (hbase : Opened cuts root outer base)
      (hcheckpoint : level.checkpoint = base.store.checkpoint)
      (hcurrent : level.current? = some d) (hcut : cuts cut?)
      (hsettle : base.settle (d.request :: (cut?.map Narrowing.impose).toList) = .ok (none, sp)) :
      Opened cuts root (level :: outer) sp

/-- The space lies behind the point where the innermost level was opened. -/
inductive Within (cuts : Option Predicate → Prop) (root : Space Filter) :
    List Level → Space Filter → Prop where
  /-- No level is open. -/
  | root {t : Space Filter} (h : root.Leads t) : Within cuts root [] t
  /-- The level was opened in `base`. -/
  | level {level : Level} {outer : List Level} {base t : Space Filter}
      (hbase : Opened cuts root outer base) (hcheckpoint : level.checkpoint = base.store.checkpoint)
      (h : base.Leads t) : Within cuts root (level :: outer) t

variable {cuts : Option Predicate → Prop} {root sp t : Space Filter} {levels outer : List Level}

theorem Opened.settled (h : Opened cuts root levels sp) (hroot : root.Settled)
    (hwf : root.store.Wf) : sp.Settled ∧ sp.store.Wf := by
  induction h with
  | root => exact ⟨hroot, hwf⟩
  | level hbase hcheckpoint hcurrent hcut hsettle ih =>
    exact ⟨Space.settled_settle ih.1.alert hsettle, (Space.leads_settle ih.2 hsettle).wf ih.2⟩

theorem Opened.leads (h : Opened cuts root levels sp) (hroot : root.Settled)
    (hwf : root.store.Wf) : root.Leads sp := by
  induction h with
  | root => exact .refl root
  | level hbase hcheckpoint hcurrent hcut hsettle ih =>
    exact ih.trans (Space.leads_settle (hbase.settled hroot hwf).2 hsettle)

/-- What comes after the innermost alternative lies within its level. -/
theorem Opened.within (h : Opened cuts root levels sp) (hroot : root.Settled)
    (hwf : root.store.Wf) (ht : sp.Leads t) : Within cuts root levels t := by
  cases h with
  | root => exact .root ht
  | level hbase hcheckpoint hcurrent hcut hsettle =>
    exact .level hbase hcheckpoint
      ((Space.leads_settle (hbase.settled hroot hwf).2 hsettle).trans ht)

theorem Within.leads (h : Within cuts root levels t) (hroot : root.Settled)
    (hwf : root.store.Wf) : root.Leads t := by
  cases h with
  | root h => exact h
  | level hbase hcheckpoint h => exact (hbase.leads hroot hwf).trans h

/-- Without cuts the space is the one that a replay of the current alternatives leads to. -/
theorem Opened.replay (h : Opened (· = none) root levels sp) :
    ∃ decisions, levels.reverse.map Level.current? = decisions.map some
      ∧ root.replay decisions = .ok (none, sp) := by
  induction h with
  | root => exact ⟨[], rfl, rfl⟩
  | @level level outer base sp d cut? hbase hcheckpoint hcurrent hcut hsettle ih =>
    subst hcut
    obtain ⟨decisions, hcurrents, hreplay⟩ := ih
    refine ⟨decisions ++ [d], ?_, Space.replay_append hreplay hsettle⟩
    rw [List.reverse_cons, List.map_append, hcurrents, List.map_append]
    simp [hcurrent]

/-! ### What a search keeps true -/

/-- The space of a solver at each of its stages, relative to the root. -/
def Tracks (cuts : Option Predicate → Prop) (root : Space Filter) (sv : Solver Filter) : Prop :=
  match sv.stage with
  | .select | .solution => ∃ sp, Opened cuts root sv.levels sp ∧ sp.Alike sv.space
  | .decide =>
    ∃ level outer base, sv.levels = level :: outer ∧ Opened cuts root outer base
      ∧ level.checkpoint = base.store.checkpoint ∧ level.remaining ≠ [] ∧ base.Alike sv.space
  | .propagate =>
    (sv.levels = [] ∧ sv.decision? = none ∧ sv.cut? = none ∧ root.Alike sv.space)
      ∨ ∃ level outer base d, sv.levels = level :: outer ∧ Opened cuts root outer base
        ∧ level.checkpoint = base.store.checkpoint ∧ level.current? = some d
        ∧ sv.decision? = some d ∧ base.Alike sv.space
  | .backtrack => Within cuts root sv.levels sv.space
  | .done => root.Leads sv.space

variable {B T : Type} {sr sr' : Search Filter B T}

theorem tracks_select [Brancher B] (hstage : sr.solver.stage = .select)
    (h : Tracks cuts root sr.solver) (hstep : sr.select = .ok sr') :
    Tracks cuts root sr'.solver := by
  simp only [Tracks, hstage] at h
  obtain ⟨sp, hopened, halike⟩ := h
  simp only [select, bind, Except.bind] at hstep
  split at hstep
  · cases hstep
  next r hr =>
    obtain ⟨branch?, brancher, random⟩ := r
    cases branch? with
    | some branch =>
      cases hstep
      refine ⟨_, _, sp, rfl, hopened, congrArg Store.checkpoint halike.store, ?_, halike⟩
      intro hnil
      have hlen := branch.two_le_length
      simp only [Level.ofBranch] at hnil
      simp [hnil] at hlen
    | none =>
      cases hstep
      exact ⟨sp, hopened, halike⟩

theorem tracks_decide (hstage : sr.solver.stage = .decide) (h : Tracks cuts root sr.solver) :
    Tracks cuts root sr.decide.solver := by
  simp only [Tracks, hstage] at h
  obtain ⟨level, outer, base, hlevels, hopened, hcheckpoint, hremaining, halike⟩ := h
  obtain ⟨d, rest, hrest⟩ := List.exists_cons_of_ne_nil hremaining
  simp only [decide, update, hlevels, Level.advance?, hrest]
  exact Or.inr ⟨_, outer, base, d, rfl, hopened, hcheckpoint, rfl, rfl, halike⟩

theorem announce_solver [Termination T] (sr : Search Filter B T) :
    sr.announce.solver.space = sr.solver.space ∧ sr.announce.solver.levels = sr.solver.levels
      ∧ sr.announce.solver.decision? = sr.solver.decision?
      ∧ sr.announce.solver.cut? = sr.solver.cut? := by
  unfold announce
  split <;> exact ⟨rfl, rfl, rfl, rfl⟩

/-- At the root propagation has nothing to do. -/
theorem settle_root {contradiction? : Option Contradiction} {t' : Space Filter}
    (hroot : root.Settled) (halike : root.Alike t) (h : t.settle [] = .ok (contradiction?, t')) :
    contradiction? = none ∧ root.Alike t' := by
  have hrest : t.propagate = .ok (contradiction?, t') := h
  obtain ⟨t₀, ht₀, halike'⟩ := halike.symm.propagate hrest
  rw [Space.propagate_settled hroot] at ht₀
  obtain ⟨rfl, rfl⟩ := Prod.mk.inj (Except.ok.inj ht₀)
  have hidle : root.Alike { root with phase := .idle } := ⟨rfl, rfl, rfl, rfl⟩
  exact ⟨rfl, hidle.trans halike'.symm⟩

theorem tracks_propagate [Termination T] (hstage : sr.solver.stage = .propagate)
    (h : Tracks cuts root sr.solver) (hcut : cuts sr.solver.cut?) (hroot : root.Settled)
    (hwf : root.store.Wf) (hstep : sr.propagate = .ok sr') : Tracks cuts root sr'.solver := by
  simp only [Tracks, hstage] at h
  obtain ⟨hspace, hlevels, hdecision, hcut'⟩ := announce_solver sr
  simp only [propagate, bind, Except.bind] at hstep
  split at hstep
  · cases hstep
  next r hr =>
    obtain ⟨contradiction?, space⟩ := r
    rw [hspace, Solver.requests, hdecision, hcut'] at hr
    rcases h with ⟨hnone, hidle, hnocut, halike⟩
      | ⟨level, outer, base, d, hcons, hopened, hcheckpoint, hcurrent, hpending, halike⟩
    · -- at the root there is nothing to decide, and the root had come to rest
      rw [hidle, hnocut] at hr
      obtain ⟨rfl, halike'⟩ := settle_root hroot halike hr
      cases hstep
      refine ⟨root, ?_, halike'⟩
      show Opened cuts root sr.announce.solver.levels root
      rw [hlevels, hnone]
      exact .root
    · rw [hpending] at hr
      have hsettle : sr.solver.space.settle
          (d.request :: (sr.solver.cut?.map Narrowing.impose).toList)
            = .ok (contradiction?, space) := hr
      -- the space that was there when the level was opened would have settled alike
      obtain ⟨t', ht', halike'⟩ := halike.symm.settle hsettle
      have hlevels' : sr.announce.solver.levels = level :: outer := hlevels.trans hcons
      cases contradiction? with
      | none =>
        cases hstep
        refine ⟨t', ?_, halike'.symm⟩
        show Opened cuts root sr.announce.solver.levels t'
        rw [hlevels']
        exact .level hopened hcheckpoint hcurrent hcut ht'
      | some c =>
        cases hstep
        show Within cuts root sr.announce.solver.levels space
        rw [hlevels']
        exact .level hopened hcheckpoint
          ((Space.leads_settle (hopened.settled hroot hwf).2 ht').trans halike'.symm.leads)

theorem tracks_retreat [Brancher B] (hroot : root.Settled) (hwf : root.store.Wf)
    (h : Within cuts root levels sr.solver.space) (hstep : sr.retreat levels = .ok sr') :
    Tracks cuts root sr'.solver := by
  induction levels generalizing sr with
  | nil =>
    cases hstep
    cases h with
    | root h => exact h
  | cons level outer ih =>
    cases h with
    | @level _ _ base _ hopened hcheckpoint hleads =>
      obtain ⟨hsettled, hbase⟩ := hopened.settled hroot hwf
      -- undoing leads back to the space in which the level was opened
      obtain ⟨t', ht', halike⟩ := Space.backtrackTo_leads hsettled hbase hleads
      simp only [retreat, bind, Except.bind, hcheckpoint, ht'] at hstep
      cases hadvance : level.advance? with
      | some r =>
        obtain ⟨d, next⟩ := r
        rw [hadvance] at hstep
        cases hstep
        refine Or.inr ⟨next, outer, base, d, rfl, hopened, ?_,
          Level.current?_of_advance? hadvance, rfl, halike⟩
        unfold Level.advance? at hadvance
        split at hadvance
        · cases hadvance
        · cases hadvance
          exact hcheckpoint
      | none =>
        rw [hadvance] at hstep
        exact ih (hopened.within hroot hwf halike.leads) hstep

/-- One transition keeps track of the root. -/
theorem tracks_step [Brancher B] [Termination T] {verdict? : Option Verdict}
    (hroot : root.Settled) (hwf : root.store.Wf) (hcut : cuts sr.solver.cut?)
    (h : Tracks cuts root sr.solver) (hstep : sr.step = .ok (verdict?, sr')) :
    Tracks cuts root sr'.solver := by
  cases transition_of_step hstep with
  | stopped hstop hstage => exact h
  | selected hstage hselect => exact @tracks_select _ _ _ _ sr.poll.2 _ _ hstage h hselect
  | decided hstage => exact tracks_decide hstage h
  | propagated hstage hpropagate => exact tracks_propagate hstage h hcut hroot hwf hpropagate
  | wentBack hstage hbacktrack =>
    simp only [Tracks, hstage] at h
    unfold backtrack at hbacktrack
    exact tracks_retreat hroot hwf (by exact h) hbacktrack
  | found hstage =>
    simp only [Tracks, hstage] at h
    obtain ⟨sp, hopened, halike⟩ := h
    exact hopened.within hroot hwf halike.leads
  | exhausted hstage => exact h

/-- At every stage the space comes from the root. -/
theorem Tracks.leads {sv : Solver Filter} (h : Tracks cuts root sv) (hroot : root.Settled)
    (hwf : root.store.Wf) : root.Leads sv.space := by
  unfold Tracks at h
  split at h
  · obtain ⟨sp, hopened, halike⟩ := h
    exact (hopened.leads hroot hwf).trans halike.leads
  · obtain ⟨sp, hopened, halike⟩ := h
    exact (hopened.leads hroot hwf).trans halike.leads
  · obtain ⟨level, outer, base, -, hopened, -, -, halike⟩ := h
    exact (hopened.leads hroot hwf).trans halike.leads
  · rcases h with ⟨-, -, -, halike⟩ | ⟨level, outer, base, d, -, hopened, -, -, -, halike⟩
    · exact halike.leads
    · exact (hopened.leads hroot hwf).trans halike.leads
  · exact Within.leads h hroot hwf
  · exact h

end Search

end FiniteDomain
