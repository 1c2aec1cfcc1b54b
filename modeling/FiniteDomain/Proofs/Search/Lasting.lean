import FiniteDomain.Proofs.Propagation.Guard
import FiniteDomain.Proofs.Search.Reports

/-! # What lasts

    Some properties of spaces stay true whatever is added, posted and narrowed, as
    long as no contradiction is met (`Space.Lasting`).  A solver that has such a
    property keeps it through all statements and all searches (`Lasting.later`),
    and the space in which a solution is found has it too (`Lasting.reports`).

    Two properties of this kind are that only who is posted is passive, and that a
    filter which is posted guards against stores of some kind. -/

namespace FiniteDomain

namespace Space

variable {J : Space Filter → Prop} {beyond : Store → Prop} {f : Filter} {id : PropagatorId}

/-- The property of spaces is kept as long as no contradiction is met. -/
structure Lasting (J : Space Filter → Prop) : Prop where
  /-- It does not depend on what was counted and noted. -/
  alike : ∀ {sp sp' : Space Filter}, J sp → sp.Alike sp' → J sp'
  /-- There are new variables. -/
  grows : ∀ {sp : Space Filter} {store : Store}, J sp → sp.store.Grows store →
    store.events = sp.store.events → store.passive = sp.store.passive → J { sp with store }
  /-- A filter is posted. -/
  post : ∀ {sp sp' : Space Filter} {f : Filter} {id : PropagatorId}, J sp →
    sp.post f = .ok (.ok id, sp') → J sp'
  /-- Domains are narrowed. -/
  settle : ∀ {sp sp' : Space Filter} {requests : List Narrowing}, J sp →
    sp.settle requests = .ok (none, sp') → J sp'

theorem lasting_attended : Lasting Attended where
  alike := fun h halike => h.alike halike
  grows := fun h hgrows _ hpassive => h.grows hgrows hpassive
  post := fun h hrun => h.post hrun
  settle := fun h hrun => h.settle hrun

theorem lasting_guarded (hf : f.Guards beyond) : Lasting (Guarded beyond f id False) where
  alike := fun h halike => h.alike halike
  grows := fun h hgrows hevents hpassive => h.grows hf hgrows hevents hpassive
  post := fun h hrun => (h.entered _).post hf False.elim hrun
  settle := fun h hrun => h.settle hf hrun

end Space

/-- The space has the property, unless it is known that there is no solution. -/
def Solver.Has (sv : Solver Filter) (J : Space Filter → Prop) : Prop :=
  sv.infeasible = false → J sv.space

namespace Space.Lasting

open Solver Modelling Search

variable {J : Space Filter → Prop} {origin sv sv' : Solver Filter}

/-- Statements keep what lasts. -/
theorem kept (hJ : Lasting J) : Solver.Kept fun sv => sv.Resting ∧ sv.Has J where
  resting := And.left
  name := fun names h => ⟨(h.1.onward.name names).resting, h.2⟩
  grows := fun h hgrows hevents hpassive =>
    ⟨(h.1.onward.withStore hgrows hevents).resting,
      fun hfeasible => hJ.grows (h.2 hfeasible) hgrows hevents hpassive⟩
  post := by
    intro sv sv' f r h hrun
    refine ⟨(onward_post h.1.onward hrun).resting, fun hfeasible' => ?_⟩
    rcases Modelling.post_cases h.1.root hrun with ⟨-, -, rfl⟩ | ⟨hfeasible, _, _, hpost, hend⟩
    · exact h.2 hfeasible'
    rcases hend with ⟨id, rfl, -, rfl⟩ | ⟨c, -, -, rfl⟩
    · exact hJ.post (h.2 hfeasible) hpost
    · cases hfeasible'
  narrow := by
    intro sv sv' request r h hrun
    refine ⟨(onward_narrow h.1.onward hrun).resting, fun hfeasible' => ?_⟩
    rcases narrow_cases h.1.root hrun with ⟨-, -, rfl⟩ | ⟨hfeasible, c?, space, hsettle, hend⟩
    · exact h.2 hfeasible'
    rcases hend with ⟨rfl, -, rfl⟩ | ⟨c, -, -, rfl⟩
    · exact hJ.settle (h.2 hfeasible) hsettle
    · cases hfeasible'

/-- Whatever is stated and searched, what lasts stays. -/
theorem later (hJ : Lasting J) (h : origin.Later sv) (hresting : origin.Resting)
    (hhas : origin.Has J) : sv.Has J := by
  -- on what has happened: statements keep the property, searches give back the space they got
  induction h with
  | refl => exact hhas
  | stated before st run ih =>
    exact ((st.upholds_kept hJ.kept).keeps _ _ _ ⟨(before.onward hresting).resting, ih⟩ run).2
  | searched before visits restored ih =>
    obtain ⟨last, hlast, hrestored⟩ := visits.restored (before.onward hresting).resting
    obtain rfl := Except.ok.inj (hlast.symm.trans restored)
    intro hfeasible
    exact hJ.alike (ih (hrestored.infeasible.symm.trans hfeasible)) hrestored.space

/-- What holds in the beginning and lasts holds wherever models are built. -/
theorem prepared (hJ : Lasting J) (hempty : J Space.empty) (h : sv.Prepared) : sv.Has J := by
  obtain ⟨random, hlater⟩ := h.later
  exact hJ.later hlater (resting_empty random) fun _ => hempty

/-- The space in which alternatives have been carried out. -/
theorem opened {cuts : Option Predicate → Prop} {root sp : Space Filter} {levels : List Level}
    (hJ : Lasting J) (hroot : J root) (h : Opened cuts root levels sp) : J sp := by
  induction h with
  | root => exact hroot
  | level hbase hcheckpoint hcurrent hcut hsettle ih => exact hJ.settle ih hsettle

/-- A solution is reported from a space that has come to rest and has what lasts. -/
theorem reports {sol : Solution} (hJ : Lasting J) (h : sv.Reports sol) (hresting : sv.Resting)
    (hhas : sv.Has J) : ∃ sp : Space Filter, sp.Settled ∧ J sp ∧ sp.store = sol.store := by
  obtain ⟨later, B, T, _, _, sr, last, hlater, hvisits, hsolve, rfl⟩ := h
  have hresting' := (hlater.onward hresting).resting
  obtain ⟨hfeasible, levels, sp, hopened, halike⟩ := exists_opened hvisits hresting' hsolve
  -- the alternatives that led to the solution were narrowings without a contradiction
  have hspace := hJ.opened (hJ.later hlater hresting hhas hfeasible) hopened
  have hsettled := (hopened.settled (hresting'.settled hfeasible) hresting'.wf).1
  exact ⟨sp, hsettled, hspace, halike.store.symm⟩

end Space.Lasting

/-! ### Filters that guard -/

namespace Solver

open Modelling

variable {beyond : Store → Prop} {f : Filter} {id : PropagatorId} {sv sv' : Solver Filter}

/-- A filter that is posted with success guards from then on. -/
theorem guarded_of_post (hf : f.Guards beyond) (hprepared : sv.Prepared)
    (hknown : ∀ v ∈ f.scope, sv.store.knows v = true)
    (hpost : (Modelling.post f).run.run sv = .ok (.ok (), sv')) :
    sv'.Has (Space.Guarded beyond f ⟨sv.space.posted.nextKey⟩ False) := by
  have hresting := hprepared.resting
  rcases post_cases hresting.root hpost with ⟨-, hrefused, -⟩ | ⟨hfeasible, result, space, hrun, hend⟩
  · cases hrefused
  rcases hend with ⟨id, rfl, -, rfl⟩ | ⟨c, -, hrefused, -⟩
  · have hattended := Space.lasting_attended.prepared Space.attended_empty hprepared hfeasible
    have hentered : (sv.space.entered f).Guarded beyond f ⟨sv.space.posted.nextKey⟩ True :=
      Space.guarded_entered hresting.wf hknown hattended.active
    exact fun _ => hentered.post hf (fun _ => rfl) hrun
  · cases hrefused

/-- No solution is of the kind that a filter guards against. -/
theorem Reports.clear {sol : Solution} (hf : f.Guards beyond) (h : sv.Reports sol)
    (hresting : sv.Resting) (hhas : sv.Has (Space.Guarded beyond f id False)) :
    ¬ beyond sol.store := by
  obtain ⟨sp, hsettled, hguarded, hstore⟩ := (Space.lasting_guarded hf).reports h hresting hhas
  rw [← hstore]
  exact hguarded.clear hf hsettled

end Solver

end FiniteDomain
