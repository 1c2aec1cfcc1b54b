import FiniteDomain.Proofs.Search.Deals
import FiniteDomain.Proofs.Search.Latch

/-! # Streams that go round

    A stream that is asked again after it has said that there is no further solution
    hands out the solutions of the model again (`Solver.solution_after_finished`).
    Until then it repeats nothing, and it has left nothing out when it says so, in every
    round (`Solver.rounds_repeat_nothing`). -/

namespace FiniteDomain

namespace Solver

open SolutionStream

variable {k : Concern} {sv : Solver Filter} {domains : Store} {sat most : Valuation → Prop}

/-- A stream of a solver that is ready deals out what the store has. -/
theorem Poised.deals (h : sv.Poised k domains) (hinterior : sv.store.Interior) {b : Strategy}
    (hb : b.Suits sv.store) (hsat : ∀ a, sat a → sv.Retains a)
    (hmost : sv.infeasible = false → sv.space.Yields k most) {T : Type} [Termination T]
    (limit : T) (count : Nat) :
    ∃ answers last, (ofSearch ⟨sv, b, limit⟩).take count = .ok (answers, last)
      ∧ Deals sat (fun a => sv.store.Admits a ∧ most a) (fun a => sv.store.Admits a ∧ most a) false
          answers := by
  cases hfeasible : sv.infeasible with
  | true =>
    obtain ⟨stage, htake⟩ := h.resting.take_infeasible hfeasible b limit count
    refine ⟨_, _, htake, .of_nothing (fun a ha => ?_) count⟩
    exact Bool.false_ne_true ((hsat a ha).feasible.symm.trans hfeasible)
  | false =>
    have hfits := Strategy.fits_of_suits hinterior hb
    have hcov := Strategy.covering_of_fits sv.store
    have hunderway := @Search.underway_of_root k _ _
      (fun s b => Strategy.Fits sv.store s b
        ∧ ∀ v, sv.store.knows v = true → v ∈ Strategy.targets b) Store.Fixed ⟨sv, b, limit⟩
      h.resting.root h.resting.levels h.resting.decision h.resting.cut hfeasible hfits
    obtain ⟨answers, last, htake, hdeals⟩ := @take_deals _ _ _ _ _ _ _ _ sat most hcov.serving
      (h.rest hfeasible) (fun a ha => (hsat a ha).solves.2) (hmost hfeasible)
      (ofSearch ⟨sv, b, limit⟩) hunderway h.resting.cut count
    simp only [Search.Account.owes_nil] at hdeals
    exact ⟨answers, last, htake, hdeals⟩

theorem Poised.deals_of_take (h : sv.Poised k domains) (hinterior : sv.store.Interior)
    {b : Strategy} (hb : b.Suits sv.store) (hsat : ∀ a, sat a → sv.Retains a)
    (hmost : sv.infeasible = false → sv.space.Yields k most) {T : Type} [Termination T] {limit : T}
    {count : Nat} {answers : List StreamAnswer} {last : SolutionStream Filter Strategy T}
    (htake : (ofSearch ⟨sv, b, limit⟩).take count = .ok (answers, last)) :
    Deals sat (fun a => sv.store.Admits a ∧ most a) (fun a => sv.store.Admits a ∧ most a) false
      answers := by
  obtain ⟨answers', last', htake', hdeals⟩ := h.deals hinterior hb hsat hmost limit count
  obtain ⟨rfl, -⟩ := Prod.mk.inj (Except.ok.inj (htake'.symm.trans htake))
  exact hdeals

section

variable {b : Strategy} {T : Type} [Termination T] {limit : T} {count : Nat}
  {answers : List StreamAnswer} {last : SolutionStream Filter Strategy T}

/-- A round that has come to its end has handed out whatever satisfies what was asked for. -/
theorem Chronicle.completes_rounds {asked : Valuation → Prop} (h : sv.Chronicle domains asked)
    (hinterior : sv.store.Interior) (hb : b.Suits sv.store)
    (htake : (ofSearch ⟨sv, b, limit⟩).take count = .ok (answers, last)) {round : List Solution}
    (hround : round ∈ (rounds answers).dropLast) :
    ListsBetween (fun a => domains.Admits a ∧ asked a) sv.store.Admits round := by
  have hpoised : sv.Poised .lapses domains := h.built.poised
  have hretains : ∀ a, domains.Admits a ∧ asked a → sv.Retains a := fun a ha =>
    h.retains.1 a ha.1 ha.2
  have hdeals := @Poised.deals_of_take _ _ _ _ (fun _ => True) hpoised hinterior b hb hretains
    (fun _ _ _ _ _ _ _ => trivial) T _ limit count answers last htake
  exact (hdeals.rounds_spec.2 round hround).mono
    (fun a ha => ⟨⟨(hretains a ha).solves.1, trivial⟩, ha⟩) fun _ ha => ha.1

/-- A solver that represents a model yields solutions of the model. -/
theorem Models.yields {m : Model} (h : sv.Models m) (hfeasible : sv.infeasible = false) :
    sv.space.Yields .clashes m.Solves := by
  intro sp hleads hrest hfixed a ha
  refine (h.represents.solves hfeasible a).mp ⟨?_, ?_⟩
  · exact hleads.store.admits h.represents.resting.wf ha
  · exact Space.conclusive_clashes _ sp hleads hrest hfixed a ha

/-- If the solver represents a model, the rounds hand out its solutions. -/
theorem Models.lists_rounds {m : Model} (h : sv.Models m) (hinterior : sv.store.Interior)
    (hb : b.Suits sv.store)
    (htake : (ofSearch ⟨sv, b, limit⟩).take count = .ok (answers, last)) :
    (∀ round ∈ rounds answers, ListsBetween (fun _ => False) m.Solves round)
      ∧ ∀ round ∈ (rounds answers).dropLast, Lists round m.Solves := by
  have hretains : ∀ a, m.Solves a → sv.Retains a := fun a ha => h.represents.retains ha.1 ha.2
  obtain ⟨hall, hdone⟩ :=
    (h.represents.toPoised.deals_of_take hinterior hb hretains h.yields htake).rounds_spec
  refine ⟨fun round hround => (hall round hround).mono (fun _ ha => ha) fun _ ha => ha.2,
    fun round hround => ?_⟩
  have hbetween : ListsBetween m.Solves m.Solves round := (hdone round hround).mono
    (fun a ha => ⟨⟨(hretains a ha).solves.1, ha⟩, ha⟩) fun _ ha => ha.2
  exact hbetween.lists fun _ ha => ha

end

/-- What a stream hands out until it says that there is no further solution, and then again.  In a
    model that is built of statements and searched before, with any strategy of the library that
    decides all variables, under any limit, and however often the stream is asked: every question
    is answered; no round hands out a solution twice; a round that has come to its end has handed
    out every valuation that satisfies what was asked for, and if the constraints are exact, it has
    handed out the solutions of the model and nothing else.  That there is no further solution is
    said only after a solution, and that there is none only before any. -/
theorem rounds_repeat_nothing (hbuilt : sv.Built domains) (hinterior : domains.Interior)
    {b : Strategy} (hb : b.Suits sv.store) {T : Type} [Termination T] (limit : T) (count : Nat) :
    ∃ answers last, (ofSearch ⟨sv, b, limit⟩).take count = .ok (answers, last)
      ∧ (∀ round ∈ rounds answers, ListsBetween (fun _ => False) sv.store.Admits round)
      ∧ (∀ asked, sv.Chronicle domains asked → ∀ round ∈ (rounds answers).dropLast,
          ListsBetween (fun a => domains.Admits a ∧ asked a) sv.store.Admits round)
      ∧ (∀ random statements, Model.empty.Fits statements →
          (Solver.empty random).state statements = .ok sv →
          (∀ round ∈ rounds answers,
              ListsBetween (fun _ => False) (Model.empty.state statements).Solves round)
            ∧ ∀ round ∈ (rounds answers).dropLast,
                Lists round (Model.empty.state statements).Solves)
      ∧ ∀ before answer after, answers = before ++ answer :: after →
          (answer = .finished → ∃ sol, .solution sol ∈ before)
            ∧ (answer = .unsatisfiable → ∀ sol, .solution sol ∉ before) := by
  have hpoised : sv.Poised .lapses domains := hbuilt.poised
  have hinterior' : sv.store.Interior := hinterior.narrower hpoised.narrower
  -- of what is handed out nothing is to be shown here but that it is in the domains
  obtain ⟨answers, last, htake, hdeals⟩ := @Poised.deals _ _ _ (fun _ => False) (fun _ => True)
    hpoised hinterior' b hb nofun (fun _ _ _ _ _ _ _ => trivial) T _ limit count
  refine ⟨answers, last, htake, fun round hround => ?_,
    fun asked hchronicle round hround => hchronicle.completes_rounds hinterior' hb htake hround,
    fun random statements hfits hstate => ?_, fun before answer after hsplit => ?_⟩
  · exact (hdeals.rounds_spec.1 round hround).mono (fun _ ha => ha) fun _ ha => ha.1
  · obtain ⟨sv', hstate', hmodels⟩ := (models_empty random).state hfits
    obtain rfl := Except.ok.inj (hstate'.symm.trans hstate)
    exact hmodels.lists_rounds hinterior' hb htake
  · obtain ⟨hfinished, hnone⟩ := hdeals.told_of_ended hsplit
    exact ⟨fun heq => (hfinished heq).resolve_left Bool.false_ne_true, fun heq => (hnone heq).2⟩

/-! ### Asking again -/

/-- Asks the stream of what is stated, which no limit stops. -/
def ask (statements : List Statement) (count : Nat) : Except Fault (List StreamAnswer) := do
  let sv ← (Solver.empty (.ofSeed 0)).state statements
  let (answers, _) ←
    (ofSearch ⟨sv, Strategy.standard sv.store, Limit.indefinite⟩).take count
  return answers

theorem exists_of_ask {statements : List Statement} {count : Nat} {answers : List StreamAnswer}
    (h : ask statements count = .ok answers) :
    ∃ sv last, (Solver.empty (.ofSeed 0)).state statements = .ok sv
      ∧ (ofSearch ⟨sv, Strategy.standard sv.store, Limit.indefinite⟩).take count
          = .ok (answers, last) := by
  unfold ask at h
  obtain ⟨sv, hstate, h⟩ := except_bind_eq_ok_iff.mp h
  obtain ⟨⟨_, last⟩, htake, h⟩ := except_bind_eq_ok_iff.mp h
  cases h
  exact ⟨sv, last, hstate, htake⟩

theorem ascending_built (h : (Solver.empty (.ofSeed 0)).state ascending = .ok sv) :
    sv.Built (Model.empty.state ascending).domains := by
  have hpermits : Store.empty.Permits ascending := ⟨trivial, trivial, ascending_fits.2.2.1, trivial⟩
  obtain ⟨sv', hstate, hbuilt⟩ := (Built.empty (.ofSeed 0)).state hpermits
  obtain rfl := Except.ok.inj (hstate.symm.trans h)
  exact hbuilt

/-- Asked six times, the stream hands out the three ascending pairs, says that there is no further
    one, and has begun again. -/
theorem rounds_repeat_nothing_ascending :
    ∃ sv answers last first second, (Solver.empty (.ofSeed 0)).state ascending = .ok sv
      ∧ (ofSearch ⟨sv, Strategy.standard sv.store, Limit.indefinite⟩).take 6 = .ok (answers, last)
      ∧ rounds answers = [first, second] ∧ first.length = 3 ∧ second.length = 2
      ∧ Lists first (Model.empty.state ascending).Solves
      ∧ ListsBetween (fun _ => False) (Model.empty.state ascending).Solves second := by
  have hrun : ((ask ascending 6).map fun answers => (rounds answers).map List.length).toOption
      = some [3, 2] := by
    decide +kernel
  obtain ⟨answers, hask, hlengths⟩ := exists_of_toOption_map hrun
  obtain ⟨sv, last, hstate, htake⟩ := exists_of_ask hask
  have hsuits : (Strategy.standard sv.store).Suits sv.store := Or.inl rfl
  obtain ⟨answers', last', htake', -, -, hexact, -⟩ :=
    rounds_repeat_nothing (ascending_built hstate) ascending_interior hsuits Limit.indefinite 6
  obtain ⟨rfl, rfl⟩ := Prod.mk.inj (Except.ok.inj (htake'.symm.trans htake))
  obtain ⟨hall, hdone⟩ := hexact _ _ ascending_fits hstate
  obtain ⟨first, later, hrounds, hfirst, hlater⟩ := List.map_eq_cons_iff.mp hlengths
  obtain ⟨second, none, rfl, hsecond, hnone⟩ := List.map_eq_cons_iff.mp hlater
  obtain rfl := List.map_eq_nil_iff.mp hnone
  rw [hrounds] at hall hdone
  exact ⟨sv, answers', last', first, second, hstate, htake, hrounds, hfirst, hsecond,
    hdone first (List.mem_singleton.mpr rfl),
    hall second (List.mem_cons_of_mem _ List.mem_cons_self)⟩

/-- The values of the variable in two solutions between which it was said that there is no further
    one. -/
def again : List StreamAnswer → Except Fault (Int × Int)
  | [.solution first, .finished, .solution second] => do
    let value ← first.value (.plain ⟨0⟩)
    let value' ← second.value (.plain ⟨0⟩)
    return (value, value')
  | _ => throw .assertionFailed

/-- The only solution of a model is handed out again after it was said that there is no further
    one. -/
theorem solution_after_finished :
    ∃ sv first second last, (Solver.empty (.ofSeed 0)).state [only 0 (by decide)] = .ok sv
      ∧ (ofSearch ⟨sv, Strategy.standard sv.store, Limit.indefinite⟩).take 3
          = .ok ([.solution first, .finished, .solution second], last)
      ∧ first.value (.plain ⟨0⟩) = .ok 0 ∧ second.value (.plain ⟨0⟩) = .ok 0 := by
  have hrun : ((ask [only 0 (by decide)] 3).bind again).toOption = some (0, 0) := by decide +kernel
  obtain ⟨answers, hask, hagain⟩ := exists_of_toOption_bind hrun
  obtain ⟨sv, last, hstate, htake⟩ := exists_of_ask hask
  unfold again at hagain
  split at hagain
  next first second =>
    obtain ⟨value, hvalue, hagain⟩ := exists_of_toOption_bind hagain
    obtain ⟨value', hvalue', hagain⟩ := exists_of_toOption_bind hagain
    cases hagain
    exact ⟨sv, first, second, last, hstate, htake, hvalue, hvalue'⟩
  · cases hagain

end Solver

end FiniteDomain
