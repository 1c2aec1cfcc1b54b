import FiniteDomain.Proofs.Model.Refusal
import FiniteDomain.Proofs.Search.Consistency
import FiniteDomain.Proofs.Search.Reports

/-! # Models without solutions

    A model may turn out to have no solution while it is built.  That is right:
    what a valuation has to satisfy to be among the solutions of the space is what
    was asked for, in single constraints and predicates, and nothing of it is lost
    while propagators are run (`Solver.Chronicle.retains`).

    From then on the solver stays as it is (`Solver.Latched`): it refuses whatever
    is posted, and it answers every search at once, without a look at the brancher
    or the limit. -/

namespace FiniteDomain

/-! ### What statements ask for -/

/-- What the single constraint asks of a valuation. -/
def Constraint.Asks (s : Store) : Constraint → Valuation → Prop
  | .differs x k, a => x.exactValue a.int ≠ k
  | .pathNoCycle g source sink, a => (Filter.pathNoCycle g source sink).Sat a
  | .hamiltonianPath g source sink, a =>
    Filter.Hamiltonian (s.graph g).order source sink (a.graph g)
  | c, a => c.Sat a

/-- The single constraint can be posted, and its views show no value outside the range. -/
structure Constraint.Confined (s : Store) (c : Constraint) : Prop where
  /-- It does not stand for a list of constraints. -/
  single : c.Single
  /-- It is about variables that exist. -/
  postable : c.Postable s
  /-- A variable from which a value is taken away shows no value outside the range. -/
  ranges : ∀ x k, c = .differs x k → x.Ranges Width.interior s

namespace Statement

/-- What the statement asks of a valuation. -/
def Asks (s : Store) : Statement → Valuation → Prop
  | .post c, a => c.Asks s a
  | .impose p, a => p.Holds a.int
  | _, _ => True

/-- The statement can be made about the variables, whose views show no value outside the range. -/
def Confined (s : Store) : Statement → Prop
  | .post c => c.Confined s
  | .impose p => ∀ x, p.subject? = some x → s.knows (.int x) = true
  | _ => True

theorem Confined.postable {s : Store} {st : Statement} (h : st.Confined s) : st.Postable s := by
  cases st with
  | post c => exact Constraint.Confined.postable h
  | impose p => exact h
  | bounded lower upper fits name? => trivial
  | enumerated values fits name? => trivial
  | set elements name? => trivial
  | graph order arcs name? => trivial

theorem Confined.single {s : Store} {st : Statement} (h : st.Confined s) : st.Single := by
  cases st with
  | post c => exact Constraint.Confined.single h
  | impose p => trivial
  | bounded lower upper fits name? => trivial
  | enumerated values fits name? => trivial
  | set elements name? => trivial
  | graph order arcs name? => trivial

end Statement

/-- What was asked for was posted, be it that it turned out to have no solution. -/
def Modelling.Taken (r : Except ModelError Unit) : Prop :=
  r = .ok () ∨ r = .error .infeasibleAddition

/-- The solver was given single statements, and searches were made in between; the store has the
    variables that were declared, with the domains that they had in the beginning, and the
    condition is what was asked for by what was posted. -/
inductive Solver.Chronicle : Solver Filter → Store → (Valuation → Prop) → Prop where
  /-- Nothing has been stated. -/
  | empty (random : Random) : Chronicle (.empty random) Store.empty fun _ => True
  /-- A single statement was made about variables that were declared. -/
  | stated {sv sv' : Solver Filter} {domains : Store} {asked : Valuation → Prop} {st : Statement}
      {r : Except ModelError Unit} (before : Chronicle sv domains asked)
      (confined : st.Confined domains) (run : Modelling.runOn st.program sv = .ok (r, sv')) :
      Chronicle sv' (st.declare domains)
        fun a => asked a ∧ (Modelling.Taken r → st.Asks domains a)
  /-- A search was made and given up, at its end or earlier. -/
  | searched {B T : Type} [Brancher B] [Termination T] {sv : Solver Filter} {domains : Store}
      {asked : Valuation → Prop} {sr sr' : Search Filter B T} (before : Chronicle sv domains asked)
      (visits : sr.Visits sv) (restored : sr.restore = .ok sr') :
      Chronicle sr'.solver domains asked

namespace Solver

open Program Modelling Constraint

variable {k : Concern} {sv sv' : Solver Filter} {domains : Store} {asked : Valuation → Prop}
  {a : Valuation} {r : Except ModelError Unit}

theorem Chronicle.built (h : sv.Chronicle domains asked) : sv.Built domains := by
  induction h with
  | empty random => exact .empty random
  | stated before confined run ih => exact ih.stated confined.postable run
  | searched before visits restored ih => exact ih.searched visits restored

theorem Built.prepared (h : sv.Built domains) : sv.Prepared := by
  induction h with
  | empty random => exact .empty random
  | stated before postable run ih => exact ih.stated _ run
  | searched before visits restored ih => exact ih.searched visits restored

/-! ### Valuations that are retained -/

/-- It is not known that there is no solution, and the valuation is among those of the space. -/
structure Retains (sv : Solver Filter) (a : Valuation) : Prop where
  /-- The model is not known to have no solution. -/
  feasible : sv.infeasible = false
  /-- The valuation satisfies all filters and has its contents in the domains. -/
  solves : sv.space.Solves a

/-- A solver that is ready stands for the valuations that it retains. -/
theorem Poised.represents_solves (h : sv.Poised k domains) (hfeasible : sv.infeasible = false) :
    sv.Represents k domains sv.space.Solves where
  toPoised := h
  solves := fun _ b => ⟨fun hb => ⟨h.narrower.admits b hb.1, hb⟩, And.right⟩
  refuted := fun hinfeasible => absurd (hfeasible.symm.trans hinfeasible) (by decide)

/-- A solver that stands for a valuation of the domains retains it. -/
theorem Represents.retains {sat : Valuation → Prop} (h : sv.Represents k domains sat)
    (ha : domains.Admits a) (hsat : sat a) : sv.Retains a := by
  cases hfeasible : sv.infeasible with
  | true => exact absurd hsat (h.refuted hfeasible a ha)
  | false => exact ⟨hfeasible, (h.solves hfeasible a).mpr ⟨ha, hsat⟩⟩

/-- What satisfies the demands of a program is retained. -/
theorem Demands.retains {p : Modelling Filter Unit} {sat left : Valuation → Prop}
    (hp : Demands k domains p sat left) (h : sv.Poised k domains) (hretains : sv.Retains a)
    (hsat : sat a) (hrun : p.run.run sv = .ok (r, sv')) : sv'.Retains a := by
  obtain ⟨r', last, hlast, hafter, -⟩ := hp (h.represents_solves hretains.feasible)
  obtain ⟨-, rfl⟩ := Prod.mk.inj (Except.ok.inj (hlast.symm.trans hrun))
  exact hafter.retains (h.narrower.admits a hretains.solves.1) ⟨hretains.solves, hsat⟩

/-- A narrowing retains what obeys it. -/
theorem Retains.narrow {d : Decision} (hretains : sv.Retains a) (h : sv.Poised k domains)
    (hd : d.Known domains) (hholds : d.Holds a)
    (hrun : (Modelling.narrow d.request).run.run sv = .ok (r, sv')) : sv'.Retains a := by
  obtain ⟨r', last, sat', hlast, hafter, hcuts, -⟩ :=
    (h.represents_solves hretains.feasible).narrow hd
  obtain ⟨-, rfl⟩ := Prod.mk.inj (Except.ok.inj (hlast.symm.trans hrun))
  have hadmits := h.narrower.admits a hretains.solves.1
  exact hafter.retains hadmits (hcuts.kept a hadmits hretains.solves hholds)

/-- The ends of a path are looked up first; unless the graph has both of them nothing changes. -/
theorem run_ends_cases {g : GraphId} {source sink : Nat} {rest : Unit → Unit → Modelling Filter Unit}
    (h : sv.Poised k domains) (hknown : domains.knows (.graph g) = true)
    (hrun : (requireNode g source >>= fun u => requireNode g sink >>= rest u).run.run sv
      = .ok (r, sv')) :
    source < (domains.graph g).order ∧ sink < (domains.graph g).order ∨ sv' = sv := by
  have hknown' : sv.store.knows (.graph g) = true := (h.narrower.knows _).trans hknown
  have horder := h.narrower.order g
  rw [← horder]
  by_cases hsource : source < (sv.store.graph g).order
  · by_cases hsink : sink < (sv.store.graph g).order
    · exact Or.inl ⟨hsource, hsink⟩
    · rw [run_bind, run_requireNode hknown' hsource] at hrun
      simp only [Except.bind] at hrun
      rw [run_bind, run_requireNode_refused hknown' hsink] at hrun
      cases hrun
      exact Or.inr rfl
  · rw [run_bind, run_requireNode_refused hknown' hsource] at hrun
    cases hrun
    exact Or.inr rfl

section

variable [k.Universal]

/-- An exact constraint retains what satisfies it. -/
theorem Retains.fits (hretains : sv.Retains a) (h : sv.Poised k domains) {c : Constraint}
    (hfits : c.Fits domains) (hsat : c.Sat a)
    (hrun : (c.post (P := Filter)).run.run sv = .ok (r, sv')) : sv'.Retains a := by
  by_cases haccepted : c.Accepted domains
  · obtain ⟨fs, hfs, hready⟩ := hfits.ready
    have hdemands : Demands k domains (fs.forM (Modelling.post (P := Filter)))
        (fun a => ∀ f ∈ fs, f.Sat a) (fun a => ∀ f ∈ fs, f.Passes a) :=
      demands_forM fun f hf => demands_post (Concern.Universal.regards f) (hready haccepted f hf)
    rw [Constraint.run_post hfits.exact hfs hfits.graph haccepted h.narrower] at hrun
    exact hdemands.retains h hretains ((sat_iff hfits.exact hfs).mp hsat) hrun
  · obtain ⟨e, hrefused⟩ := run_post_refused hfits haccepted h.narrower
    cases hrefused.symm.trans hrun
    exact hretains

/-- A single constraint retains what it asks for. -/
theorem Retains.post (hretains : sv.Retains a) (h : sv.Poised k domains) {c : Constraint}
    (hc : c.Confined domains) (hasks : c.Asks domains a)
    (hrun : (c.post (P := Filter)).run.run sv = .ok (r, sv')) : sv'.Retains a := by
  obtain ⟨hsingle, hpostable, hranges⟩ := hc
  cases c with
  -- the constraints that are not exact are treated one by one
  | differs x m =>
    have hvalues : x.source.Ranges Width.value domains :=
      ((hranges x m rfl).mono fun _ => Width.fits_of_interior).source
    have hadmits := h.narrower.admits a hretains.solves.1
    exact hretains.narrow (d := .impose (x.differs m)) h
      (known_impose fun y hy => (x.subject?_values m).2 y hy ▸ hpostable)
      ((IntVar.holds_differs hvalues hadmits m).mpr hasks) hrun
  | pathNoCycle g source sink =>
    rcases run_ends_cases h hpostable hrun with ⟨hsource, hsink⟩ | rfl
    · exact (demands_pathNoCycle (Concern.Universal.regards _) hpostable hsource hsink).retains h
        hretains hasks hrun
    · exact hretains
  | hamiltonianPath g source sink =>
    rcases run_ends_cases h hpostable hrun with ⟨hsource, hsink⟩ | rfl
    · exact (demands_hamiltonianPath Concern.Universal.regards hpostable hsource hsink).retains h
        hretains hasks hrun
    · exact hretains
  | all constraints => exact hsingle.elim
  | _ => exact hretains.fits h hpostable hasks hrun

end

/-- A statement that posts something retains what it asks for. -/
theorem Retains.stated [k.Universal] (hretains : sv.Retains a) (h : sv.Poised k domains)
    {st : Statement} (hst : st.Confined domains) (hposts : st.Posts) (hasks : st.Asks domains a)
    (hrun : runOn st.program sv = .ok (r, sv')) : sv'.Retains a := by
  cases st with
  | post c => exact hretains.post h hst hasks hrun
  | impose p => exact hretains.narrow (d := .impose p) h (known_impose hst) hasks hrun
  | _ => exact hposts.elim

/-! ### What was asked for -/

theorem local_true (s : Store) : Local s fun _ => True := fun _ _ _ => Iff.rfl

/-- What a constraint that was posted asks for depends on its variables. -/
theorem local_asks {c : Constraint} (h : sv.Poised k domains) (hc : c.Confined domains)
    (hrun : (c.post (P := Filter)).run.run sv = .ok (r, sv')) (htaken : Taken r) :
    Local domains (c.Asks domains) := by
  obtain ⟨hsingle, hpostable, -⟩ := hc
  -- a constraint that was posted was not refused for its arguments
  have hfits : ∀ {c : Constraint}, c.Fits domains → c.Single →
      (c.post (P := Filter)).run.run sv = .ok (r, sv') → Local domains c.Sat := by
    intro c hfits hsingle hrun
    refine local_constraint hfits (Classical.byContradiction fun hrefused => ?_)
    obtain ⟨e, hsame⟩ := run_post_refused hfits hrefused h.narrower
    obtain ⟨rfl, rfl⟩ := Prod.mk.inj (Except.ok.inj (hsame.symm.trans hrun))
    have hanswers := answers_post hsingle h.resting hrun
    rcases htaken with hok | hfailed
    · cases hok
    · obtain ⟨hbefore, hafter⟩ := hanswers.failed hfailed
      cases hbefore.symm.trans hafter
  have hgraph : ∀ {g : GraphId} {sat : Subgraph → Prop}, domains.knows (.graph g) = true →
      Local domains fun a => sat (a.graph g) := by
    intro g sat hknown a b hsame
    have hsub : a.graph g = b.graph g := hsame (.graph g) hknown
    exact iff_of_eq (congrArg sat hsub)
  cases c with
  | differs x m =>
    intro a b hsame
    have hbase : a.int x.base = b.int x.base := hsame (.int x.base) hpostable
    simp only [Constraint.Asks, IntVar.exactValue_eq, hbase]
  | pathNoCycle g source sink => exact hgraph hpostable
  | hamiltonianPath g source sink => exact hgraph hpostable
  | all constraints => exact hsingle.elim
  | _ => exact hfits hpostable hsingle hrun

/-- What a statement asks for that was carried out depends on its variables. -/
theorem local_stated {st : Statement} (h : sv.Poised k domains) (hst : st.Confined domains)
    (hrun : runOn st.program sv = .ok (r, sv')) (htaken : Taken r) :
    Local domains (st.Asks domains) := by
  cases st with
  | post c => exact local_asks h hst hrun htaken
  | impose p =>
    intro a b hsame
    have hsubject : ∀ x, p.subject? = some x → a.int x = b.int x := fun x hx =>
      hsame (.int x) (hst x hx)
    cases p <;> simp_all [Statement.Asks, Predicate.Holds, Predicate.subject?]
  | _ => exact local_true domains

/-- Of a solver that is ready, what is among the solutions of its space depends on the variables. -/
theorem Retains.declared [k.Universal] {st : Statement} {b : Valuation} (hretains : sv.Retains b)
    (h : sv.Poised k domains) (hposts : ¬ st.Posts)
    (hrun : runOn st.program sv = .ok (r, sv')) (ha : (st.declare domains).Admits a)
    (hsame : ∀ v, domains.knows v = true → a.SameAt b v) : sv'.Retains a := by
  obtain ⟨r', last, t, hlast, hinfeasible, hspace, hg⟩ :=
    h.declares (Statement.ne_of_posts hposts).1 (Statement.ne_of_posts hposts).2
  obtain ⟨-, rfl⟩ := Prod.mk.inj (Except.ok.inj (hlast.symm.trans hrun))
  refine ⟨hinfeasible.trans hretains.feasible, ?_⟩
  rw [hspace, Space.solves_grows (h.rest hretains.feasible).watchful hg.second a]
  refine ⟨Store.admits_iff.mpr fun v => ?_, b, hretains.solves, fun v hv => ?_⟩
  · cases hv : domains.knows v with
    | false => exact (hg.admitsAt_iff hv).mpr (Store.admits_iff.mp ha v)
    | true =>
      have hv' : sv.store.knows v = true := (h.narrower.knows v).trans hv
      rw [hg.second.admitsAt_iff hv', (hsame v hv).admitsAt_iff]
      exact Store.admits_iff.mp hretains.solves.1 v
  · exact hsame v ((h.narrower.knows v).symm.trans hv)

/-- Whatever was stated and searched, the valuations of the domains that satisfy what was asked for
    are retained, and what was asked for is about the variables. -/
theorem Chronicle.retains (h : sv.Chronicle domains asked) :
    (∀ a, domains.Admits a → asked a → sv.Retains a) ∧ Local domains asked := by
  induction h with
  | empty random =>
    refine ⟨fun a ha _ => ?_, local_true _⟩
    exact (represents_empty (k := .lapses) random).retains ha trivial
  | @stated sv sv' domains asked st r before confined run ih =>
    obtain ⟨hretains, hlocal⟩ := ih
    have hpoised : sv.Poised .lapses domains := before.built.poised
    obtain ⟨-, -, -, -, hgrows⟩ := hpoised.stated confined.postable
    have hlocal' : Local domains fun a => asked a ∧ (Taken r → st.Asks domains a) := by
      intro a b hsame
      refine and_congr (hlocal a b hsame) (forall_congr' fun htaken => ?_)
      exact local_stated hpoised confined run htaken a b hsame
    refine ⟨fun a ha hasked => ?_, hlocal'.grows hgrows⟩
    -- an addition leaves the domains alone; a new variable adds a domain and asks for nothing
    by_cases hposts : st.Posts
    · have hdomains : st.declare domains = domains := by
        cases st <;> first | rfl | exact hposts.elim
      rw [hdomains] at ha
      by_cases htaken : Taken r
      · exact (hretains a ha hasked.1).stated hpoised confined hposts (hasked.2 htaken) run
      · -- what was refused for its arguments has changed nothing
        have hsame : sv' = sv := by
          cases r with
          | ok _ => exact absurd (Or.inl rfl) htaken
          | error e =>
            exact stated_unchanged confined.single hpoised.resting run fun he =>
              htaken (Or.inr (congrArg _ he))
        rw [hsame]
        exact hretains a ha hasked.1
    · obtain ⟨b, hb, hsame⟩ := hgrows.exists_admits hpoised.wf ha
      have hasked' := (hlocal a b hsame).mp hasked.1
      exact (hretains b hb hasked').declared hpoised hposts run ha hsame
  | searched before visits restored ih =>
    obtain ⟨hretains, hlocal⟩ := ih
    have hpoised : (_ : Solver Filter).Poised .lapses _ := before.built.poised
    obtain ⟨last, hlast, hrestored⟩ := visits.restored hpoised.resting
    obtain rfl := Except.ok.inj (hlast.symm.trans restored)
    refine ⟨fun a ha hasked => ?_, hlocal⟩
    obtain ⟨hfeasible, hsolves⟩ := hretains a ha hasked
    exact ⟨hrestored.infeasible.trans hfeasible, (hrestored.space.solves a).mpr hsolves⟩

/-- Something that turns out to have no solution had none. -/
theorem Chronicle.refutes (h : sv.Chronicle domains asked) {st : Statement}
    (hst : st.Confined domains)
    (hrun : runOn st.program sv = .ok (.error .infeasibleAddition, sv')) (ha : domains.Admits a)
    (hasked : asked a) : ¬ st.Asks domains a := by
  intro hasks
  have hpoised : sv.Poised .lapses domains := h.built.poised
  obtain ⟨hposts, -, hinfeasible⟩ := stated_failed hst.single hpoised.resting hrun
  have hretains := (h.retains.1 a ha hasked).stated hpoised hst hposts hasks hrun
  cases hretains.feasible.symm.trans hinfeasible

/-! ### Solvers that are latched -/

/-- It is known that there is no solution.  So nothing can be posted, and every search is answered at
    once: brancher and limit are not consulted, nor is anything noted about them. -/
structure Latched (sv : Solver Filter) : Prop where
  /-- It is known that there is no solution. -/
  infeasible : sv.infeasible = true
  /-- What is posted is refused, which changes nothing. -/
  refuses : ∀ {st : Statement} {r : Except ModelError Unit} {sv' : Solver Filter}, st.Posts →
    st.Single → runOn st.program sv = .ok (r, sv') →
      sv' = sv ∧ ∃ e, r = .error e ∧ (e = .infeasibleModel ∨ e.OfArguments)
  /-- Statements about variables that exist are answered. -/
  answers : ∀ {st : Statement}, st.Postable sv.store →
    ∃ r sv', runOn st.program sv = .ok (r, sv')
  /-- A search for one solution. -/
  satisfy : ∀ {B T : Type} [Brancher B] [Termination T] (b : B) (limit : T),
    Search.satisfy ⟨sv, b, limit⟩ = .ok (.unsatisfiable, ⟨{ sv with stage := .select }, b, limit⟩)
  /-- An optimisation, unless its objective cannot be turned round. -/
  optimise : ∀ {B T α : Type} [Brancher B] [Termination T] (b : B) (limit : T) (goal : Goal)
    (objective : IntVar) (account : Solver Filter → Solution → Except Fault α),
    Search.optimise goal objective account ⟨sv, b, limit⟩
      = (objective.scaled goal.factor).map fun _ =>
        (.unsatisfiable, [], ⟨{ sv with stage := .select }, b, limit⟩)
  /-- A stream of solutions, however often it is asked. -/
  take : ∀ {B T : Type} [Brancher B] [Termination T] (b : B) (limit : T) (count : Nat),
    ∃ stage, (SolutionStream.ofSearch ⟨sv, b, limit⟩).take count
      = .ok (List.replicate count .unsatisfiable, .ofSearch ⟨{ sv with stage }, b, limit⟩)

section

variable {B T : Type} [Brancher B] [Termination T]

omit [Termination T] in
/-- A search that was not entered leaves everything but the stage as it is. -/
theorem Resting.restore_eq (h : sv.Resting) (b : B) (limit : T) :
    Search.restore ⟨sv, b, limit⟩ = .ok ⟨{ sv with stage := .select }, b, limit⟩ := by
  obtain ⟨hroot, hlevels, hdecision, hcut, -, -, -⟩ := h
  obtain ⟨space, names, random, infeasible, measures, stage, levels, decision?, root?, cut?,
    history⟩ := sv
  subst hroot hlevels hdecision hcut
  rfl

theorem Resting.next_infeasible (h : sv.Resting) (hinfeasible : sv.infeasible = true) (b : B)
    (limit : T) :
    (SolutionStream.ofSearch ⟨sv, b, limit⟩).next
      = .ok (.unsatisfiable, .ofSearch ⟨{ sv with stage := .select }, b, limit⟩) := by
  simp only [SolutionStream.next, SolutionStream.ofSearch, solve_infeasible hinfeasible,
    h.restore_eq b limit, bind, Except.bind]
  rfl

theorem Resting.withStage (h : sv.Resting) (stage : Stage) :
    Solver.Resting { sv with stage } := ⟨h.root, h.levels, h.decision, h.cut, h.wf, h.lines, h.settled⟩

theorem Resting.take_infeasible (h : sv.Resting) (hinfeasible : sv.infeasible = true) (b : B)
    (limit : T) (count : Nat) :
    ∃ stage, (SolutionStream.ofSearch ⟨sv, b, limit⟩).take count
      = .ok (List.replicate count .unsatisfiable, .ofSearch ⟨{ sv with stage }, b, limit⟩) := by
  induction count generalizing sv with
  | zero => exact ⟨sv.stage, rfl⟩
  | succ count ih =>
    obtain ⟨stage, htake⟩ := ih (h.withStage .select) hinfeasible
    refine ⟨stage, ?_⟩
    simp only [SolutionStream.take, h.next_infeasible hinfeasible, bind, Except.bind, htake]
    rfl

theorem Resting.optimise_infeasible {α : Type} (h : sv.Resting) (hinfeasible : sv.infeasible = true)
    (b : B) (limit : T) (goal : Goal) (objective : IntVar)
    (account : Solver Filter → Solution → Except Fault α) :
    Search.optimise goal objective account ⟨sv, b, limit⟩
      = (objective.scaled goal.factor).map fun _ =>
        (.unsatisfiable, [], ⟨{ sv with stage := .select }, b, limit⟩) := by
  cases hscaled : objective.scaled goal.factor with
  | error e =>
    simp only [Search.optimise, hscaled, bind, Except.bind, Except.map]
  | ok cost =>
    rw [Search.optimise_eq hscaled (improve_infeasible hinfeasible b limit cost account)
      (h.restore_eq b limit)]
    rfl

end

/-- A solver at rest that is known to have no solution is latched. -/
theorem Resting.latched (h : sv.Resting) (hinfeasible : sv.infeasible = true) : sv.Latched where
  infeasible := hinfeasible
  refuses := fun hposts hsingle hrun => (answers_stated hposts hsingle h hrun).latched hinfeasible
  answers := fun hst => by
    have hpoised : sv.Poised .lapses sv.store :=
      ⟨h, h.wf, .refl h.wf, fun hfeasible => by cases hinfeasible.symm.trans hfeasible⟩
    obtain ⟨r, sv', hrun, -⟩ := hpoised.stated hst
    exact ⟨r, sv', hrun⟩
  satisfy := fun b limit => by
    simp only [Search.satisfy, solve_infeasible hinfeasible, bind, Except.bind, h.restore_eq b limit]
    rfl
  optimise := h.optimise_infeasible hinfeasible
  take := h.take_infeasible hinfeasible

/-! ### Answers to statements -/

/-- What an answer to a single statement says, wherever models are built and searched.  An error
    other than that of a failed addition means that nothing has changed.  If the addition has
    failed, then no valuation of the variables satisfies what was asked for before together with
    what the statement asks for, and from then on the solver is latched. -/
theorem stated_spec (hprepared : sv.Prepared) {st : Statement} (hsingle : st.Single) :
    (∀ e sv', runOn st.program sv = .ok (.error e, sv') → e ≠ .infeasibleAddition → sv' = sv)
      ∧ (∀ domains asked, sv.Chronicle domains asked → st.Confined domains →
        (∃ r sv', runOn st.program sv = .ok (r, sv'))
          ∧ ∀ sv', runOn st.program sv = .ok (.error .infeasibleAddition, sv') →
            ∀ a, domains.Admits a → asked a → ¬ st.Asks domains a)
      ∧ ∀ sv', runOn st.program sv = .ok (.error .infeasibleAddition, sv') →
        ∀ later, sv'.Later later → later.Latched := by
  have hresting := hprepared.resting
  refine ⟨fun e sv' hrun he => stated_unchanged hsingle hresting hrun he,
    fun domains asked hchronicle hconfined => ⟨?_, ?_⟩, fun sv' hrun later hlater => ?_⟩
  · obtain ⟨r, sv', hrun, -⟩ :=
      (hchronicle.built.poised : sv.Poised .lapses domains).stated hconfined.postable
    exact ⟨r, sv', hrun⟩
  · exact fun sv' hrun a ha hasked => hchronicle.refutes hconfined hrun ha hasked
  · have honward := hlater.onward (hprepared.stated st hrun).resting
    exact honward.resting.latched (honward.infeasible (stated_failed hsingle hresting hrun).2.2)

/-! ### Zero and two -/

/-- There is a variable with the value `v` alone. -/
def only (v : Int) (fits : Width.value.Fits v) : Statement := .bounded v v ⟨fits, fits⟩ none

/-- A variable that is 0 and a variable that is 2. -/
def zeroAndTwo : List Statement := [only 0 (by decide), only 2 (by decide)]

/-- The two variables are equal. -/
def zeroIsTwo : Constraint := .equal (.plain ⟨0⟩) (.plain ⟨1⟩)

/-- The variables are stated, and then that they are equal: tells whether this has failed. -/
def trialOfZeroIsTwo : Except Fault Bool := do
  let sv ← (Solver.empty (.ofSeed 0)).state zeroAndTwo
  let (r, _) ← runOn (Statement.post zeroIsTwo).program sv
  return r matches .error .infeasibleAddition

theorem fits_zeroIsTwo : zeroIsTwo.Fits (Store.empty.declare zeroAndTwo) := by
  have hready : ∀ left right : AffineMap,
      (IntVar.view (.plain ⟨0⟩) left).Within Width.interior 0 →
      (IntVar.view (.plain ⟨1⟩) right).Within Width.interior 2 →
      (Filter.sumAtMost [.view (.plain ⟨0⟩) left, .view (.plain ⟨1⟩) right] 0).Ready
        (Store.empty.declare zeroAndTwo) := by
    intro left right hleft hright
    have honly : ∀ {c v : Int}, (IntegerDomain.bounded c c).contains v = true → v = c := fun hv =>
      Int.le_antisymm (IntegerDomain.contains_iff.mp hv).2.1 (IntegerDomain.contains_iff.mp hv).1
    refine ⟨?_, fun y hy v hv => ?_, ?_, nofun⟩
    · intro v hv
      rcases List.mem_cons.mp hv with rfl | hv
      · rfl
      · rw [List.mem_singleton.mp hv]
        rfl
    · rcases List.mem_cons.mp hy with rfl | hy
      · rwa [honly hv]
      · rw [List.mem_singleton.mp hy] at hv ⊢
        rwa [honly hv]
    · rintro terms limit ⟨⟩
      exact ⟨of_decide_eq_true rfl, by decide, by decide⟩
  have hzero : Width.interior.Fits 0 := by decide
  have htwo : Width.interior.Fits 2 := by decide
  refine ⟨trivial, nofun, _, rfl, fun _ f hf => ?_⟩
  rcases List.mem_cons.mp hf with rfl | hf
  · exact hready _ _ ⟨hzero, by decide⟩ ⟨htwo, by decide⟩
  · rw [List.mem_singleton.mp hf]
    exact hready _ _ ⟨hzero, by decide⟩ ⟨htwo, by decide⟩

/-- That zero is two fails, although the first of the two sums that are posted for it is added with
    success; no valuation makes them equal, and then the solver is latched. -/
theorem stated_spec_zeroIsTwo :
    ∃ sv sv', (Solver.empty (.ofSeed 0)).state zeroAndTwo = .ok sv
      ∧ runOn (Statement.post zeroIsTwo).program sv = .ok (.error .infeasibleAddition, sv')
      ∧ (∀ a, (Store.empty.declare zeroAndTwo).Admits a → a.int ⟨0⟩ ≠ a.int ⟨1⟩)
      ∧ ∀ later, sv'.Later later → later.Latched := by
  have hrun : trialOfZeroIsTwo.toOption = some true := by decide +kernel
  unfold trialOfZeroIsTwo at hrun
  obtain ⟨sv, hstate, hrun⟩ := exists_of_toOption_bind hrun
  obtain ⟨⟨r, sv'⟩, hpost, hrun⟩ := exists_of_toOption_bind hrun
  have hprepared := (Prepared.empty (.ofSeed 0)).state hstate
  obtain ⟨hunchanged, hchronicles, hlatched⟩ :=
    @stated_spec sv hprepared (.post zeroIsTwo) trivial
  cases r with
  | ok u => cases hrun
  | error e =>
    have he : e = .infeasibleAddition := by
      cases e <;> first | rfl | cases hrun
    subst he
    refine ⟨sv, sv', hstate, hpost, fun a ha => ?_, hlatched sv' hpost⟩
    obtain ⟨asked, hasked, hchronicle⟩ : ∃ asked : Valuation → Prop, (∀ a, asked a)
        ∧ sv.Chronicle (Store.empty.declare zeroAndTwo) asked := by
      have hzero := @Chronicle.stated _ _ _ _ (only 0 (by decide)) _ (.empty (.ofSeed 0)) trivial rfl
      have htwo := @Chronicle.stated _ _ _ _ (only 2 (by decide)) _ hzero trivial rfl
      cases hstate
      exact ⟨_, fun _ => ⟨⟨trivial, fun _ => trivial⟩, fun _ => trivial⟩, htwo⟩
    exact (hchronicles _ _ hchronicle ⟨trivial, fits_zeroIsTwo, nofun⟩).2 sv' hpost a ha
      (hasked a)

end Solver

end FiniteDomain
