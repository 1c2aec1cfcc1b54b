import FiniteDomain.Proofs.Branching.Division
import FiniteDomain.Proofs.Filter.Tour
import FiniteDomain.Proofs.Model.Meaning

/-! # Statements of every kind

    Values may be taken away, predicates imposed and paths demanded as well, as
    long as the variables exist (`Statement.Postable`).  Where a bounded domain
    keeps a value, or a filter checks less than its constraint says, it is not said
    what is left; but no fault occurs, and afterwards the solver is ready for a
    search (`Solver.Poised.state`).

    What a path over all nodes of a graph demands is known
    (`Constraint.demands_hamiltonianPath`). -/

namespace FiniteDomain

namespace Solver

open Program Modelling

variable {k : Concern} {sv sv' : Solver Filter} {domains : Store} {sat sat' : Valuation → Prop}

/-- A solver that is ready stands for something. -/
theorem Poised.represents (h : sv.Poised k domains) : ∃ sat, sv.Represents k domains sat := by
  cases hfeasible : sv.infeasible with
  | true =>
    exact ⟨fun _ => False, h, fun hfalse => absurd (hfeasible.symm.trans hfalse) (by decide),
      fun _ _ _ hno => hno⟩
  | false =>
    refine ⟨sv.space.Solves, h, fun _ a => ⟨fun ha => ⟨h.narrower.admits a ha.1, ha⟩, And.right⟩, ?_⟩
    exact fun hinfeasible => absurd (hfeasible.symm.trans hinfeasible) (by decide)

/-- A program whose demands are known ends without a fault, and a solver that is ready stays so. -/
theorem Demands.runs {p : Modelling Filter Unit} {left : Valuation → Prop}
    (h : Demands k domains p sat left) (hsv : sv.Poised k domains) :
    ∃ r sv', p.run.run sv = .ok (r, sv') ∧ sv'.Poised k domains := by
  obtain ⟨before, hbefore⟩ := hsv.represents
  obtain ⟨r, sv', hrun, hafter, -⟩ := h hbefore
  exact ⟨r, sv', hrun, hafter.toPoised⟩

/-! ### Narrowing -/

/-- Nothing is added when the decision is carried out, and nothing is lost of which it holds; what
    is left obeys the decision if it never has to take a value out of the middle of a bounded
    domain. -/
structure Cuts (domains : Store) (d : Decision) (sat sat' : Valuation → Prop) : Prop where
  added : ∀ a, sat' a → sat a
  kept : ∀ a, domains.Admits a → sat a → d.Holds a → sat' a
  obeys : (∀ s, d.Sharp s) → ∀ a, sat' a → d.Holds a

/-- A space that is reached without losing anything of which the decision holds. -/
theorem Represents.cuts (h : sv.Represents k domains sat) (hfeasible : sv.infeasible = false)
    {d : Decision} {sp' : Space Filter} (hleads : sv.space.Leads sp')
    (hkept : ∀ a, sv.space.Solves a → d.Holds a → sp'.store.Admits a)
    (hobeys : (∀ s, d.Sharp s) → ∀ a, sp'.store.Admits a → d.Holds a) :
    Cuts domains d sat sp'.Solves where
  added := fun a ha => by
    have hsolves : sv.space.Solves a :=
      ⟨(hleads.narrower (h.rest hfeasible).wf).admits a ha.1, (hleads.satisfies a).mp ha.2⟩
    exact ((h.solves hfeasible a).mp hsolves).2
  kept := fun a ha hsat hholds => by
    have hsolves := (h.solves hfeasible a).mpr ⟨ha, hsat⟩
    exact ⟨hkept a hsolves hholds, (hleads.satisfies a).mpr hsolves.2⟩
  obeys := fun hsharp a ha => hobeys hsharp a ha.1

/-- Carrying out a decision leaves the solver ready. -/
theorem Represents.narrow (h : sv.Represents k domains sat) {d : Decision} (hd : d.Known domains) :
    ∃ r sv' sat', (Modelling.narrow d.request).run.run sv = .ok (r, sv')
      ∧ sv'.Represents k domains sat' ∧ Cuts domains d sat sat'
      ∧ Tightens sv sv' (fun a => (∀ s, d.Sharp s) → d.Holds a)
      ∧ (r = .ok () ∨ sv'.infeasible = true) := by
  cases hfeasible : sv.infeasible with
  | true =>
    -- a solver that has no solution ignores what it is asked for
    refine ⟨_, sv, fun a => sat a ∧ d.Holds a, run_narrow_infeasible d.request hfeasible,
      h.stronger hfeasible fun _ hsat => hsat.1, ?_, tightens_of_infeasible hfeasible,
      Or.inr hfeasible⟩
    exact ⟨fun _ hsat => hsat.1, fun _ _ hsat hholds => ⟨hsat, hholds⟩, fun _ _ hsat => hsat.2⟩
  | false =>
    have hbefore := h.rest hfeasible
    have hknown := hd.narrower h.narrower
    have hspares : sv.space.Spares fun a => sv.space.Satisfies a ∧ d.Holds a :=
      hbefore.watchful.spares_of_satisfies fun _ hsat => hsat.1
    have hholds : ∀ a, sv.space.Satisfies a ∧ d.Holds a → ∀ d' ∈ [d], d'.Holds a := by
      intro a hsat d' hd'
      rw [List.mem_singleton.mp hd']
      exact hsat.2
    obtain ⟨c?, sp', hsettle, hconclude, -⟩ := Space.settle_spec hbefore.watchful hspares hholds
      fun d' hd' => (List.mem_singleton.mp hd').symm ▸ hknown
    have hrun := run_narrow d.request h.resting.root hfeasible
    have hlist : sv.space.settle [d.request] = .ok (c?, sp') := hsettle
    rw [hlist] at hrun
    have hleads : sv.space.Leads sp' := hconclude.leads
    have hnarrower := h.narrower.trans (hleads.narrower hbefore.wf)
    cases c? with
    | none =>
      have hobeys : (∀ s, d.Sharp s) → ∀ a, sp'.store.Admits a → d.Holds a := fun hsharp =>
        (Space.holds_of_settle hbefore.wf hknown
          (Decision.apply_keeps hbefore.wf (hsharp _)) hlist).1
      refine ⟨_, _, sp'.Solves, hrun, ⟨⟨?_, h.wf, hnarrower, fun _ => hbefore.settle hsettle⟩,
        fun _ a => ⟨fun ha => ⟨hnarrower.admits a ha.1, ha⟩, And.right⟩, ?_⟩, ?_, ?_, Or.inl rfl⟩
      · exact (onward_narrow h.resting.onward hrun).resting
      · exact fun hinfeasible => absurd (hfeasible.symm.trans hinfeasible) (by decide)
      · exact h.cuts hfeasible hleads
          (fun a ha hholds => hconclude.kept a ha.1 ⟨ha.2, hholds⟩) hobeys
      · refine ⟨fun hinfeasible => hinfeasible, fun _ a ha => ?_⟩
        exact ⟨hleads.passes hbefore.wf ha, fun hsharp => hobeys hsharp a ha.1⟩
    | some c =>
      -- nothing that is admitted obeys the decision, so the stronger relation is represented by
      -- none
      refine ⟨_, _, fun a => sat a ∧ d.Holds a, hrun, ⟨⟨?_, h.wf, ?_, nofun⟩, nofun, ?_⟩, ?_,
        tightens_of_infeasible rfl, Or.inr rfl⟩
      · exact (onward_narrow h.resting.onward hrun).resting
      · exact h.narrower.trans ((hleads.trans (Space.leads_dropEvents sp')).narrower hbefore.wf)
      · intro _ a ha hsat
        obtain ⟨hadmits, hall⟩ := (h.solves hfeasible a).mpr ⟨ha, hsat.1⟩
        exact hconclude.refuted c rfl a hadmits ⟨hall, hsat.2⟩
      · exact ⟨fun _ hsat => hsat.1, fun _ _ hsat hd' => ⟨hsat, hd'⟩, fun _ _ hsat => hsat.2⟩

/-- A narrowing that is always exact demands what the decision says. -/
theorem demands_narrow {d : Decision} (hd : d.Known domains) (hsharp : ∀ s, d.Sharp s) :
    Demands k domains (Modelling.narrow d.request) d.Holds d.Holds := by
  intro sv before h
  obtain ⟨r, sv', sat', hrun, hrep, hcuts, htightens, hcase⟩ := h.narrow hd
  refine ⟨r, sv', hrun, hrep.congr fun a ha => ?_, ⟨htightens.infeasible, fun hfeasible a ha => ?_⟩,
    hcase⟩
  · exact ⟨fun hsat => ⟨hcuts.added a hsat, hcuts.obeys hsharp a hsat⟩,
      fun hsat => hcuts.kept a ha hsat.1 hsat.2⟩
  · exact (htightens.passes hfeasible a ha).imp_right fun hholds => hholds hsharp

/-! ### Nodes that are looked up -/

theorem demands_requireNode {g : GraphId} (hknown : domains.knows (.graph g) = true) {n : Nat}
    (hlt : n < (domains.graph g).order) :
    Demands k domains (requireNode g n) (fun _ => True) fun _ => True := by
  intro sv before h
  have hknown' : sv.store.knows (.graph g) = true := (h.narrower.knows _).trans hknown
  have hlt' : n < (sv.store.graph g).order := (h.narrower.order g).symm ▸ hlt
  exact ⟨_, sv, run_requireNode hknown' hlt', h.congr fun _ _ => (and_iff_left trivial).symm,
    tightens_refl sv, Or.inl rfl⟩

theorem Demands.orderOf {g : GraphId} (hknown : domains.knows (.graph g) = true)
    {rest : Nat → Modelling Filter Unit} {left : Valuation → Prop}
    (h : Demands k domains (rest (domains.graph g).order) sat left) :
    Demands k domains (Modelling.orderOf g >>= rest) sat left := by
  intro sv before hbefore
  have hknown' : sv.store.knows (.graph g) = true := (hbefore.narrower.knows _).trans hknown
  rw [run_bind, run_orderOf hknown', hbefore.narrower.order g]
  exact h hbefore

end Solver

/-! ### Programs that are safe -/

/-- The program ends without a fault, and a solver that is ready stays so. -/
abbrev Modelling.Safe (k : Concern) (domains : Store) (p : Modelling Filter Unit) : Prop :=
  Program.Upholds (fun _ => False) (Solver.Poised k · domains) p

namespace Modelling

open Program Solver

variable {k : Concern} {domains : Store} {p : Modelling Filter Unit}

theorem safe_of_runs (h : ∀ sv : Solver Filter, sv.Poised k domains →
    ∃ r sv', p.run.run sv = .ok (r, sv') ∧ sv'.Poised k domains) : Safe k domains p where
  keeps := fun sv r sv' hsv hrun => by
    obtain ⟨r', last, hlast, hpoised⟩ := h sv hsv
    cases hlast.symm.trans hrun
    exact hpoised
  raises := fun sv hsv => by
    obtain ⟨r, sv', hrun, -⟩ := h sv hsv
    rw [hrun]
    exact .ok _

/-- Programs whose demands are known are safe. -/
theorem safe_of_demands {sat left : Valuation → Prop} (h : Demands k domains p sat left) :
    Safe k domains p := safe_of_runs fun _ hsv => h.runs hsv

theorem safe_narrow {d : Decision} (hd : d.Known domains) : Safe k domains (narrow d.request) := by
  refine safe_of_runs fun sv hsv => ?_
  obtain ⟨before, hbefore⟩ := hsv.represents
  obtain ⟨r, sv', sat', hrun, hafter, -, -⟩ := hbefore.narrow hd
  exact ⟨r, sv', hrun, hafter.toPoised⟩

theorem safe_impose {q : Predicate}
    (hq : ∀ x, q.subject? = some x → domains.knows (.int x) = true) : Safe k domains (impose q) :=
  safe_narrow (d := .impose q) (known_impose hq)

/-- What follows after a node was looked up matters only if there is the node. -/
theorem safe_requireNode {g : GraphId} (hknown : domains.knows (.graph g) = true) {n : Nat}
    {rest : Unit → Modelling Filter Unit}
    (h : n < (domains.graph g).order → Safe k domains (rest ())) :
    Safe k domains (requireNode g n >>= rest) := by
  by_cases hlt : n < (domains.graph g).order
  · exact (safe_of_demands (demands_requireNode hknown hlt)).bind fun _ => h hlt
  · refine safe_of_runs fun sv hsv => ?_
    have hknown' : sv.store.knows (.graph g) = true := (hsv.narrower.knows _).trans hknown
    have hle : ¬ n < (sv.store.graph g).order := (hsv.narrower.order g).symm ▸ hlt
    exact ⟨_, sv, by rw [run_bind, run_requireNode_refused hknown' hle]; rfl, hsv⟩

end Modelling

/-! ### Constraints -/

namespace Constraint

open Program Solver Modelling

variable {s domains : Store} {k : Concern} {g : GraphId} {source sink : Nat}

mutual

/-- The constraint can be posted on the variables: those of the exact kinds fit, and those of the
    others are about variables that exist. -/
def Postable (s : Store) : Constraint → Prop
  | .differs x _ => s.knows (.int x.base) = true
  | .pathNoCycle g _ _ | .hamiltonianPath g _ _ => s.knows (.graph g) = true
  | .all constraints => PostableAll s constraints
  | c => c.Fits s

/-- All of the constraints can be posted. -/
def PostableAll (s : Store) : List Constraint → Prop
  | [] => True
  | c :: rest => c.Postable s ∧ PostableAll s rest

end

/-- The filter of paths can be run. -/
theorem ready_pathNoCycle (hknown : s.knows (.graph g) = true) (hsource : source < (s.graph g).order)
    (hsink : sink < (s.graph g).order) : (Filter.pathNoCycle g source sink).Ready s where
  known := fun v hv => by
    rw [List.mem_singleton.mp hv]
    exact hknown
  ranges := fun x hx => absurd hx List.not_mem_nil
  sums := nofun
  ends := fun _ _ _ heq => by
    cases heq
    exact ⟨hsource, hsink⟩

theorem ready_oneNeighbour (hknown : s.knows (.graph g) = true) (d : Direction) (but : Nat) :
    (Filter.oneNeighbour d g but).Ready s where
  known := fun v hv => by
    rw [List.mem_singleton.mp hv]
    exact hknown
  ranges := fun x hx => absurd hx List.not_mem_nil
  sums := nofun
  ends := nofun

theorem demands_pathNoCycle (hk : ∀ s, k.Regards (.pathNoCycle g source sink) s)
    (hknown : domains.knows (.graph g) = true) (hsource : source < (domains.graph g).order)
    (hsink : sink < (domains.graph g).order) :
    Demands k domains (postPathNoCycle g source sink) (Filter.pathNoCycle g source sink).Sat
      (Filter.pathNoCycle g source sink).Passes :=
  ((demands_requireNode hknown hsource).then ((demands_requireNode hknown hsink).then
    (demands_post hk (ready_pathNoCycle hknown hsource hsink)))).congr (fun a => by simp)
      fun _ ha => ha.2.2

theorem demands_oneNeighbour (d : Direction) {but : Nat}
    (hk : ∀ s, k.Regards (.oneNeighbour d g but) s) (hknown : domains.knows (.graph g) = true)
    (hbut : but < (domains.graph g).order) :
    Demands k domains (postOneNeighbour d g but) (Filter.oneNeighbour d g but).Sat
      (Filter.oneNeighbour d g but).Passes :=
  ((demands_requireNode hknown hbut).then
    (demands_post hk (ready_oneNeighbour hknown d but))).congr (fun a => by simp) fun _ ha => ha.2

theorem demands_includeNode (hknown : domains.knows (.graph g) = true) {n : Nat}
    (hlt : n < (domains.graph g).order) :
    Demands k domains (includeNode g n) (fun a => n ∈ (a.graph g).nodes)
      fun a => n ∈ (a.graph g).nodes :=
  ((demands_requireNode hknown hlt).then (demands_narrow (d := .includeNode g n)
    (known_of_node hknown hlt).1 nofun)).congr (fun a => by simp [Decision.Holds]) fun _ ha => ha.2

/-- A path over all nodes is demanded step by step, and what passes all steps is one. -/
theorem demands_hamiltonianPath (hk : ∀ f s, k.Regards f s)
    (hknown : domains.knows (.graph g) = true) (hsource : source < (domains.graph g).order)
    (hsink : sink < (domains.graph g).order) :
    Demands k domains (postHamiltonianPath g source sink)
      (fun a => Filter.Hamiltonian (domains.graph g).order source sink (a.graph g))
      fun a => Filter.Hamiltonian (domains.graph g).order source sink (a.graph g) := by
  have hnodes : Demands k domains
      ((List.range (domains.graph g).order).forM (Modelling.includeNode g))
      (fun a => ∀ n ∈ List.range (domains.graph g).order, n ∈ (a.graph g).nodes)
      fun a => ∀ n ∈ List.range (domains.graph g).order, n ∈ (a.graph g).nodes :=
    demands_forM fun n hn => demands_includeNode hknown (List.mem_range.mp hn)
  have hfilters := hnodes.then
    ((demands_oneNeighbour .successors (hk _) hknown hsink).then
      ((demands_oneNeighbour .predecessors (hk _) hknown hsource).then
        (demands_pathNoCycle (hk _) hknown hsource hsink)))
  refine ((demands_requireNode hknown hsource).then
    ((demands_requireNode hknown hsink).then (Demands.orderOf hknown hfilters))).congr
      (fun a => ?_) fun a => ?_
  · constructor
    · rintro ⟨-, -, hall, hsuccessors, hpredecessors, hpaths⟩
      exact ⟨fun n hn => hall n (List.mem_range.mpr hn), hsuccessors, hpredecessors, hpaths⟩
    · rintro ⟨hall, hsuccessors, hpredecessors, hpaths⟩
      exact ⟨trivial, trivial, fun n hn => hall n (List.mem_range.mp hn), hsuccessors,
        hpredecessors, hpaths⟩
  · rintro ⟨-, -, hall, hsuccessors, hpredecessors, hchains⟩
    exact .of_chainsOnly (fun n hn => hall n (List.mem_range.mpr hn)) hsuccessors hpredecessors
      hchains

section

variable [k.Universal]

/-- A constraint that fits is safe. -/
theorem Fits.safe {c : Constraint} (h : c.Fits domains) : Safe k domains (c.post (P := Filter)) := by
  refine safe_of_runs fun sv hsv => ?_
  by_cases haccepted : c.Accepted domains
  · obtain ⟨fs, hfs, hready⟩ := h.ready
    have hdemands : Demands k domains (fs.forM (Modelling.post (P := Filter)))
        (fun a => ∀ f ∈ fs, f.Sat a) (fun a => ∀ f ∈ fs, f.Passes a) :=
      demands_forM fun f hf => demands_post (Concern.Universal.regards f) (hready haccepted f hf)
    rw [run_post h.exact hfs h.graph haccepted hsv.narrower]
    exact hdemands.runs hsv
  · obtain ⟨e, hrun⟩ := run_post_refused h haccepted hsv.narrower
    exact ⟨_, sv, hrun, hsv⟩

theorem safe_postPathNoCycle (hknown : domains.knows (.graph g) = true) :
    Safe k domains (postPathNoCycle g source sink) :=
  safe_requireNode hknown fun hsource => safe_requireNode hknown fun hsink =>
    safe_of_demands (demands_post (Concern.Universal.regards _)
      (ready_pathNoCycle hknown hsource hsink))

theorem safe_postHamiltonianPath (hknown : domains.knows (.graph g) = true) :
    Safe k domains (postHamiltonianPath g source sink) := by
  by_cases hends : source < (domains.graph g).order ∧ sink < (domains.graph g).order
  · exact safe_of_demands (demands_hamiltonianPath Concern.Universal.regards hknown hends.1 hends.2)
  · exact safe_requireNode hknown fun hsource => safe_requireNode hknown fun hsink =>
      absurd ⟨hsource, hsink⟩ hends

end

mutual

/-- Posting a constraint is safe. -/
theorem safe_post [k.Universal] : (c : Constraint) → c.Postable domains → Safe k domains (c.post (P := Filter))
  | .differs x k, h => safe_impose fun y hy => (x.subject?_values k).2 y hy ▸ h
  | .pathNoCycle _ _ _, h => safe_postPathNoCycle h
  | .hamiltonianPath _ _ _, h => safe_postHamiltonianPath h
  | .all constraints, h => safe_postAll constraints h
  | .allDifferent _ _, h => Fits.safe h
  | .sumAtMost _ _, h => Fits.safe h
  | .sumEquals _ _, h => Fits.safe h
  | .atMost _ _, h => Fits.safe h
  | .less _ _, h => Fits.safe h
  | .equal _ _, h => Fits.safe h
  | .distinct _ _, h => Fits.safe h
  | .subset _ _, h => Fits.safe h
  | .disjoint _ _, h => Fits.safe h
  | .member _ _, h => Fits.safe h
  | .oneNeighbour _ _ _, h => Fits.safe h

theorem safe_postAll [k.Universal] : (constraints : List Constraint) → PostableAll domains constraints →
    Safe k domains (postAll (P := Filter) constraints)
  | [], _ => upholds_pure _
  | c :: rest, h => (safe_post c h.1).bind fun _ => safe_postAll rest h.2

end

end Constraint

/-! ### Statements -/

/-- The statement can be made about the variables. -/
def Statement.Postable (s : Store) : Statement → Prop
  | .post c => c.Postable s
  | .impose p => ∀ x, p.subject? = some x → s.knows (.int x) = true
  | _ => True

/-- The variables after a list of statements. -/
def Store.declare (s : Store) (statements : List Statement) : Store :=
  statements.foldl Statement.declare s

/-- Every statement can be made about the variables declared before it. -/
def Store.Permits (s : Store) : List Statement → Prop
  | [] => True
  | st :: rest => st.Postable s ∧ (st.declare s).Permits rest

namespace Solver

variable {sv : Solver Filter} {domains : Store} {statements : List Statement}

theorem poised_empty (random : Random) :
    (Solver.empty random : Solver Filter).Poised .lapses Store.empty :=
  (represents_empty random).toPoised

variable {k : Concern} [k.Universal]

/-- A statement is carried out, and leaves the solver ready. -/
theorem Poised.stated (h : sv.Poised k domains) {st : Statement}
    (hst : st.Postable domains) :
    ∃ r sv', Modelling.runOn st.program sv = .ok (r, sv')
      ∧ sv'.Poised k (st.declare domains) ∧ domains.Grows (st.declare domains) := by
  -- what posts or imposes declares nothing: the domains stay
  have hsafe : ∀ {p : Modelling Filter Unit}, Modelling.Safe k domains p →
      ∃ r sv', Modelling.runOn p sv = .ok (r, sv') ∧ sv'.Poised k domains
        ∧ domains.Grows domains := by
    intro p hp
    cases hrun : Modelling.runOn p sv with
    | error e => exact (hp.raises sv h e hrun).elim
    | ok out =>
      exact ⟨out.1, out.2, rfl, hp.keeps sv out.1 out.2 h hrun, Store.grows_refl h.wf⟩
  have hdeclare : (∀ c, st ≠ .post c) → (∀ p, st ≠ .impose p) →
      ∃ r sv', Modelling.runOn st.program sv = .ok (r, sv')
        ∧ sv'.Poised k (st.declare domains) ∧ domains.Grows (st.declare domains) := by
    intro hpost himpose
    obtain ⟨r, sv', t, hrun, hinfeasible, hspace, hg⟩ := h.declares hpost himpose
    exact ⟨r, sv', hrun, h.grows Concern.Universal.persists
      (st.upholds_program.keeps _ _ _ h.resting hrun) hinfeasible hspace hg, hg.first⟩
  cases st with
  | post c => exact hsafe (Constraint.safe_post c hst)
  | impose p => exact hsafe (Modelling.safe_impose hst)
  | bounded lower upper fits name? => exact hdeclare nofun nofun
  | enumerated values fits name? => exact hdeclare nofun nofun
  | set elements name? => exact hdeclare nofun nofun
  | graph order arcs name? => exact hdeclare nofun nofun

/-- Statements that can be made are all carried out, and leave the solver ready. -/
theorem Poised.state (h : sv.Poised k domains) (hpermits : domains.Permits statements) :
    ∃ sv', sv.state statements = .ok sv' ∧ sv'.Poised k (domains.declare statements)
      ∧ domains.Grows (domains.declare statements) := by
  induction statements generalizing sv domains with
  | nil => exact ⟨sv, rfl, h, Store.grows_refl h.wf⟩
  | cons st rest ih =>
    obtain ⟨r, mid, hrun, hmid, hgrows⟩ := h.stated hpermits.1
    obtain ⟨sv', hstate, hpoised, hgrows'⟩ := ih hmid hpermits.2
    refine ⟨sv', ?_, hpoised, hgrows.trans hgrows'⟩
    unfold Solver.state
    rw [hrun]
    exact hstate

end Solver

end FiniteDomain
