import FiniteDomain.Proofs.Model.Meaning
import FiniteDomain.Proofs.Propagation.Rest

/-! # The order of posting does not matter

    Constraints over enumerated domains may be posted in any order: either the
    model turns out to have no solution, or the domains end with the same contents
    (`posting_order`).

    A store is stable for a constraint if it leaves nothing to do for the filters
    that the constraint is posted as.  What a filter demands of a store it demands
    of every smaller one (`Grants.of_narrower`), so propagation never leaves a
    stable store that it begins above.  Where it ends is stable itself: it ends
    with the largest stable store, which does not depend on the order
    (`Attains`). -/

namespace FiniteDomain

/-! ### Contents -/

namespace Store

/-- The domains have the same contents. -/
structure SameContents (s t : Store) : Prop where
  /-- The variables are the same. -/
  knows : ∀ v, s.knows v = t.knows v
  /-- Integer variables have the same values. -/
  values : ∀ x v, (s.int x).contains v = (t.int x).contains v
  /-- Sets have the same certain elements. -/
  kernel : ∀ y e, (s.set y).inKernel e = (t.set y).inKernel e
  /-- Sets have the same possible elements. -/
  envelope : ∀ y e, (s.set y).inEnvelope e = (t.set y).inEnvelope e
  /-- Graphs have the same certain nodes. -/
  certainNodes : ∀ g n, (s.graph g).kernel.hasNode n = (t.graph g).kernel.hasNode n
  /-- Graphs have the same possible nodes. -/
  possibleNodes : ∀ g n, (s.graph g).envelope.hasNode n = (t.graph g).envelope.hasNode n
  /-- Graphs have the same certain arcs. -/
  certainArcs : ∀ g m n, (s.graph g).kernel.hasArc m n = (t.graph g).kernel.hasArc m n
  /-- Graphs have the same possible arcs. -/
  possibleArcs : ∀ g m n, (s.graph g).envelope.hasArc m n = (t.graph g).envelope.hasArc m n

/-- Stores that contain each other have the same contents. -/
theorem Narrower.sameContents {s t : Store} (hst : s.Narrower t) (hts : t.Narrower s) :
    s.SameContents t where
  knows := hts.knows
  values := fun _ _ => Bool.eq_iff_iff.mpr ⟨hts.contains, hst.contains⟩
  kernel := fun _ _ => Bool.eq_iff_iff.mpr ⟨hst.inKernel, hts.inKernel⟩
  envelope := fun _ _ => Bool.eq_iff_iff.mpr ⟨hts.inEnvelope, hst.inEnvelope⟩
  certainNodes := fun _ _ => Bool.eq_iff_iff.mpr ⟨hst.kernelNode, hts.kernelNode⟩
  possibleNodes := fun _ _ => Bool.eq_iff_iff.mpr ⟨hts.envelopeNode, hst.envelopeNode⟩
  certainArcs := fun _ _ _ => Bool.eq_iff_iff.mpr ⟨hst.kernelArc, hts.kernelArc⟩
  possibleArcs := fun _ _ _ => Bool.eq_iff_iff.mpr ⟨hts.envelopeArc, hst.envelopeArc⟩

end Store

/-! ### Stable stores -/

/-- There is nothing left to do for the filter, whose domains are enumerated. -/
def Filter.Stable (u : Store) (f : Filter) : Prop := f.Enumerated u ∧ f.Rests u

namespace Constraint

/-- The constraint is about enumerated domains: it is exact and its filters can be made and run,
    or it takes a value away. -/
def Suits (s : Store) : Constraint → Prop
  | .differs x _ => s.knows (.int x.base) = true ∧ (s.int x.base).isEnumerated = true
      ∧ x.Ranges Width.interior s
  | c => c.Fits s ∧ ∀ fs, c.filters = .ok fs → ∀ f ∈ fs, f.Enumerated s

/-- The store leaves nothing to do for the constraint, unless its arguments are refused on the
    initial domains. -/
def Stable (domains u : Store) : Constraint → Prop
  | .differs x k => ∀ a, u.Admits a → x.exactValue a.int ≠ k
  | c => c.Accepted domains → ∀ fs, c.filters = .ok fs → ∀ f ∈ fs, f.Stable u

end Constraint

/-! ### Largest stable stores -/

namespace Solver

open Program Modelling

/-- Unless the solver is known to have no solution, its store is the largest of those within the
    domains that are stable; if it is known to have none, there is no such store. -/
structure Attains (sv : Solver Filter) (domains : Store) (stable : Store → Prop) : Prop where
  /-- No search is in progress, and unless there is no solution nothing is pending. -/
  resting : sv.Resting
  /-- The solver has the variables, with domains that are at most the initial ones. -/
  narrower : domains.Narrower sv.store
  /-- Enumerated domains have stayed so. -/
  enumerated : ∀ x, (domains.int x).isEnumerated = true → (sv.store.int x).isEnumerated = true
  /-- A filter is at rest unless it is about to be run. -/
  watchful : sv.infeasible = false → sv.space.Watchful .unrest fun _ _ => False
  /-- Stable stores leave nothing to do for the posted filters. -/
  posted : sv.infeasible = false → ∀ i f, sv.space.filterAt? i = some f →
    f.Decisive ∧ ∀ u, stable u → f.Stable u
  /-- A store within the one at hand that leaves nothing to do for them is stable. -/
  reached : sv.infeasible = false → ∀ u, sv.store.Narrower u →
    (∀ i f, sv.space.filterAt? i = some f → f.Stable u) → stable u
  /-- Every stable store within the domains lies within the store at hand. -/
  largest : ∀ u, domains.Narrower u → stable u → sv.infeasible = false ∧ sv.store.Narrower u

variable {sv sv' : Solver Filter} {domains : Store} {stable stable' : Store → Prop}

namespace Attains

theorem congr (h : sv.Attains domains stable) (hiff : ∀ u, stable u ↔ stable' u) :
    sv.Attains domains stable' where
  resting := h.resting
  narrower := h.narrower
  enumerated := h.enumerated
  watchful := h.watchful
  posted := fun hfeasible i f hf =>
    (h.posted hfeasible i f hf).imp_right fun hstable u hu => hstable u ((hiff u).mpr hu)
  reached := fun hfeasible u hu hrests => (hiff u).mp (h.reached hfeasible u hu hrests)
  largest := fun u hu hstable => h.largest u hu ((hiff u).mpr hstable)

/-- Where no store is stable, none is that has to meet further demands. -/
theorem refuted (h : sv.Attains domains stable) (hinfeasible : sv.infeasible = true)
    (himp : ∀ u, stable' u → stable u) : sv.Attains domains stable' := by
  have hno : ∀ {p : Prop}, sv.infeasible = false → p := fun hfeasible =>
    absurd (hinfeasible.symm.trans hfeasible) (by decide)
  exact ⟨h.resting, h.narrower, h.enumerated, hno, hno, hno,
    fun u hu hstable => h.largest u hu (himp u hstable)⟩

/-- What a request comes to that keeps the stable stores. -/
theorem after {base sp : Space Filter} {c? : Option Contradiction} (h : sv.Attains domains stable)
    (hconclude : base.Concludes (Space.Among fun u => domains.Narrower u ∧ stable' u) c? sp)
    (hbase : base.store = sv.store) (himp : ∀ u, stable' u → stable u) :
    domains.Narrower sp.store
      ∧ (∀ x, (domains.int x).isEnumerated = true → (sp.store.int x).isEnumerated = true)
      ∧ ∀ u, domains.Narrower u → stable' u → c? = none ∧ sp.store.Narrower u := by
  have hwf : base.store.Wf := hbase ▸ h.resting.wf
  refine ⟨h.narrower.trans (hbase ▸ hconclude.leads.narrower hwf), fun x hx => ?_,
    fun u hu hstable => hconclude.contains hwf ⟨hu, hstable⟩ ?_⟩
  · exact hconclude.leads.store.isEnumerated (hbase ▸ h.enumerated x hx)
  · exact hbase ▸ (h.largest u hu (himp u hstable)).2

/-- A request that succeeds. -/
theorem success {base sp : Space Filter} (h : sv.Attains domains stable)
    (hconclude : base.Concludes (Space.Among fun u => domains.Narrower u ∧ stable' u) none sp)
    (hbase : base.store = sv.store) (himp : ∀ u, stable' u → stable u)
    (hresting : ({ sv with space := sp } : Solver Filter).Resting)
    (hfeasible : sv.infeasible = false) (hwatchful : sp.Watchful .unrest fun _ _ => False)
    (hposted : ∀ i f, base.filterAt? i = some f → f.Decisive ∧ ∀ u, stable' u → f.Stable u)
    (hreached : ∀ u, sp.store.Narrower u →
      (∀ i f, base.filterAt? i = some f → f.Stable u) → stable' u) :
    ({ sv with space := sp } : Solver Filter).Attains domains stable' := by
  obtain ⟨hnarrower, henum, hcontains⟩ := h.after hconclude hbase himp
  have hfilters := hconclude.leads.filterAt
  refine ⟨hresting, hnarrower, henum, fun _ => hwatchful, fun _ i f hf => ?_,
    fun _ u hu hrests => ?_, fun u hu hstable => ⟨hfeasible, (hcontains u hu hstable).2⟩⟩
  · exact hposted i f ((hfilters i).symm.trans hf)
  · exact hreached u hu fun i f hf => hrests i f ((hfilters i).trans hf)

/-- A request that fails. -/
theorem failure {base sp : Space Filter} {c : Contradiction} (h : sv.Attains domains stable)
    (hconclude : base.Concludes (Space.Among fun u => domains.Narrower u ∧ stable' u) (some c) sp)
    (hbase : base.store = sv.store) (himp : ∀ u, stable' u → stable u)
    (hresting : sv'.Resting) (hinfeasible : sv'.infeasible = true)
    (hstore : sp.store.SameDomains sv'.store) : sv'.Attains domains stable' := by
  obtain ⟨hnarrower, henum, hcontains⟩ := h.after hconclude hbase himp
  have hno : ∀ {p : Prop}, sv'.infeasible = false → p := fun hfeasible =>
    absurd (hinfeasible.symm.trans hfeasible) (by decide)
  refine ⟨hresting, hnarrower.trans (hstore.narrower hnarrower.wf), fun x hx => ?_, hno, hno, hno,
    fun u hu hstable => ?_⟩
  · rw [hstore.int]
    exact henum x hx
  · cases (hcontains u hu hstable).1

/-- Posting a filter demands that there is nothing left for it to do. -/
theorem post (h : sv.Attains domains stable) {f : Filter} (hf : f.Decisive) (hr : f.Ready domains)
    (henum : f.Enumerated domains) :
    ∃ r sv', (Modelling.post f).run.run sv = .ok (r, sv')
      ∧ sv'.Attains domains (fun u => stable u ∧ f.Stable u)
      ∧ (sv'.infeasible = false → sv.infeasible = false ∧ r = .ok ()) := by
  cases hfeasible : sv.infeasible with
  | true =>
    refine ⟨_, sv, run_post_infeasible f hfeasible, h.refuted hfeasible fun _ hu => hu.1, ?_⟩
    exact fun hno => absurd (hfeasible.symm.trans hno) (by decide)
  | false =>
    have hwatchful := h.watchful hfeasible
    have hready := hr.narrower h.narrower
    have henum' : f.Enumerated sv.store := fun x hx => h.enumerated x.base (henum x hx)
    have hentered := hwatchful.entered henum' hready
    have hposted : ∀ i g, (sv.space.entered f).filterAt? i = some g →
        g.Decisive ∧ ∀ u, stable u ∧ f.Stable u → g.Stable u := by
      intro i g hg
      rcases Space.entered_cases hg with ⟨-, rfl⟩ | hg
      · exact ⟨hf, fun u hu => hu.2⟩
      · exact (h.posted hfeasible i g hg).imp_right fun hstable u hu => hstable u hu.1
    -- no filter takes anything from a store at which all of them rest, the new one included
    have hspares : (sv.space.entered f).Spares
        (Space.Among fun u => domains.Narrower u ∧ stable u ∧ f.Stable u) := by
      refine hentered.spares_resting fun u hu => ⟨(h.largest u hu.1 hu.2.1).2, fun i g hg => ?_⟩
      exact (hposted i g hg).imp_right fun hstable => hstable u hu.2
    obtain ⟨c?, sp, hpost, hconclude, hend⟩ := Space.post_spec hwatchful henum' hready hspares
    have hrun := run_post f h.resting.root hfeasible
    rw [hpost] at hrun
    cases c? with
    | none =>
      refine ⟨_, _, hrun, ?_, fun _ => ⟨rfl, rfl⟩⟩
      refine h.success hconclude rfl (fun _ hu => hu.1)
        (onward_post h.resting.onward hrun).resting hfeasible (hend rfl).1 hposted ?_
      intro u hu hrests
      refine ⟨h.reached hfeasible u ((hconclude.leads.narrower hentered.wf).trans hu) ?_, ?_⟩
      · exact fun i g hg => hrests i g (Space.filterAt?_entered_of_posted hg)
      · exact hrests _ f Space.filterAt?_entered_self
    | some c =>
      exact ⟨_, _, hrun, h.failure hconclude rfl (fun _ hu => hu.1)
        (onward_post h.resting.onward hrun).resting rfl ⟨rfl, rfl, rfl⟩, nofun⟩

/-- Taking a value away demands that no valuation has it. -/
theorem differs (h : sv.Attains domains stable) {x : IntVar} {k : Int}
    (hx : (Constraint.differs x k).Suits domains) :
    ∃ r sv', (Modelling.impose (P := Filter) (x.differs k)).run.run sv = .ok (r, sv')
      ∧ sv'.Attains domains (fun u => stable u ∧ ∀ a, u.Admits a → x.exactValue a.int ≠ k)
      ∧ (sv'.infeasible = false → sv.infeasible = false ∧ r = .ok ()) := by
  obtain ⟨hknown, henum, hranges⟩ := hx
  cases hfeasible : sv.infeasible with
  | true =>
    refine ⟨_, sv, run_narrow_infeasible _ hfeasible, h.refuted hfeasible fun _ hu => hu.1, ?_⟩
    exact fun hno => absurd (hfeasible.symm.trans hno) (by decide)
  | false =>
    have hwatchful := h.watchful hfeasible
    have hvalues : x.source.Ranges Width.value domains :=
      (hranges.mono fun _ => Width.fits_of_interior).source
    have htests := tests_differs (k := k) hwatchful.wf (hvalues.narrower h.narrower)
      (Or.inl (h.enumerated x.base henum))
    have hknown' := htests.known ((h.narrower.knows _).trans hknown)
    -- a stable store without the value loses nothing when the value is taken away
    have hspares : sv.space.Spares (Space.Among fun u =>
        domains.Narrower u ∧ stable u ∧ ∀ a, u.Admits a → x.exactValue a.int ≠ k) := by
      refine hwatchful.spares_resting fun u hu => ⟨(h.largest u hu.1 hu.2.1).2, fun i g hg => ?_⟩
      exact (h.posted hfeasible i g hg).imp_right fun hstable => hstable u hu.2.1
    have hholds : ∀ a, Space.Among (fun u =>
        domains.Narrower u ∧ stable u ∧ ∀ a, u.Admits a → x.exactValue a.int ≠ k) a →
        ∀ d ∈ [Decision.impose (x.differs k)], d.Holds a := by
      rintro a ⟨u, ⟨hu, -, hne⟩, ha⟩ d hd
      rw [List.mem_singleton.mp hd]
      exact (IntVar.holds_differs hvalues (hu.admits a ha) k).mpr (hne a ha)
    obtain ⟨c?, sp, hsettle, hconclude, hend⟩ :=
      Space.settle_spec hwatchful hspares hholds (List.forall_mem_singleton.mpr hknown')
    change sv.space.settle [.impose (x.differs k)] = _ at hsettle
    have hrun := run_narrow (.impose (x.differs k)) h.resting.root hfeasible
    rw [hsettle] at hrun
    cases c? with
    | none =>
      refine ⟨_, _, hrun, ?_, fun _ => ⟨rfl, rfl⟩⟩
      refine h.success hconclude rfl (fun _ hu => hu.1)
        (onward_narrow h.resting.onward hrun).resting hfeasible (hend rfl).1
        (fun i g hg => ?_) fun u hu hrests => ⟨?_, fun a ha => ?_⟩
      · exact (h.posted hfeasible i g hg).imp_right fun hstable u hu => hstable u hu.1
      · exact h.reached hfeasible u ((hconclude.leads.narrower hwatchful.wf).trans hu) hrests
      · have hleft := (Space.holds_of_settle hwatchful.wf hknown' htests.keeps hsettle).1 a
          (hu.admits a ha)
        refine (htests.holds a ?_).mp hleft
        exact hconclude.narrower a (hu.admits a ha)
    | some c =>
      exact ⟨_, _, hrun, h.failure hconclude rfl (fun _ hu => hu.1)
        (onward_narrow h.resting.onward hrun).resting rfl (Store.sameDomains_dropEvents _),
        nofun⟩

/-- Posting filters one after the other demands that there is nothing left for any of them to
    do. -/
theorem postFilters {fs : List Filter} (h : sv.Attains domains stable)
    (hfs : ∀ f ∈ fs, f.Decisive ∧ f.Ready domains ∧ f.Enumerated domains) :
    ∃ r sv', (fs.forM (Modelling.post (P := Filter))).run.run sv = .ok (r, sv')
      ∧ sv'.Attains domains (fun u => stable u ∧ ∀ f ∈ fs, f.Stable u)
      ∧ (sv'.infeasible = false → sv.infeasible = false ∧ r = .ok ()) := by
  induction fs generalizing sv stable with
  | nil => exact ⟨_, sv, rfl, h.congr fun u => by simp, fun hfeasible => ⟨hfeasible, rfl⟩⟩
  | cons f rest ih =>
    obtain ⟨hdecisive, hready, henum⟩ := hfs f List.mem_cons_self
    obtain ⟨r, mid, hrun, hmid, hsucceeds⟩ := h.post hdecisive hready henum
    change ∃ r sv', (Modelling.post f >>= fun _ => rest.forM Modelling.post).run.run sv = _ ∧ _
    rw [run_bind, hrun]
    cases r with
    | ok _ =>
      obtain ⟨r', sv', hrun', hattains, hsucceeds'⟩ :=
        ih hmid fun g hg => hfs g (List.mem_cons_of_mem f hg)
      refine ⟨r', sv', hrun', hattains.congr fun u => by simp [and_assoc], fun hfeasible => ?_⟩
      obtain ⟨hmidway, hr⟩ := hsucceeds' hfeasible
      exact ⟨(hsucceeds hmidway).1, hr⟩
    -- the filters behind the one that fails are not posted, but no store is stable any more
    | error e =>
      have hinfeasible : mid.infeasible = true := by
        by_contra hfeasible
        cases (hsucceeds (Bool.eq_false_iff.mpr hfeasible)).2
      refine ⟨_, mid, rfl, hmid.refuted hinfeasible fun u hu => ?_, fun hfeasible => ?_⟩
      · exact ⟨hu.1, hu.2 f List.mem_cons_self⟩
      · exact absurd (hinfeasible.symm.trans hfeasible) (by decide)

end Attains

/-! ### Constraints -/

theorem Attains.postConstraint (h : sv.Attains domains stable) {c : Constraint}
    (hc : c.Suits domains) :
    ∃ r sv', (c.post (P := Filter)).run.run sv = .ok (r, sv')
      ∧ sv'.Attains domains (fun u => stable u ∧ c.Stable domains u)
      ∧ (sv'.infeasible = false → sv.infeasible = false ∧ (c.Accepted domains → r = .ok ())) := by
  -- what suits comes down to filters alone, but for `differs`, which narrows a domain
  have hexact : c.Fits domains → (∀ fs, c.filters = .ok fs → ∀ f ∈ fs, f.Enumerated domains) →
      ∃ r sv', (c.post (P := Filter)).run.run sv = .ok (r, sv')
        ∧ sv'.Attains domains (fun u => stable u
          ∧ (c.Accepted domains → ∀ fs, c.filters = .ok fs → ∀ f ∈ fs, f.Stable u))
        ∧ (sv'.infeasible = false → sv.infeasible = false ∧ (c.Accepted domains → r = .ok ())) := by
    intro hfits henum
    by_cases haccepted : c.Accepted domains
    · obtain ⟨fs, hfs, hready⟩ := hfits.ready
      obtain ⟨r, sv', hrun, hattains, hsucceeds⟩ := h.postFilters fun f hf =>
        ⟨Constraint.decisive_of_exact hfits.exact hfs f hf, hready haccepted f hf, henum fs hfs f hf⟩
      refine ⟨r, sv', ?_, hattains.congr fun u => and_congr_right fun _ => ?_, fun hfeasible => ?_⟩
      · rw [Constraint.run_post hfits.exact hfs hfits.graph haccepted h.narrower]
        exact hrun
      · constructor
        · intro hall _ fs' hfs'
          obtain rfl : fs = fs' := Except.ok.inj (hfs.symm.trans hfs')
          exact hall
        · exact fun hall => hall haccepted fs hfs
      · exact (hsucceeds hfeasible).imp_right fun hr _ => hr
    · obtain ⟨e, hrun⟩ := Constraint.run_post_refused hfits haccepted h.narrower
      refine ⟨_, sv, hrun, h.congr fun u => ?_, fun hfeasible => ⟨hfeasible, fun hno => ?_⟩⟩
      · exact (and_iff_left fun hno => absurd hno haccepted).symm
      · exact absurd hno haccepted
  cases c with
  | differs x k =>
    obtain ⟨r, sv', hrun, hattains, hsucceeds⟩ := h.differs hc
    exact ⟨r, sv', hrun, hattains, fun hfeasible => (hsucceeds hfeasible).imp_right fun hr _ => hr⟩
  | _ => exact hexact hc.1 hc.2

/-! ### Lists of constraints -/

/-- Posts constraints one after the other; one that is refused does not end the list. -/
def postEach (sv : Solver Filter) :
    List Constraint → Except Fault (List (Except ModelError Unit) × Solver Filter)
  | [] => return ([], sv)
  | c :: rest => do
    let (r, sv) ← Modelling.runOn c.post sv
    let (rs, sv) ← sv.postEach rest
    return (r :: rs, sv)

/-- Every constraint is posted whose arguments are accepted. -/
def Succeeds (domains : Store) (cs : List Constraint) (rs : List (Except ModelError Unit)) : Prop :=
  List.Forall₂ (fun c r => c.Accepted domains → r = .ok ()) cs rs

/-- The solver ends with the largest store that is stable for all of the constraints. -/
theorem Attains.postEach {cs : List Constraint} (h : sv.Attains domains stable)
    (hcs : ∀ c ∈ cs, c.Suits domains) :
    ∃ rs sv', sv.postEach cs = .ok (rs, sv')
      ∧ sv'.Attains domains (fun u => stable u ∧ ∀ c ∈ cs, c.Stable domains u)
      ∧ (sv'.infeasible = false → sv.infeasible = false ∧ Succeeds domains cs rs) := by
  induction cs generalizing sv stable with
  | nil =>
    exact ⟨[], sv, rfl, h.congr fun u => by simp, fun hfeasible => ⟨hfeasible, .nil⟩⟩
  | cons c rest ih =>
    obtain ⟨r, mid, hrun, hmid, hsucceeds⟩ := h.postConstraint (hcs c List.mem_cons_self)
    obtain ⟨rs, sv', hrun', hattains, hsucceeds'⟩ :=
      ih hmid fun c' hc' => hcs c' (List.mem_cons_of_mem c hc')
    refine ⟨r :: rs, sv', ?_, hattains.congr fun u => by simp [and_assoc], fun hfeasible => ?_⟩
    · have hfirst : Modelling.runOn c.post sv = .ok (r, mid) := hrun
      simp only [Solver.postEach, hfirst, hrun', bind, Except.bind, pure, Except.pure]
    · obtain ⟨hmidway, hrest⟩ := hsucceeds' hfeasible
      obtain ⟨hbefore, hr⟩ := hsucceeds hmidway
      exact ⟨hbefore, .cons hr hrest⟩

/-! ### Fresh solvers -/

/-- The solver has been given variables and nothing else. -/
def Fresh (sv : Solver Filter) : Prop :=
  ∃ random statements, (∀ st ∈ statements, (∀ c, st ≠ .post c) ∧ ∀ p, st ≠ .impose p)
    ∧ (Solver.empty random).state statements = .ok sv

/-- Nothing has happened but that variables were made. -/
structure Blank (sv : Solver Filter) : Prop where
  /-- Nothing is posted. -/
  space : sv.space = { Space.empty with store := sv.store }
  /-- The model is not known to have no solution. -/
  feasible : sv.infeasible = false
  /-- No propagator is passive. -/
  passive : sv.store.passive = Store.empty.passive
  /-- No events wait. -/
  events : sv.store.events = EventSink.empty

theorem Blank.state {m : Model} {statements : List Statement} (h : sv.Blank) (hm : sv.Models m)
    (hdeclare : ∀ st ∈ statements, (∀ c, st ≠ .post c) ∧ ∀ p, st ≠ .impose p)
    (hrun : sv.state statements = .ok sv') : sv'.Blank ∧ sv'.Resting := by
  induction statements generalizing sv m with
  | nil =>
    cases hrun
    exact ⟨h, hm.represents.resting⟩
  | cons st rest ih =>
    obtain ⟨hpost, himpose⟩ := hdeclare st List.mem_cons_self
    obtain ⟨r, mid, t, hst, hinfeasible, hspace, hg⟩ := hm.represents.declares hpost himpose
    have hstore : mid.store = t := congrArg Space.store hspace
    have hfirst : Modelling.runOn st.program sv = .ok (r, mid) := hst
    simp only [Solver.state, hfirst, bind, Except.bind] at hrun
    refine ih ⟨?_, hinfeasible.trans h.feasible, ?_, ?_⟩ (hm.declare hpost hst hinfeasible hspace hg)
      (fun st' hst' => hdeclare st' (List.mem_cons_of_mem st hst')) hrun
    · rw [hspace, hstore, h.space]
    · rw [hstore, hg.passive, h.passive]
    · rw [hstore, hg.events, h.events]

theorem Fresh.attains (h : sv.Fresh) : sv.Attains sv.store fun _ => True := by
  obtain ⟨random, statements, hdeclare, hrun⟩ := h
  have hempty : (Solver.empty random : Solver Filter).Blank := ⟨rfl, rfl, rfl, rfl⟩
  obtain ⟨hblank, hresting⟩ := hempty.state (models_empty random) hdeclare hrun
  have hnone : ∀ i f, ¬ sv.space.filterAt? i = some f := by
    intro i f
    rw [hblank.space]
    exact Space.filterAt?_start
  refine ⟨hresting, .refl hresting.wf, fun _ hx => hx, fun _ => ?_, fun _ i f hf => ?_,
    fun _ _ _ _ => trivial, fun u hu _ => ⟨hblank.feasible, hu⟩⟩
  · rw [hblank.space]
    refine Space.watchful_start hresting.wf hblank.events fun p => ?_
    unfold Store.isPassive
    rw [hblank.passive]
    rfl
  · exact absurd hf (hnone i f)

/-- The store at hand is stable. -/
theorem Attains.stable_store (h : sv.Attains domains stable) (hfeasible : sv.infeasible = false) :
    stable sv.store := by
  have hwatchful := h.watchful hfeasible
  refine h.reached hfeasible _ (.refl h.resting.wf) fun i f hf => ?_
  exact ⟨hwatchful.regards i f hf, hwatchful.rests (h.resting.settled hfeasible) hf⟩

/-- If one order leads to a store, the other leads to one that contains it. -/
theorem Attains.contains {sv₁ sv₂ : Solver Filter} (h₁ : sv₁.Attains domains stable)
    (h₂ : sv₂.Attains domains stable) (hfeasible : sv₁.infeasible = false) :
    sv₂.infeasible = false ∧ sv₂.store.Narrower sv₁.store :=
  h₂.largest _ h₁.narrower (h₁.stable_store hfeasible)

/-- The order of posting does not matter: in a fresh solver, constraints over enumerated domains
    that are posted in two orders either both times make the solver infeasible, or both times
    succeed, unless their arguments are refused, and leave all domains with the same contents. -/
theorem posting_order (hfresh : sv.Fresh) {cs cs' : List Constraint} (hperm : cs.Perm cs')
    (hsuits : ∀ c ∈ cs, c.Suits sv.store) :
    ∃ rs rs' sv₁ sv₂, sv.postEach cs = .ok (rs, sv₁) ∧ sv.postEach cs' = .ok (rs', sv₂)
      ∧ ((sv₁.infeasible = true ∧ sv₂.infeasible = true)
        ∨ (Succeeds sv.store cs rs ∧ Succeeds sv.store cs' rs'
          ∧ sv₁.infeasible = false ∧ sv₂.infeasible = false
          ∧ sv₁.store.SameContents sv₂.store)) := by
  obtain ⟨rs, sv₁, hrun₁, hattains₁, hsucceeds₁⟩ := hfresh.attains.postEach hsuits
  obtain ⟨rs', sv₂, hrun₂, hattains₂, hsucceeds₂⟩ :=
    hfresh.attains.postEach fun c hc => hsuits c (hperm.mem_iff.mpr hc)
  have hattains₂' : sv₂.Attains sv.store fun u => True ∧ ∀ c ∈ cs, c.Stable sv.store u :=
    hattains₂.congr fun u => and_congr_right fun _ => by simp only [hperm.mem_iff]
  refine ⟨rs, rs', sv₁, sv₂, hrun₁, hrun₂, ?_⟩
  cases hfeasible₁ : sv₁.infeasible with
  | true =>
    refine Or.inl ⟨rfl, ?_⟩
    by_contra hfeasible₂
    have hback := (hattains₂'.contains hattains₁ (Bool.eq_false_iff.mpr hfeasible₂)).1
    exact absurd (hfeasible₁.symm.trans hback) (by decide)
  | false =>
    obtain ⟨hfeasible₂, hnarrower₂⟩ := hattains₁.contains hattains₂' hfeasible₁
    obtain ⟨-, hnarrower₁⟩ := hattains₂'.contains hattains₁ hfeasible₂
    exact Or.inr ⟨(hsucceeds₁ hfeasible₁).2, (hsucceeds₂ hfeasible₂).2, rfl, hfeasible₂,
      hnarrower₁.sameContents hnarrower₂⟩

/-- A solver with two variables with the values 0, 1, 3 and 4. -/
def twoListed : Solver Filter :=
  { (Solver.empty (Random.ofSeed 7) : Solver Filter) with
    space := { Space.empty with store := Space.twoListed } }

theorem twoListed_fresh : twoListed.Fresh := by
  have hsorted : sortedDistinct [0, 1, 3, 4] = [0, 1, 3, 4] := by
    rw [sortedDistinct, List.mergeSort_of_pairwise (by decide)]
    rfl
  refine ⟨Random.ofSeed 7, List.replicate 2 (.enumerated [0, 1, 3, 4] (by decide) none), ?_, ?_⟩
  · intro st hst
    rw [List.eq_of_mem_replicate hst]
    exact ⟨by rintro c ⟨⟩, by rintro p ⟨⟩⟩
  · simp only [List.replicate, Solver.state, Statement.program, newEnumerated, hsorted]
    rfl

/-- The first variable is at most the second and differs from the second plus three, and the
    second is not 4. -/
def ordered : List Constraint :=
  [.atMost (.plain ⟨0⟩) (.plain ⟨1⟩), .distinct (.plain ⟨0⟩) Space.plusThree, .differs (.plain ⟨1⟩) 4]

theorem ordered_suits {c : Constraint} (hc : c ∈ ordered) : c.Suits twoListed.store := by
  simp only [ordered, List.mem_cons, List.not_mem_nil, or_false] at hc
  rcases hc with rfl | rfl | rfl
  · refine ⟨⟨trivial, nofun, _, rfl, fun _ => List.forall_mem_singleton.mpr ?_⟩, ?_⟩
    · refine ⟨by decide, fun x hx => Space.twoListed_ranges ?_, nofun, nofun⟩
      rcases List.mem_pair.mp hx with rfl | rfl <;> decide
    · rintro fs hfs f hf x hx
      cases hfs
      cases List.mem_singleton.mp hf
      rcases List.mem_pair.mp hx with rfl | rfl <;> rfl
  · refine ⟨⟨trivial, nofun, _, rfl, fun _ => List.forall_mem_singleton.mpr Space.apart_ready⟩, ?_⟩
    rintro fs hfs f hf x hx
    cases hfs
    cases List.mem_singleton.mp hf
    rcases List.mem_pair.mp hx with rfl | rfl <;> rfl
  · exact ⟨rfl, rfl, Space.twoListed_ranges (by decide)⟩

/-- The first variable cannot be 4 either, whatever is posted first. -/
theorem posting_order_ordered :
    ∃ rs rs' sv₁ sv₂, twoListed.postEach ordered = .ok (rs, sv₁)
      ∧ twoListed.postEach ordered.reverse = .ok (rs', sv₂)
      ∧ Succeeds twoListed.store ordered rs ∧ Succeeds twoListed.store ordered.reverse rs'
      ∧ sv₁.store.SameContents sv₂.store ∧ (sv₂.store.int ⟨0⟩).contains 4 = false := by
  obtain ⟨rs, rs', sv₁, sv₂, hrun₁, hrun₂, hcases⟩ :=
    posting_order twoListed_fresh (List.reverse_perm ordered).symm fun _ hc => ordered_suits hc
  have hout : (twoListed.postEach ordered).toOption.map (fun out =>
      (out.2.infeasible, (out.2.store.int ⟨0⟩).contains 4)) = some (false, false) := by
    decide +kernel
  rw [hrun₁] at hout
  obtain ⟨hfeasible, hcontains⟩ := Prod.mk.inj (Option.some.inj hout)
  rcases hcases with ⟨hinfeasible, -⟩ | ⟨hfirst, hsecond, -, -, hsame⟩
  · exact absurd (hinfeasible.symm.trans hfeasible) (by decide)
  · exact ⟨rs, rs', sv₁, sv₂, hrun₁, hrun₂, hfirst, hsecond, hsame,
      (hsame.values _ _).symm.trans hcontains⟩

end Solver

end FiniteDomain
