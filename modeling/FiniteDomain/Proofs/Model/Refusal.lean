import FiniteDomain.Proofs.Model.Meaning

/-! # Answers to postings

    A single constraint is a matter of several steps: arguments are checked, and
    one or more filters are posted and nodes demanded, one after the other.  Yet
    there are only four answers (`Solver.Answers`).  The arguments are refused, or
    the model was known to have no solution, and nothing has changed; or something
    was added, with the outcome that the model may have solutions as before, or
    that it has none.

    The checks come first, and what they have seen of a graph stays as it is while
    filters are posted (`Solver.Charts`).  So no check fails once something has been
    added, and the first addition that fails is the last. -/

namespace FiniteDomain

/-- The error is about the arguments of a constraint. -/
def ModelError.OfArguments : ModelError → Prop
  | .emptyScope | .duplicateVariable | .nodeOutOfRange _ _ => True
  | .infeasibleModel | .infeasibleAddition | .invalidBounds _ _ | .emptyValueList => False

/-- The constraint does not stand for a list of constraints. -/
def Constraint.Single : Constraint → Prop
  | .all _ => False
  | _ => True

namespace Statement

/-- The statement is not about a list of constraints. -/
def Single : Statement → Prop
  | .post c => c.Single
  | _ => True

/-- The statement posts a constraint or a predicate. -/
def Posts : Statement → Prop
  | .post _ | .impose _ => True
  | _ => False

theorem ne_of_posts {st : Statement} (h : ¬ st.Posts) :
    (∀ c, st ≠ .post c) ∧ ∀ p, st ≠ .impose p := by
  refine ⟨?_, ?_⟩
  · rintro c rfl
    exact h trivial
  · rintro p rfl
    exact h trivial

end Statement

namespace Solver

/-- What becomes of a solver to which something is added. -/
inductive Adds (sv : Solver Filter) : Except ModelError Unit → Solver Filter → Prop where
  /-- The model was known to have no solution; nothing has changed. -/
  | latched (known : sv.infeasible = true) : Adds sv (.error .infeasibleModel) sv
  /-- It was added. -/
  | added {sv' : Solver Filter} (before : sv.infeasible = false)
      (after : sv'.infeasible = false) : Adds sv (.ok ()) sv'
  /-- It was added, and the model has no solution any more. -/
  | failed {sv' : Solver Filter} (before : sv.infeasible = false)
      (after : sv'.infeasible = true) : Adds sv (.error .infeasibleAddition) sv'

/-- What becomes of a solver to which a constraint is posted: it is added, unless the arguments
    are refused, which changes nothing. -/
def Answers (sv : Solver Filter) (r : Except ModelError Unit) (sv' : Solver Filter) : Prop :=
  sv.Adds r sv' ∨ sv' = sv ∧ ∃ e, r = .error e ∧ e.OfArguments

variable {sv sv' : Solver Filter} {r : Except ModelError Unit}

/-- Only an addition that fails changes anything and is answered by an error. -/
theorem Answers.unchanged (h : sv.Answers r sv') {e : ModelError} (hr : r = .error e)
    (he : e ≠ .infeasibleAddition) : sv' = sv := by
  rcases h with hadds | ⟨hsame, -⟩
  · cases hadds with
    | latched known => rfl
    | added before after => cases hr
    | failed before after => exact absurd (Except.error.inj hr).symm he
  · exact hsame

/-- Only an addition to a model that may have solutions fails, and then it has none. -/
theorem Answers.failed (h : sv.Answers r sv') (hr : r = .error .infeasibleAddition) :
    sv.infeasible = false ∧ sv'.infeasible = true := by
  rcases h with hadds | ⟨-, e, he, hargument⟩
  · cases hadds with
    | latched known => cases hr
    | added before after => cases hr
    | failed before after => exact ⟨before, after⟩
  · cases he.symm.trans hr
    exact hargument.elim

/-- What is added with success leaves a model that may have solutions. -/
theorem Answers.added (h : sv.Answers r sv') (hr : r = .ok ()) :
    sv.infeasible = false ∧ sv'.infeasible = false := by
  rcases h with hadds | ⟨-, e, he, -⟩
  · cases hadds with
    | latched known => cases hr
    | added before after => exact ⟨before, after⟩
    | failed before after => cases hr
  · cases he.symm.trans hr

/-- Nothing is added to a model that is known to have no solution. -/
theorem Answers.latched (h : sv.Answers r sv') (hinfeasible : sv.infeasible = true) :
    sv' = sv ∧ ∃ e, r = .error e ∧ (e = .infeasibleModel ∨ e.OfArguments) := by
  rcases h with hadds | ⟨hsame, e, he, hargument⟩
  · cases hadds with
    | latched known => exact ⟨rfl, _, rfl, Or.inl rfl⟩
    | added before after => cases hinfeasible.symm.trans before
    | failed before after => cases hinfeasible.symm.trans before
  · exact ⟨hsame, e, he, Or.inr hargument⟩

/-! ### Programs that add something -/

open Program Modelling Constraint

/-- The program keeps the property, and of a solver that has it the program becomes what becomes of
    a solver to which something is added. -/
structure Posting (I : Solver Filter → Prop) (p : Modelling Filter Unit) : Prop where
  /-- The property is kept. -/
  keeps : Keeps I p
  /-- Something is added. -/
  adds : ∀ {sv sv' : Solver Filter} {r : Except ModelError Unit}, I sv →
    p.run.run sv = .ok (r, sv') → sv.Adds r sv'

variable {I : Solver Filter → Prop} {p q : Modelling Filter Unit}

theorem posting_filter (hI : Kept I) (f : Filter) : Posting I (Modelling.post f) where
  keeps := fun _ _ _ h hrun => hI.post h hrun
  adds := fun h hrun => by
    rcases post_cases (hI.resting h).root hrun with ⟨hinfeasible, rfl, rfl⟩
      | ⟨hfeasible, _, space, -, hend⟩
    · exact .latched hinfeasible
    · rcases hend with ⟨id, -, rfl, rfl⟩ | ⟨c, -, rfl, rfl⟩
      · exact .added hfeasible hfeasible
      · exact .failed hfeasible rfl

theorem posting_narrow (hI : Kept I) (request : Narrowing) :
    Posting I (Modelling.narrow request) where
  keeps := fun _ _ _ h hrun => hI.narrow h hrun
  adds := fun h hrun => by
    rcases narrow_cases (hI.resting h).root hrun with ⟨hinfeasible, rfl, rfl⟩
      | ⟨hfeasible, _, space, -, hend⟩
    · exact .latched hinfeasible
    · rcases hend with ⟨-, rfl, rfl⟩ | ⟨c, -, rfl, rfl⟩
      · exact .added hfeasible hfeasible
      · exact .failed hfeasible rfl

/-- The second addition is made only if the first has not failed. -/
theorem Posting.then (hp : Posting I p) (hq : Posting I q) : Posting I (p >>= fun _ => q) where
  keeps := fun sv r sv' h hrun => by
    obtain ⟨first, mid, hfirst, hrest⟩ := run_bind_cases hrun
    have hmid := hp.keeps sv first mid h hfirst
    rcases hrest with ⟨reason, -, -, rfl⟩ | ⟨a, -, hsecond⟩
    · exact hmid
    · exact hq.keeps mid r sv' hmid hsecond
  adds := fun {sv sv' r} h hrun => by
    obtain ⟨first, mid, hfirst, hrest⟩ := run_bind_cases hrun
    have hmid := hp.keeps sv first mid h hfirst
    have hadds := hp.adds h hfirst
    rcases hrest with ⟨reason, rfl, rfl, rfl⟩ | ⟨a, rfl, hsecond⟩
    · cases hadds with
      | latched known => exact .latched known
      | failed before after => exact .failed before after
    · cases hadds with
      | added before after =>
        -- the second addition meets a model that may have solutions
        cases hq.adds hmid hsecond with
        | latched known => cases after.symm.trans known
        | added _ after' => exact .added before after'
        | failed _ after' => exact .failed before after'

/-- A loop of additions before another one. -/
theorem Posting.forM_then {α : Type} {l : List α} {f : α → Modelling Filter Unit}
    (hf : ∀ x ∈ l, Posting I (f x)) (hq : Posting I q) : Posting I (l.forM f >>= fun _ => q) := by
  induction l with
  | nil => exact hq
  | cons x rest ih =>
    have hrest := ih fun y hy => hf y (List.mem_cons_of_mem x hy)
    have hassoc : ((x :: rest).forM f >>= fun _ => q) = f x >>= fun _ => rest.forM f >>= fun _ => q :=
      bind_assoc ..
    rw [hassoc]
    exact (hf x List.mem_cons_self).then hrest

/-- A program that reads something first. -/
theorem Posting.reads {α : Type} {check : Modelling Filter α} {rest : α → Modelling Filter Unit}
    (a : α) (hcheck : ∀ sv, I sv → check.run.run sv = .ok (.ok a, sv)) (h : Posting I (rest a)) :
    Posting I (check >>= rest) where
  keeps := fun sv r sv' hsv hrun => by
    rw [run_bind, hcheck sv hsv] at hrun
    exact h.keeps sv r sv' hsv hrun
  adds := fun {sv sv' r} hsv hrun => by
    rw [run_bind, hcheck sv hsv] at hrun
    exact h.adds hsv hrun

/-- A program that computes something first. -/
theorem Posting.checked {α : Type} {result : Except Fault α} {rest : α → Modelling Filter Unit}
    (h : ∀ a, result = .ok a → Posting I (rest a)) :
    Posting I (Modelling.checked result >>= rest) := by
  cases result with
  | ok a => exact .reads a (fun _ _ => rfl) (h a rfl)
  | error fault => exact ⟨fun _ _ _ _ hrun => (nomatch hrun), fun _ hrun => (nomatch hrun)⟩

theorem posting_sumAtMost (hI : Kept I) {terms : List IntVar} (hne : terms ≠ []) (limit : Int) :
    Posting I (postSumAtMost terms limit) := by
  rw [postSumAtMost_eq limit hne]
  exact posting_filter hI _

theorem posting_sumEquals (hI : Kept I) {terms : List IntVar} (hne : terms ≠ []) (sum : Int) :
    Posting I (postSumEquals terms sum) :=
  .checked fun _ hnegated =>
    (posting_sumAtMost hI hne sum).then (posting_sumAtMost hI
      (fun hnil => hne ((IntVar.sum_exactValue_negated hnegated fun _ => 0).2.mp hnil)) (-sum))

/-! ### Graphs -/

/-- The solver is at rest and has the graph, with as many nodes. -/
structure Charts (g : GraphId) (order : Nat) (sv : Solver Filter) : Prop where
  /-- No search is in progress. -/
  resting : sv.Resting
  /-- The graph exists. -/
  known : sv.store.knows (.graph g) = true
  /-- It may have nodes below the order. -/
  order_eq : (sv.store.graph g).order = order

variable {g : GraphId} {order n source sink : Nat}

theorem Charts.of_narrower (h : Charts g order sv) (hresting : sv'.Resting)
    (hnarrower : sv.store.Narrower sv'.store) : Charts g order sv' :=
  ⟨hresting, (hnarrower.knows _).trans h.known, (hnarrower.order g).trans h.order_eq⟩

/-- Graphs keep their orders. -/
theorem kept_charts (g : GraphId) (order : Nat) : Kept (Charts g order) where
  resting := Charts.resting
  name := fun names h =>
    ⟨(h.resting.onward.name names).resting, h.known, h.order_eq⟩
  -- declaring variables leaves the graphs that are there alone
  grows := fun h hgrows hevents _ =>
    ⟨(h.resting.onward.withStore hgrows hevents).resting, hgrows.knows _ h.known,
      (congrArg GraphDomain.order (hgrows.graph g h.known)).trans h.order_eq⟩
  post := by
    intro sv sv' f r h hrun
    have hresting := (onward_post h.resting.onward hrun).resting
    rcases post_cases h.resting.root hrun with ⟨-, -, rfl⟩ | ⟨-, _, space, hpost, hend⟩
    · exact h
    have hnarrower := (Space.leads_post h.resting.wf hpost).narrower h.resting.wf
    rcases hend with ⟨id, -, -, rfl⟩ | ⟨c, -, -, rfl⟩
    · exact h.of_narrower hresting hnarrower
    · exact h.of_narrower hresting hnarrower
  narrow := by
    intro sv sv' request r h hrun
    have hresting := (onward_narrow h.resting.onward hrun).resting
    rcases narrow_cases h.resting.root hrun with ⟨-, -, rfl⟩ | ⟨-, _, space, hsettle, hend⟩
    · exact h
    have hleads := Space.leads_settle h.resting.wf hsettle
    rcases hend with ⟨-, -, rfl⟩ | ⟨c, -, -, rfl⟩
    · exact h.of_narrower hresting (hleads.narrower h.resting.wf)
    · exact h.of_narrower hresting
        ((hleads.trans (Space.leads_dropEvents space)).narrower h.resting.wf)

theorem Charts.run_requireNode (h : Charts g order sv) (hlt : n < order) :
    (requireNode g n : Modelling Filter Unit).run.run sv = .ok (.ok (), sv) :=
  Modelling.run_requireNode h.known (h.order_eq.symm ▸ hlt)

theorem posting_includeNode (hlt : n < order) : Posting (Charts g order) (includeNode g n) :=
  .reads () (fun _ h => h.run_requireNode hlt) (posting_narrow (kept_charts g order) _)

theorem posting_oneNeighbour (d : Direction) (hlt : n < order) :
    Posting (Charts g order) (postOneNeighbour d g n) :=
  .reads () (fun _ h => h.run_requireNode hlt) (posting_filter (kept_charts g order) _)

theorem posting_pathNoCycle (hsource : source < order) (hsink : sink < order) :
    Posting (Charts g order) (postPathNoCycle g source sink) :=
  .reads () (fun _ h => h.run_requireNode hsource) (.reads () (fun _ h => h.run_requireNode hsink)
    (posting_filter (kept_charts g order) _))

/-- Once its ends have been checked, a path over all nodes meets no further refusal. -/
theorem posting_hamiltonianPath (hsource : source < order) (hsink : sink < order) :
    Posting (Charts g order) (postHamiltonianPath g source sink) := by
  refine .reads () (fun _ h => h.run_requireNode hsource)
    (.reads () (fun _ h => h.run_requireNode hsink)
      (.reads order (fun sv h => ?_) ?_))
  · rw [run_orderOf h.known, h.order_eq]
  · exact .forM_then (fun n hn => posting_includeNode (List.mem_range.mp hn))
      ((posting_oneNeighbour _ hsink).then
        ((posting_oneNeighbour _ hsource).then (posting_pathNoCycle hsource hsink)))

/-- A node is looked up first; what follows matters only if the graph has it. -/
theorem answers_requireNode {rest : Unit → Modelling Filter Unit}
    (hrun : (requireNode g n >>= rest).run.run sv = .ok (r, sv'))
    (h : sv.store.knows (.graph g) = true → n < (sv.store.graph g).order →
      (rest ()).run.run sv = .ok (r, sv') → sv.Answers r sv') : sv.Answers r sv' := by
  cases hknown : sv.store.knows (.graph g) with
  | false =>
    simp only [requireNode, Modelling.orderOf, run_bind, run_get, Modelling.checked, run_lift,
      Store.require, hknown, Except.map, Except.bind, Bool.false_eq_true, if_false] at hrun
    cases hrun
  | true =>
    rw [run_bind] at hrun
    by_cases hlt : n < (sv.store.graph g).order
    · rw [Modelling.run_requireNode hknown hlt] at hrun
      exact h hknown hlt hrun
    · rw [run_requireNode_refused hknown hlt] at hrun
      cases hrun
      exact Or.inr ⟨rfl, _, rfl, trivial⟩

/-! ### Single constraints -/

/-- A posting that starts by itself. -/
theorem Posting.answers (hp : Posting I p) (h : I sv) (hrun : p.run.run sv = .ok (r, sv')) :
    sv.Answers r sv' := Or.inl (hp.adds h hrun)

theorem kept_resting : Kept Solver.Resting where
  resting := id
  name := fun names h => (h.onward.name names).resting
  grows := fun h hgrows hevents _ => (h.onward.withStore hgrows hevents).resting
  post := fun h hrun => (onward_post h.onward hrun).resting
  narrow := fun h hrun => (onward_narrow h.onward hrun).resting

/-- Variables that differ from each other are posted with a single filter. -/
theorem post_allDifferent {vars : List IntVar} (hne : vars ≠ []) (hnodup : vars.Nodup)
    (strength : Strength) :
    (Constraint.allDifferent vars strength).post (P := Filter)
      = Modelling.post (strength.filter vars) := by
  simp [Constraint.post, hne, hnodup, postFilter, HasFilters.ofFilter]

/-- A single constraint is answered in one of the four ways. -/
theorem answers_post {c : Constraint} (hsingle : c.Single) (h : sv.Resting)
    (hrun : (c.post (P := Filter)).run.run sv = .ok (r, sv')) : sv.Answers r sv' := by
  cases c with
  | allDifferent vars strength =>
    by_cases hnil : vars = []
    · subst hnil
      cases hrun
      exact Or.inr ⟨rfl, _, rfl, trivial⟩
    by_cases hnodup : vars.Nodup
    · rw [post_allDifferent hnil hnodup] at hrun
      exact (posting_filter kept_resting (strength.filter vars)).answers h hrun
    · simp [Constraint.post, hnil, hnodup] at hrun
      cases hrun
      exact Or.inr ⟨rfl, _, rfl, trivial⟩
  | sumAtMost terms limit =>
    by_cases hnil : terms = []
    · subst hnil
      cases hrun
      exact Or.inr ⟨rfl, _, rfl, trivial⟩
    · exact (posting_sumAtMost kept_resting hnil limit).answers h hrun
  | sumEquals terms sum =>
    by_cases hnil : terms = []
    · subst hnil
      cases hrun
      exact Or.inr ⟨rfl, _, rfl, trivial⟩
    · exact (posting_sumEquals kept_resting hnil sum).answers h hrun
  | atMost x y => exact (posting_filter kept_resting _).answers h hrun
  | less x y =>
    exact (Posting.checked fun _ _ => posting_filter kept_resting _).answers h hrun
  | equal x y =>
    exact (Posting.checked fun _ _ => Posting.checked fun _ _ =>
      posting_sumEquals kept_resting (List.cons_ne_nil _ _) 0).answers h hrun
  | distinct x y => exact (posting_filter kept_resting _).answers h hrun
  | differs x k => exact (posting_narrow kept_resting _).answers h hrun
  | subset y z => exact (posting_filter kept_resting _).answers h hrun
  | disjoint y z => exact (posting_filter kept_resting _).answers h hrun
  | member x y => exact (posting_filter kept_resting _).answers h hrun
  | oneNeighbour d g but =>
    exact answers_requireNode hrun fun _ _ hrun => (posting_filter kept_resting _).answers h hrun
  | pathNoCycle g source sink =>
    exact answers_requireNode hrun fun _ _ hrun => answers_requireNode hrun fun _ _ hrun =>
      (posting_filter kept_resting _).answers h hrun
  | hamiltonianPath g source sink =>
    refine answers_requireNode hrun fun hknown hsource hrest =>
      answers_requireNode hrest fun _ hsink _ => ?_
    -- the order is read in between, and what is posted before does not change it
    exact (posting_hamiltonianPath hsource hsink).answers ⟨h, hknown, rfl⟩ hrun
  | all constraints => exact hsingle.elim

/-! ### New variables -/

/-- A program that adds a variable to the store and names it makes a new variable. -/
theorem declared_of_add {α : Type} {program : Modelling Filter α} (change : Store → α × Store)
    (v : α → VariableId) (name? : Option String)
    (hprogram : program.run.run sv = (do
      let x ← withStore change
      Modelling.name (v x) name?
      return x : Modelling Filter α).run.run sv)
    (hrun : (program >>= fun _ => pure ()).run.run sv = .ok (r, sv')) :
    r = .ok () ∧ sv'.infeasible = sv.infeasible := by
  obtain ⟨names, hnew⟩ := run_add change v name? sv
  rw [run_bind, hprogram, hnew] at hrun
  cases hrun
  exact ⟨rfl, rfl⟩

/-- A new variable is refused before anything is changed, or it is made. -/
theorem declared_cases {st : Statement} (hposts : ¬ st.Posts) (h : sv.Resting)
    (hrun : runOn st.program sv = .ok (r, sv')) :
    r = .ok () ∧ sv'.infeasible = sv.infeasible
      ∨ sv' = sv ∧ ∃ e, r = .error e ∧ e ≠ .infeasibleAddition := by
  -- the arguments are checked before the store is touched
  rw [runOn] at hrun
  cases st with
  | bounded lower upper fits name? =>
    by_cases hlt : upper < lower
    · simp only [Statement.program, newBounded, if_pos hlt] at hrun
      cases hrun
      exact Or.inr ⟨rfl, _, rfl, fun heq => by cases heq⟩
    · refine Or.inl (declared_of_add (·.addInt (.bounded lower upper)) .int name? ?_ hrun)
      simp only [newBounded, if_neg hlt]
      rw [run_bind, run_requireRoot h.root]
      rfl
  | enumerated values fits name? =>
    cases hempty : values.isEmpty with
    | true =>
      simp only [Statement.program, newEnumerated, hempty, if_true] at hrun
      cases hrun
      exact Or.inr ⟨rfl, _, rfl, fun heq => by cases heq⟩
    | false =>
      cases hd : IntegerDomain.enumerated (sortedDistinct values) with
      | error e =>
        simp only [Statement.program, newEnumerated, hempty, Bool.false_eq_true, if_false, hd] at hrun
        rw [run_bind, run_bind, run_requireRoot h.root] at hrun
        cases hrun
      | ok d =>
        refine Or.inl (declared_of_add (·.addInt d) .int name? ?_ hrun)
        simp only [newEnumerated, hempty, Bool.false_eq_true, if_false]
        rw [run_bind, run_requireRoot h.root]
        simp only [Except.bind]
        rw [run_bind, checked, run_lift, hd]
        rfl
  | set elements name? =>
    refine Or.inl
      (declared_of_add (·.addSet (.subsetsOf (sortedDistinct elements))) .set name? ?_ hrun)
    rw [newSet, run_bind, run_requireRoot h.root]
    rfl
  | graph order arcs name? =>
    by_cases hall : ∀ arc ∈ arcs, arc.1 < order ∧ arc.2 < order
    · obtain ⟨d, hd⟩ := GraphDomain.exists_subgraphsOf hall
      exact Or.inl
        (declared_of_add (·.addGraph d) .graph name? (run_newGraph h.root hall hd name?) hrun)
    · -- the arc that is found is the reason why there is no such domain
      simp only [Statement.program, newGraph] at hrun
      split at hrun
      next =>
        cases hrun
        exact Or.inr ⟨rfl, _, rfl, fun heq => by cases heq⟩
      next hfind =>
        exact absurd (fun arc hmem => by simpa using List.find?_eq_none.mp hfind arc hmem) hall
  | post c => exact absurd trivial hposts
  | impose p => exact absurd trivial hposts

/-! ### Statements -/

/-- A predicate is answered like a single constraint, but never refused for its arguments. -/
theorem answers_stated {st : Statement} (hposts : st.Posts) (hsingle : st.Single) (h : sv.Resting)
    (hrun : runOn st.program sv = .ok (r, sv')) : sv.Answers r sv' := by
  cases st with
  | post c => exact answers_post hsingle h hrun
  | impose p => exact (posting_narrow kept_resting _).answers h hrun
  | _ => exact hposts.elim

/-- A single statement that is answered by an error has changed nothing, unless what it added has no
    solution. -/
theorem stated_unchanged {st : Statement} {e : ModelError} (hsingle : st.Single) (h : sv.Resting)
    (hrun : runOn st.program sv = .ok (.error e, sv')) (he : e ≠ .infeasibleAddition) :
    sv' = sv := by
  by_cases hposts : st.Posts
  · exact (answers_stated hposts hsingle h hrun).unchanged rfl he
  · rcases declared_cases hposts h hrun with ⟨hok, -⟩ | ⟨hsame, -⟩
    · cases hok
    · exact hsame

/-- Only an addition to a model that may have solutions is found to have none. -/
theorem stated_failed {st : Statement} (hsingle : st.Single) (h : sv.Resting)
    (hrun : runOn st.program sv = .ok (.error .infeasibleAddition, sv')) :
    st.Posts ∧ sv.infeasible = false ∧ sv'.infeasible = true := by
  by_cases hposts : st.Posts
  · exact ⟨hposts, (answers_stated hposts hsingle h hrun).failed rfl⟩
  · rcases declared_cases hposts h hrun with ⟨hok, -⟩ | ⟨-, e, he, hne⟩
    · cases hok
    · exact absurd (Except.error.inj he).symm hne

end Solver

end FiniteDomain
