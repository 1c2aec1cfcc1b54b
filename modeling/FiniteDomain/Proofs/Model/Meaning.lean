import FiniteDomain.Proofs.Model.Build
import FiniteDomain.Proofs.Model.Growth
import FiniteDomain.Proofs.Search.Account

/-! # What a solver stands for

    The statements that a solver is given describe a model: variables with their
    initial domains, and constraints between them (`Model`).  A constraint whose
    arguments are refused is not part of the model; one that is found to have no
    solution is.

    A solver represents a model if the solutions of its space are those of the
    model, or if it is known to have no solution and the model has none
    (`Solver.Represents`).  Whatever is stated, in any order, the solver
    represents what has been stated so far (`Solver.Represents.state`). -/

namespace FiniteDomain

/-! ### Views made from variables -/

namespace IntVar

variable {x y : IntVar}

theorem exactValue_scaled {k : Int} (h : x.scaled k = .ok y) (value : IntId → Int) :
    y.exactValue value = k * x.exactValue value := by
  cases x with
  | plain z =>
    simp only [scaled, AffineMap.make, bind, Except.bind] at h
    split at h
    · cases h
    next hmap =>
      split at hmap
      · cases hmap
      · cases hmap
        cases h
        simp [exactValue, AffineMap.image]
  | view inner map =>
    simp only [scaled, AffineMap.scaled, AffineMap.make, bind, Except.bind] at h
    split at h
    · cases h
    next hmap =>
      split at hmap
      · split at hmap
        · cases hmap
        · cases hmap
          cases h
          simp only [exactValue, AffineMap.image]
          ring
      · cases hmap

theorem exactValue_shifted {k : Int} (h : x.shifted k = .ok y) (value : IntId → Int) :
    y.exactValue value = x.exactValue value + k := by
  cases x with
  | plain z =>
    cases h
    simp [exactValue, AffineMap.image]
  | view inner map =>
    simp only [shifted, AffineMap.shifted, bind, Except.bind] at h
    split at h
    · cases h
    next hmap =>
      split at hmap
      · cases hmap
        cases h
        simp only [exactValue, AffineMap.image]
        ring
      · cases hmap

/-- What is known of a negated variable is known of the negated variables of a list. -/
theorem map_negated {β : Type} {value opposite : IntVar → β}
    (hvalue : ∀ x y : IntVar, x.negated = .ok y → value y = opposite x)
    {terms negated : List IntVar} (h : terms.mapM IntVar.negated = .ok negated) :
    negated.map value = terms.map opposite := by
  induction terms generalizing negated with
  | nil =>
    cases h
    rfl
  | cons x rest ih =>
    rw [List.mapM_cons] at h
    cases hx : x.negated with
    | error e => rw [hx] at h; cases h
    | ok y =>
      rw [hx] at h
      cases hrest : rest.mapM IntVar.negated with
      | error e => rw [hrest] at h; cases h
      | ok ys =>
        rw [hrest] at h
        cases h
        rw [List.map_cons, List.map_cons, hvalue x y hx, ih hrest]

theorem sum_exactValue_negated {terms negated : List IntVar}
    (h : terms.mapM IntVar.negated = .ok negated) (value : IntId → Int) :
    (negated.map (·.exactValue value)).sum = -(terms.map (·.exactValue value)).sum
      ∧ (negated = [] ↔ terms = []) := by
  have hvalue : negated.map (·.exactValue value) = terms.map fun x => -x.exactValue value := by
    refine map_negated (fun x y hy => ?_) h
    rw [exactValue_scaled hy]
    ring
  have hneg : -(terms.map (·.exactValue value)).sum = (negated.map (·.exactValue value)).sum := by
    rw [hvalue, List.sum_neg, List.map_map]
    rfl
  refine ⟨hneg.symm, ?_⟩
  have hlength := congrArg List.length hvalue
  rw [List.length_map, List.length_map] at hlength
  rw [← List.length_eq_zero_iff, ← List.length_eq_zero_iff, hlength]

end IntVar

/-! ### Constraints -/

namespace Constraint

/-- Constraints of these kinds are posted as filters, and once everything is fixed their filters
    leave nothing but solutions, whatever kinds of domains the variables have. -/
def Exact : Constraint → Prop
  | .differs _ _ | .pathNoCycle _ _ _ | .hamiltonianPath _ _ _ | .all _ => False
  | _ => True

/-- The valuation satisfies the constraint, which is exact. -/
def Sat : Constraint → Valuation → Prop
  | .allDifferent vars _, a => (vars.map (·.exactValue a.int)).Nodup
  | .sumAtMost terms limit, a => (terms.map (·.exactValue a.int)).sum ≤ limit
  | .sumEquals terms sum, a => (terms.map (·.exactValue a.int)).sum = sum
  | .atMost x y, a => x.exactValue a.int ≤ y.exactValue a.int
  | .less x y, a => x.exactValue a.int < y.exactValue a.int
  | .equal x y, a => x.exactValue a.int = y.exactValue a.int
  | .distinct x y, a => x.exactValue a.int ≠ y.exactValue a.int
  | .subset y z, a => a.set y ⊆ a.set z
  | .disjoint y z, a => ∀ e ∈ a.set y, e ∉ a.set z
  | .member x y, a => x.exactValue a.int ∈ a.set y
  | .oneNeighbour d g but, a => Filter.OneNeighbourBut d but (a.graph g)
  | .differs _ _, _ | .pathNoCycle _ _ _, _ | .hamiltonianPath _ _ _, _ | .all _, _ => False

/-- The arguments of the constraint are accepted. -/
def Accepted (s : Store) : Constraint → Prop
  | .allDifferent vars _ => vars ≠ [] ∧ vars.Nodup
  | .sumAtMost terms _ | .sumEquals terms _ => terms ≠ []
  | .oneNeighbour _ g but => but < (s.graph g).order
  | _ => True

instance (s : Store) (c : Constraint) : Decidable (c.Accepted s) := by
  cases c <;> unfold Accepted <;> infer_instance

/-- The filters for a sum. -/
def sumFilters (terms : List IntVar) (sum : Int) : Except Fault (List Filter) := do
  return [.sumAtMost terms sum, .sumAtMost (← terms.mapM IntVar.negated) (-sum)]

/-- The filters that an exact constraint is posted as. -/
def filters : Constraint → Except Fault (List Filter)
  | .allDifferent vars strength => return [strength.filter vars]
  | .sumAtMost terms limit => return [.sumAtMost terms limit]
  | .sumEquals terms sum => sumFilters terms sum
  | .atMost a b => return [.atMost a b]
  | .less a b => do return [.atMost a (← b.shifted (-1))]
  | .equal a b => do sumFilters [← a.scaled 1, ← b.negated] 0
  | .distinct a b => return [.distinct a b]
  | .subset a b => return [.subset a b]
  | .disjoint a b => return [.disjoint a b]
  | .member x y => return [.member x y]
  | .oneNeighbour d g but => return [.oneNeighbour d g but]
  | .differs _ _ | .pathNoCycle _ _ _ | .hamiltonianPath _ _ _ | .all _ => return []

variable {c : Constraint} {fs : List Filter} {a : Valuation}

theorem sumFilters_eq {terms : List IntVar} {sum : Int} (h : sumFilters terms sum = .ok fs) :
    ∃ negated, terms.mapM IntVar.negated = .ok negated
      ∧ fs = [.sumAtMost terms sum, .sumAtMost negated (-sum)] := by
  unfold sumFilters at h
  cases hmap : terms.mapM IntVar.negated with
  | error e => rw [hmap] at h; cases h
  | ok negated =>
    rw [hmap] at h
    cases h
    exact ⟨negated, rfl, rfl⟩

theorem sat_sumFilters {terms : List IntVar} {sum : Int} (h : sumFilters terms sum = .ok fs) :
    (∀ f ∈ fs, f.Sat a) ↔ (terms.map (·.exactValue a.int)).sum = sum := by
  obtain ⟨negated, hmap, rfl⟩ := sumFilters_eq h
  have hsum := (IntVar.sum_exactValue_negated hmap a.int).1
  simp only [List.forall_mem_cons, Filter.Sat, hsum]
  constructor
  · rintro ⟨hle, hge, -⟩
    omega
  · intro heq
    exact ⟨by omega, by omega, by simp⟩

theorem equal_filters {x y : IntVar} (h : (Constraint.equal x y).filters = .ok fs) :
    ∃ left right, x.scaled 1 = .ok left ∧ y.negated = .ok right
      ∧ sumFilters [left, right] 0 = .ok fs := by
  simp only [filters, bind, Except.bind] at h
  split at h
  · cases h
  next left hleft =>
    split at h
    · cases h
    next right hright => exact ⟨left, right, hleft, hright, h⟩

theorem less_filters {x y : IntVar} (h : (Constraint.less x y).filters = .ok fs) :
    ∃ below, y.shifted (-1) = .ok below ∧ fs = [.atMost x below] := by
  simp only [filters, bind, Except.bind] at h
  split at h
  · cases h
  next below hbelow =>
    cases h
    exact ⟨below, hbelow, rfl⟩

/-- A constraint is satisfied if its filters are. -/
theorem sat_iff (hexact : c.Exact) (hfs : c.filters = .ok fs) :
    c.Sat a ↔ ∀ f ∈ fs, f.Sat a := by
  have hsingle : ∀ {p : Prop} {f : Filter}, (p ↔ f.Sat a) → (p ↔ ∀ g ∈ [f], g.Sat a) := by
    intro p f h
    simpa using h
  cases c with
  | allDifferent vars strength =>
    cases hfs
    cases strength <;> exact hsingle Iff.rfl
  | sumEquals terms sum => exact (sat_sumFilters hfs).symm
  | less x y =>
    obtain ⟨below, hbelow, rfl⟩ := less_filters hfs
    refine hsingle ?_
    simp only [Sat, Filter.Sat, IntVar.exactValue_shifted hbelow]
    omega
  | equal x y =>
    obtain ⟨left, right, hleft, hright, hsum⟩ := equal_filters hfs
    rw [sat_sumFilters hsum]
    simp only [Sat, List.map_cons, List.map_nil, List.sum_cons, List.sum_nil,
      IntVar.exactValue_scaled hleft, IntVar.exactValue_scaled hright]
    omega
  | differs x k => exact hexact.elim
  | pathNoCycle g source sink => exact hexact.elim
  | hamiltonianPath g source sink => exact hexact.elim
  | all constraints => exact hexact.elim
  | sumAtMost terms limit => cases hfs; exact hsingle Iff.rfl
  | atMost x y => cases hfs; exact hsingle Iff.rfl
  | distinct x y => cases hfs; exact hsingle Iff.rfl
  | subset y z => cases hfs; exact hsingle Iff.rfl
  | disjoint y z => cases hfs; exact hsingle Iff.rfl
  | member x y => cases hfs; exact hsingle Iff.rfl
  | oneNeighbour d g but => cases hfs; exact hsingle Iff.rfl

theorem decisive_of_exact (hexact : c.Exact) (hfs : c.filters = .ok fs) :
    ∀ f ∈ fs, f.Decisive := by
  have hsingle : ∀ {g : Filter}, g.Decisive → ∀ f ∈ [g], f.Decisive := by
    intro g hg f hf
    rw [List.mem_singleton.mp hf]
    exact hg
  have hsum : ∀ {terms : List IntVar} {sum : Int}, sumFilters terms sum = .ok fs →
      ∀ f ∈ fs, f.Decisive := by
    intro terms sum h f hf
    obtain ⟨negated, -, rfl⟩ := sumFilters_eq h
    rcases List.mem_pair.mp hf with rfl | rfl <;> trivial
  -- all filters are decisive but the one for paths, and no constraint with it is exact
  cases c with
  | allDifferent vars strength =>
    cases hfs
    cases strength <;> exact hsingle trivial
  | sumEquals terms sum => exact hsum hfs
  | less x y =>
    obtain ⟨below, -, rfl⟩ := less_filters hfs
    exact hsingle trivial
  | equal x y =>
    obtain ⟨left, right, -, -, hfs⟩ := equal_filters hfs
    exact hsum hfs
  | differs x k => exact hexact.elim
  | pathNoCycle g source sink => exact hexact.elim
  | hamiltonianPath g source sink => exact hexact.elim
  | all constraints => exact hexact.elim
  | sumAtMost terms limit => cases hfs; exact hsingle trivial
  | atMost x y => cases hfs; exact hsingle trivial
  | distinct x y => cases hfs; exact hsingle trivial
  | subset y z => cases hfs; exact hsingle trivial
  | disjoint y z => cases hfs; exact hsingle trivial
  | member x y => cases hfs; exact hsingle trivial
  | oneNeighbour d g but => cases hfs; exact hsingle trivial

/-- The constraint is exact, and its filters can be made and run on the domains. -/
structure Fits (s : Store) (c : Constraint) : Prop where
  /-- The constraint is exact. -/
  exact : c.Exact
  /-- A node is looked up in a graph that exists. -/
  graph : ∀ d g but, c = .oneNeighbour d g but → s.knows (.graph g) = true
  /-- The filters can be made, and be run if the arguments are accepted. -/
  ready : ∃ fs, c.filters = .ok fs ∧ (c.Accepted s → ∀ f ∈ fs, f.Ready s)

/-! ### How constraints are posted -/

open Program Modelling

variable {sv : Solver Filter}

theorem postSumAtMost_eq {terms : List IntVar} (limit : Int) (h : terms ≠ []) :
    postSumAtMost (P := Filter) terms limit = Modelling.post (.sumAtMost terms limit) := by
  simp [postSumAtMost, h, postFilter, HasFilters.ofFilter]

theorem forM_singleton (f : Filter) :
    [f].forM (Modelling.post (P := Filter)) = Modelling.post f := by
  show (Modelling.post f >>= pure) = Modelling.post f
  exact bind_pure _

theorem run_postSumEquals {terms : List IntVar} {sum : Int} (h : terms ≠ [])
    (hfs : sumFilters terms sum = .ok fs) :
    (postSumEquals (P := Filter) terms sum).run.run sv
      = (fs.forM (Modelling.post (P := Filter))).run.run sv := by
  obtain ⟨negated, hmap, rfl⟩ := sumFilters_eq hfs
  have hnegated : negated ≠ [] := fun hnil =>
    h ((IntVar.sum_exactValue_negated hmap fun _ => 0).2.mp hnil)
  have hpair : [Filter.sumAtMost terms sum, .sumAtMost negated (-sum)].forM
      (Modelling.post (P := Filter))
        = Modelling.post (.sumAtMost terms sum) >>= fun _ =>
          Modelling.post (.sumAtMost negated (-sum)) :=
    congrArg _ (funext fun _ => forM_singleton _)
  rw [hpair, postSumEquals, run_bind, checked, run_lift, hmap]
  simp only [Except.map, Except.bind, postSumAtMost_eq _ h, postSumAtMost_eq _ hnegated]

/-- An exact constraint whose arguments are accepted is posted as its filters. -/
theorem run_post {s : Store} (hexact : c.Exact) (hfs : c.filters = .ok fs)
    (hgraph : ∀ d g but, c = .oneNeighbour d g but → s.knows (.graph g) = true)
    (haccepted : c.Accepted s) (hst : s.Narrower sv.store) :
    (c.post (P := Filter)).run.run sv = (fs.forM (Modelling.post (P := Filter))).run.run sv := by
  cases c with
  | allDifferent vars strength =>
    cases hfs
    obtain ⟨hne, hnodup⟩ := haccepted
    rw [forM_singleton]
    simp [post, hne, hnodup, postFilter, HasFilters.ofFilter]
  | sumAtMost terms limit =>
    cases hfs
    rw [forM_singleton]
    exact congrArg (fun p => p.run.run sv) (postSumAtMost_eq limit haccepted)
  | sumEquals terms sum => exact run_postSumEquals haccepted hfs
  | less x y =>
    obtain ⟨below, hbelow, rfl⟩ := less_filters hfs
    rw [forM_singleton, post, run_bind, checked, run_lift, hbelow]
    rfl
  | equal x y =>
    obtain ⟨left, right, hleft, hright, hsum⟩ := equal_filters hfs
    rw [← run_postSumEquals (List.cons_ne_nil _ _) hsum, post, run_bind, checked, run_lift, hleft]
    simp only [Except.map, Except.bind]
    rw [run_bind, checked, run_lift, hright]
    rfl
  | oneNeighbour d g but =>
    cases hfs
    have hlt : but < (sv.store.graph g).order := (hst.order g).symm ▸ haccepted
    -- the check of the node reads the order of the graph, which does not change
    have hknown : sv.store.knows (.graph g) = true := (hst.knows _).trans (hgraph d g but rfl)
    rw [forM_singleton, post, postOneNeighbour, run_bind, run_requireNode hknown hlt]
    rfl
  | differs x k => exact hexact.elim
  | pathNoCycle g source sink => exact hexact.elim
  | hamiltonianPath g source sink => exact hexact.elim
  | all constraints => exact hexact.elim
  | atMost x y => cases hfs; rw [forM_singleton]; rfl
  | distinct x y => cases hfs; rw [forM_singleton]; rfl
  | subset y z => cases hfs; rw [forM_singleton]; rfl
  | disjoint y z => cases hfs; rw [forM_singleton]; rfl
  | member x y => cases hfs; rw [forM_singleton]; rfl

/-- A constraint whose arguments are refused changes nothing. -/
theorem run_post_refused {s : Store} (hfits : c.Fits s) (hrefused : ¬ c.Accepted s)
    (hst : s.Narrower sv.store) :
    ∃ e, (c.post (P := Filter)).run.run sv = .ok (.error e, sv) := by
  -- the arguments are looked at before the solver is touched
  obtain ⟨fs, hfs, -⟩ := hfits.ready
  cases c with
  | allDifferent vars strength =>
    by_cases hnil : vars = []
    · subst hnil
      exact ⟨_, rfl⟩
    · have hnodup : ¬ vars.Nodup := fun h => hrefused ⟨hnil, h⟩
      refine ⟨.duplicateVariable, ?_⟩
      simp [post, hnil, hnodup]
      rfl
  | sumAtMost terms limit =>
    obtain rfl : terms = [] := Classical.not_not.mp hrefused
    exact ⟨_, rfl⟩
  | sumEquals terms sum =>
    obtain rfl : terms = [] := Classical.not_not.mp hrefused
    exact ⟨_, rfl⟩
  | oneNeighbour d g but =>
    have hle : ¬ but < (sv.store.graph g).order := (hst.order g).symm ▸ hrefused
    have hknown : sv.store.knows (.graph g) = true := (hst.knows _).trans (hfits.graph d g but rfl)
    refine ⟨.nodeOutOfRange but (sv.store.graph g).order, ?_⟩
    rw [post, postOneNeighbour, run_bind, run_requireNode_refused hknown hle]
    rfl
  | _ => exact absurd trivial hrefused

end Constraint

/-! ### Models -/

/-- What has been stated. -/
structure Model where
  /-- The variables with their initial domains. -/
  domains : Store
  /-- The constraints, the latest first. -/
  constraints : List Constraint

namespace Model

/-- Nothing has been stated. -/
def empty : Model := ⟨Store.empty, []⟩

/-- The valuation satisfies the constraints. -/
def Sat (m : Model) (a : Valuation) : Prop := ∀ c ∈ m.constraints, c.Sat a

/-- The valuation takes its contents from the initial domains and satisfies the constraints. -/
def Solves (m : Model) (a : Valuation) : Prop := m.domains.Admits a ∧ m.Sat a

end Model

namespace Statement

/-- The variables after the statement. -/
def declare (s : Store) : Statement → Store
  | .bounded lower upper _ _ =>
    if upper < lower then s else (s.addInt (IntegerDomain.bounded lower upper)).2
  | .enumerated values _ _ =>
    match IntegerDomain.enumerated (Modelling.sortedDistinct values) with
    | .ok d => (s.addInt d).2
    | .error _ => s
  | .set elements _ =>
    (s.addSet (SetDomain.subsetsOf (Modelling.sortedDistinct elements))).2
  | .graph order arcs _ =>
    match GraphDomain.subgraphsOf order arcs with
    | .ok d => (s.addGraph d).2
    | .error _ => s
  | .post _ | .impose _ => s

/-- The model after the statement: a constraint whose arguments are refused is left out. -/
def extend (m : Model) (st : Statement) : Model where
  domains := st.declare m.domains
  constraints :=
    match st with
    | .post c => if c.Accepted m.domains then c :: m.constraints else m.constraints
    | _ => m.constraints

/-- The statement makes a variable or posts a constraint that fits the variables made before. -/
def Fits (s : Store) : Statement → Prop
  | .post c => c.Fits s
  | .impose _ => False
  | _ => True

end Statement

/-- The model that a list of statements describes. -/
def Model.state (m : Model) (statements : List Statement) : Model :=
  statements.foldl Statement.extend m

/-- Every statement fits the variables made before it. -/
def Model.Fits (m : Model) : List Statement → Prop
  | [] => True
  | st :: rest => st.Fits m.domains ∧ (st.extend m).Fits rest

/-! ### Representation -/

namespace Solver

/-- The solver has the variables, no search is in progress, and propagation has seen to the
    concern. -/
structure Poised (k : Concern) (sv : Solver Filter) (domains : Store) : Prop where
  /-- No search is in progress. -/
  resting : sv.Resting
  /-- The initial domains are well-formed. -/
  wf : domains.Wf
  /-- The solver has the variables, with domains that are at most the initial ones. -/
  narrower : domains.Narrower sv.store
  /-- Unless there is no solution, the space is at rest. -/
  rest : sv.infeasible = false → sv.space.AtRest k

/-- The solver stands for the valuations of the domains that satisfy the condition, and propagation
    has seen to the concern. -/
structure Represents (k : Concern) (sv : Solver Filter) (domains : Store)
    (sat : Valuation → Prop) : Prop extends sv.Poised k domains where
  /-- Unless there is no solution, the space has the solutions looked for. -/
  solves : sv.infeasible = false → ∀ a, sv.space.Solves a ↔ domains.Admits a ∧ sat a
  /-- A solver that is known to have no solution is right. -/
  refuted : sv.infeasible = true → ∀ a, domains.Admits a → ¬ sat a

variable {k : Concern} {sv sv' : Solver Filter} {domains domains' : Store}
  {sat sat' : Valuation → Prop}

theorem Poised.calm (h : sv.Poised .clashes domains) (hfeasible : sv.infeasible = false) :
    sv.space.Calm := (h.rest hfeasible).calm

theorem Represents.congr (h : sv.Represents k domains sat)
    (hiff : ∀ a, domains.Admits a → (sat a ↔ sat' a)) : sv.Represents k domains sat' where
  toPoised := h.toPoised
  solves := fun hfeasible a =>
    (h.solves hfeasible a).trans (and_congr_right fun ha => hiff a ha)
  refuted := fun hinfeasible a ha hsat => h.refuted hinfeasible a ha ((hiff a ha).mpr hsat)

theorem atRest_empty : (Space.empty : Space Filter).AtRest k :=
  ⟨Space.watchful_start Store.wf_empty rfl fun _ => rfl, Space.settled_start rfl⟩

theorem represents_empty (random : Random) :
    (Solver.empty random : Solver Filter).Represents k Store.empty fun _ => True where
  resting := resting_empty random
  wf := Store.wf_empty
  narrower := .refl Store.wf_empty
  rest := fun _ => atRest_empty
  solves := fun _ a => by
    refine and_congr_right fun _ => ⟨fun _ => trivial, fun _ i f hf => ?_⟩
    exact absurd hf (Space.filterAt?_start (s := Store.empty))
  refuted := nofun

/-! ### Posting filters -/

open Program Modelling

/-- A solver that is known to have no solution stands for whatever is demanded in addition. -/
theorem Represents.stronger (h : sv.Represents k domains sat) (hinfeasible : sv.infeasible = true)
    (hle : ∀ a, sat' a → sat a) : sv.Represents k domains sat' where
  toPoised := h.toPoised
  solves := fun hfeasible => absurd (hinfeasible.symm.trans hfeasible) (by decide)
  refuted := fun _ a ha hsat => h.refuted hinfeasible a ha (hle a hsat)

/-- What passes the filters of the second solver passes those of the first and is as said. -/
structure Tightens (sv sv' : Solver Filter) (left : Valuation → Prop) : Prop where
  /-- That there is no solution remains known. -/
  infeasible : sv.infeasible = true → sv'.infeasible = true
  /-- What passes has passed before. -/
  passes : sv'.infeasible = false → ∀ a, sv'.space.Passes a → sv.space.Passes a ∧ left a

theorem tightens_refl (sv : Solver Filter) : Tightens sv sv fun _ => True :=
  ⟨fun h => h, fun _ _ ha => ⟨ha, trivial⟩⟩

theorem tightens_of_infeasible {left : Valuation → Prop} (h : sv'.infeasible = true) :
    Tightens sv sv' left :=
  ⟨fun _ => h, fun hfalse => absurd (h.symm.trans hfalse) (by decide)⟩

theorem Tightens.trans {mid : Solver Filter} {left left' : Valuation → Prop}
    (h : Tightens sv mid left) (h' : Tightens mid sv' left') :
    Tightens sv sv' fun a => left a ∧ left' a where
  infeasible := fun hinfeasible => h'.infeasible (h.infeasible hinfeasible)
  passes := fun hfeasible a ha => by
    have hmid : mid.infeasible = false := by
      refine Bool.eq_false_iff.mpr fun hinfeasible => ?_
      exact absurd ((h'.infeasible hinfeasible).symm.trans hfeasible) (by decide)
    obtain ⟨hpasses, hleft'⟩ := h'.passes hfeasible a ha
    obtain ⟨hbefore, hleft⟩ := h.passes hmid a hpasses
    exact ⟨hbefore, hleft, hleft'⟩

/-- Whatever a solver stands for, after the program it stands for what is demanded in addition, and
    what passes its filters is what is left in addition; if the program gives up, there is no
    solution any more. -/
def Demands (k : Concern) (domains : Store) (p : Modelling Filter Unit)
    (sat left : Valuation → Prop) : Prop :=
  ∀ ⦃sv : Solver Filter⦄ ⦃before : Valuation → Prop⦄, sv.Represents k domains before →
    ∃ r sv', p.run.run sv = .ok (r, sv') ∧ sv'.Represents k domains (fun a => before a ∧ sat a)
      ∧ Tightens sv sv' left ∧ (r = .ok () ∨ sv'.infeasible = true)

/-- Posting a filter demands that its constraint is satisfied. -/
theorem demands_post {f : Filter} (hf : ∀ s, k.Regards f s) (hr : f.Ready domains) :
    Demands k domains (Modelling.post f) f.Sat f.Passes := by
  intro sv before h
  cases hfeasible : sv.infeasible with
  | true =>
    -- a solver that has no solution ignores what it is asked for
    exact ⟨_, sv, run_post_infeasible f hfeasible, h.stronger hfeasible fun _ hsat => hsat.1,
      tightens_of_infeasible hfeasible, Or.inr hfeasible⟩
  | false =>
    have hbefore := h.rest hfeasible
    have hready := hr.narrower h.narrower
    obtain ⟨c?, sp', hpost, hconclude, hrest⟩ := Space.post_spec hbefore.watchful (hf _) hready
      (hbefore.watchful.entered (hf _) hready).spares_satisfies
    have hsolves : ∀ a, (sv.space.entered f).Solves a ↔ domains.Admits a ∧ before a ∧ f.Sat a :=
      fun a => (Space.solves_entered a).trans
        ((and_congr_left fun _ => h.solves hfeasible a).trans and_assoc)
    have hrun := run_post f h.resting.root hfeasible
    rw [hpost] at hrun
    have hleads : (sv.space.entered f).Leads sp' := hconclude.leads
    have hnarrower : domains.Narrower sp'.store := h.narrower.trans (hleads.narrower hbefore.wf)
    cases c? with
    | none =>
      refine ⟨_, _, hrun, ⟨⟨?_, h.wf, hnarrower, ?_⟩, ?_, ?_⟩, ⟨?_, ?_⟩, Or.inl rfl⟩
      · exact (onward_post h.resting.onward hrun).resting
      · exact fun _ => ⟨(hrest rfl).1, (hrest rfl).2⟩
      · exact fun _ a => (hconclude.solves_iff a).trans (hsolves a)
      · exact fun hinfeasible => absurd (hfeasible.symm.trans hinfeasible) (by decide)
      · exact fun hinfeasible => hinfeasible
      · exact fun _ a ha => (Space.passes_entered a).mp (hleads.passes hbefore.wf ha)
    | some c =>
      refine ⟨_, _, hrun, ⟨⟨?_, h.wf, hnarrower, nofun⟩, nofun, ?_⟩, tightens_of_infeasible rfl,
        Or.inr rfl⟩
      · exact (onward_post h.resting.onward hrun).resting
      · intro _ a ha hsat
        -- a contradiction is met only if nothing is a solution any more
        obtain ⟨hadmits, hall⟩ := (hsolves a).mpr ⟨ha, hsat⟩
        exact hconclude.refuted c rfl a hadmits hall

section

variable {p q : Modelling Filter Unit} {left left' : Valuation → Prop}

theorem demands_pure : Demands k domains (pure ()) (fun _ => True) fun _ => True :=
  fun sv _ h => ⟨_, _, rfl, h.congr fun _ _ => (and_iff_left trivial).symm, tightens_refl sv,
    Or.inl rfl⟩

theorem Demands.congr (h : Demands k domains p sat left) (hsat : ∀ a, sat a ↔ sat' a)
    (hleft : ∀ a, left a → left' a) : Demands k domains p sat' left' := by
  intro sv before hbefore
  obtain ⟨r, sv', hrun, hafter, htightens, hcase⟩ := h hbefore
  exact ⟨r, sv', hrun, hafter.congr fun a _ => and_congr_right fun _ => hsat a,
    ⟨htightens.infeasible, fun hfeasible a ha => (htightens.passes hfeasible a ha).imp_right (hleft a)⟩,
    hcase⟩

/-- Demands of programs that are run one after the other add up. -/
theorem Demands.then (hp : Demands k domains p sat left) (hq : Demands k domains q sat' left') :
    Demands k domains (p >>= fun _ => q) (fun a => sat a ∧ sat' a) fun a => left a ∧ left' a := by
  intro sv before h
  obtain ⟨r, mid, hrun, hmid, htightens, hcase⟩ := hp h
  rw [run_bind, hrun]
  cases r with
  | ok _ =>
    obtain ⟨r', sv', hrun', hafter, htightens', hcase'⟩ := hq hmid
    exact ⟨r', sv', hrun', hafter.congr fun a _ => and_assoc, htightens.trans htightens', hcase'⟩
  | error e =>
    have hinfeasible : mid.infeasible = true := hcase.resolve_left nofun
    exact ⟨_, mid, rfl, hmid.stronger hinfeasible fun a hsat => ⟨hsat.1, hsat.2.1⟩,
      tightens_of_infeasible hinfeasible, Or.inr hinfeasible⟩

theorem demands_forM {α : Type} {l : List α} {f : α → Modelling Filter Unit}
    {each each' : α → Valuation → Prop} (h : ∀ x ∈ l, Demands k domains (f x) (each x) (each' x)) :
    Demands k domains (l.forM f) (fun a => ∀ x ∈ l, each x a) fun a => ∀ x ∈ l, each' x a := by
  induction l with
  | nil => exact demands_pure.congr (fun a => by simp) fun a _ => by simp
  | cons x rest ih =>
    have hrest := ih fun y hy => h y (List.mem_cons_of_mem x hy)
    exact ((h x List.mem_cons_self).then hrest).congr (fun a => by simp) fun a ha => by simpa using ha

end

/-! ### Adding variables -/

/-- The condition depends on the variables of the store only. -/
def Local (s : Store) (sat : Valuation → Prop) : Prop :=
  ∀ a b, (∀ v, s.knows v = true → a.SameAt b v) → (sat a ↔ sat b)

/-- New variables do not disturb what is at rest. -/
theorem Poised.grows (h : sv.Poised k domains) (hk : ∀ f, k.Persists f) (hresting : sv'.Resting)
    (hinfeasible : sv'.infeasible = sv.infeasible) {t : Store}
    (hspace : sv'.space = { sv.space with store := t })
    (hg : Store.GrowAlike domains domains' sv.store t) : sv'.Poised k domains' where
  resting := hresting
  wf := hg.first.wf
  narrower := by
    rw [Solver.store, hspace]
    exact hg.narrower h.narrower
  rest := fun hfeasible => by
    have hrest := h.rest (hinfeasible ▸ hfeasible)
    rw [hspace]
    refine ⟨hrest.watchful.grows hrest.settled hk hg.second hg.passive hg.events, ?_,
      hrest.settled.queue, hrest.settled.pending⟩
    exact hg.events.trans hrest.settled.events

/-- A new variable may have any content. -/
theorem Represents.grows (h : sv.Represents k domains sat) (hk : ∀ f, k.Persists f)
    (hlocal : Local domains sat) (hresting : sv'.Resting)
    (hinfeasible : sv'.infeasible = sv.infeasible) {t : Store}
    (hspace : sv'.space = { sv.space with store := t })
    (hg : Store.GrowAlike domains domains' sv.store t) : sv'.Represents k domains' sat where
  toPoised := h.toPoised.grows hk hresting hinfeasible hspace hg
  solves := fun hfeasible a => by
    have hfeasible' : sv.infeasible = false := hinfeasible ▸ hfeasible
    rw [hspace, Space.solves_grows (h.rest hfeasible').watchful hg.second a]
    -- the constraints read only what was known before, where the valuations agree
    constructor
    · rintro ⟨ha, b, hb, hsame⟩
      refine ⟨(hg.narrower h.narrower).admits a ha, (hlocal a b fun v hv => ?_).mpr
        ((h.solves hfeasible' b).mp hb).2⟩
      exact hsame v ((h.narrower.knows v).trans hv)
    · rintro ⟨ha, hsat⟩
      obtain ⟨b, hb, hsame⟩ := hg.first.exists_admits h.wf ha
      have hsolves := (h.solves hfeasible' b).mpr ⟨hb, (hlocal a b hsame).mp hsat⟩
      refine ⟨Store.admits_iff.mpr fun v => ?_, b, hsolves, fun v hv => ?_⟩
      · cases hv : domains.knows v with
        | false => exact (hg.admitsAt_iff hv).mpr (Store.admits_iff.mp ha v)
        | true =>
          have hv' : sv.store.knows v = true := (h.narrower.knows v).trans hv
          rw [hg.second.admitsAt_iff hv', (hsame v hv).admitsAt_iff]
          exact Store.admits_iff.mp hsolves.1 v
      · exact hsame v ((h.narrower.knows v).symm.trans hv)
  refuted := fun hinf a ha hsat => by
    obtain ⟨b, hb, hsame⟩ := hg.first.exists_admits h.wf ha
    exact h.refuted (hinfeasible ▸ hinf) b hb ((hlocal a b hsame).mp hsat)

/-! ### Statements -/

/-- What the constraints of a model demand depends on its variables. -/
theorem local_constraint {c : Constraint} {s : Store} (hfits : c.Fits s)
    (haccepted : c.Accepted s) : Local s c.Sat := by
  obtain ⟨fs, hfs, hready⟩ := hfits.ready
  intro a b hsame
  rw [Constraint.sat_iff hfits.exact hfs, Constraint.sat_iff hfits.exact hfs]
  refine forall₂_congr fun f hf => Filter.Sat.congr fun v hv => ?_
  exact hsame v ((hready haccepted f hf).known v hv)

theorem Local.grows {s t : Store} (h : Local s sat) (hg : s.Grows t) : Local t sat :=
  fun a b hsame => h a b fun v hv => hsame v (hg.knows v hv)

/-- The solver represents the model, whose constraints are about its variables. -/
structure Models (sv : Solver Filter) (m : Model) : Prop where
  /-- The solver stands for the solutions of the model. -/
  represents : sv.Represents .clashes m.domains m.Sat
  /-- The constraints are about the variables of the model. -/
  closed : Local m.domains m.Sat

variable {m : Model}

theorem models_empty (random : Random) : (Solver.empty random : Solver Filter).Models .empty where
  represents := (represents_empty random).congr fun a _ => by simp [Model.Sat, Model.empty]
  closed := fun a b _ => by simp [Model.Sat, Model.empty]

theorem sat_cons {c : Constraint} {cs : List Constraint} (a : Valuation) :
    Model.Sat ⟨domains, c :: cs⟩ a ↔ Model.Sat ⟨domains, cs⟩ a ∧ c.Sat a := by
  simp [Model.Sat, and_comm]

/-- A new variable is added to the model. -/
theorem Models.declare (h : sv.Models m) {st : Statement} (hpost : ∀ c, st ≠ .post c)
    {r : Except ModelError Unit} (hrun : st.program.run.run sv = .ok (r, sv'))
    (hinfeasible : sv'.infeasible = sv.infeasible) {t : Store}
    (hspace : sv'.space = { sv.space with store := t })
    (hg : Store.GrowAlike m.domains (st.declare m.domains) sv.store t) :
    sv'.Models (st.extend m) := by
  have hsat : (st.extend m).Sat = m.Sat := by
    cases st with
    | post c => exact absurd rfl (hpost c)
    | _ => rfl
  constructor
  · rw [hsat]
    exact h.represents.grows Concern.persists_clashes h.closed (st.upholds_program.keeps _ _ _ h.represents.resting hrun)
      hinfeasible hspace hg
  · rw [hsat]
    exact h.closed.grows hg.first

/-- A constraint is added to the model, unless its arguments are refused. -/
theorem Models.post (h : sv.Models m) {c : Constraint} (hfits : c.Fits m.domains) :
    ∃ r sv', (c.post (P := Filter)).run.run sv = .ok (r, sv')
      ∧ sv'.Models ((Statement.post c).extend m) := by
  by_cases haccepted : c.Accepted m.domains
  · obtain ⟨fs, hfs, hready⟩ := hfits.ready
    have hdemands : Demands .clashes m.domains (fs.forM (Modelling.post (P := Filter)))
        (fun a => ∀ f ∈ fs, f.Sat a) (fun a => ∀ f ∈ fs, f.Passes a) := demands_forM fun f hf =>
      demands_post (fun _ => Constraint.decisive_of_exact hfits.exact hfs f hf)
        (hready haccepted f hf)
    obtain ⟨r, sv', hrun, hrep, -⟩ := hdemands h.represents
    refine ⟨r, sv', ?_, ?_⟩
    · rw [Constraint.run_post hfits.exact hfs hfits.graph haccepted h.represents.narrower]
      exact hrun
    · have hextend : (Statement.post c).extend m = ⟨m.domains, c :: m.constraints⟩ := by
        simp only [Statement.extend, Statement.declare, if_pos haccepted]
      rw [hextend]
      refine ⟨hrep.congr fun a _ => ?_, fun a b hsame => ?_⟩
      · rw [sat_cons, Constraint.sat_iff hfits.exact hfs]
      · rw [sat_cons, sat_cons]
        exact and_congr (h.closed a b hsame) (local_constraint hfits haccepted a b hsame)
  · -- what is refused for its arguments adds nothing to the model
    obtain ⟨e, hrun⟩ := Constraint.run_post_refused hfits haccepted h.represents.narrower
    refine ⟨_, sv, hrun, ?_⟩
    have hextend : (Statement.post c).extend m = m := by
      simp only [Statement.extend, Statement.declare, if_neg haccepted]
    rw [hextend]
    exact h

/-- The solver with another store and other names. -/
def withVariables (sv : Solver Filter) (store : Store) (names : Names) : Solver Filter :=
  { sv with space := { sv.space with store }, names }

/-- Making a variable changes store and names only. -/
theorem run_add {α : Type} (change : Store → α × Store) (v : α → VariableId)
    (name? : Option String) (sv : Solver Filter) :
    ∃ names, (do
        let x ← withStore change
        Modelling.name (v x) name?
        return x : Modelling Filter α).run.run sv
      = .ok (.ok (change sv.store).1, sv.withVariables (change sv.store).2 names) := by
  cases name? with
  | none => exact ⟨sv.names, rfl⟩
  | some text => exact ⟨sv.names.add (v (change sv.store).1) text, rfl⟩

/-- A graph is made if its arcs have their ends below the order. -/
theorem run_newGraph (hroot : sv.root? = none) {order : Nat} {arcs : List (Nat × Nat)}
    (harcs : ∀ arc ∈ arcs, arc.1 < order ∧ arc.2 < order) {d : GraphDomain}
    (hd : GraphDomain.subgraphsOf order arcs = .ok d) (name? : Option String) :
    (newGraph order arcs name? : Modelling Filter GraphId).run.run sv = (do
      let g ← withStore (·.addGraph d)
      Modelling.name (.graph g) name?
      return g : Modelling Filter GraphId).run.run sv := by
  rw [newGraph, List.find?_eq_none.mpr]
  · rw [run_bind, run_requireRoot hroot]
    simp only [Except.bind]
    rw [run_bind, checked, run_lift, hd]
    rfl
  · intro arc hmem
    simpa using harcs arc hmem

/-- The statement comes to an end, and all that it changes are names and the variables of the
    store, which get what is declared. -/
def Declares (sv : Solver Filter) (domains : Store) (st : Statement) : Prop :=
  ∃ r sv' t, st.program.run.run sv = .ok (r, sv') ∧ sv'.infeasible = sv.infeasible
    ∧ sv'.space = { sv.space with store := t }
    ∧ Store.GrowAlike domains (st.declare domains) sv.store t

section

variable {domains : Store} {st : Statement}

/-- A statement that is refused declares nothing. -/
theorem declares_of_refused {e : ModelError} (hwf : domains.Wf)
    (hst : domains.Narrower sv.store) (hrun : st.program.run.run sv = .ok (.error e, sv))
    (hsame : st.declare domains = domains) : sv.Declares domains st := by
  refine ⟨_, _, sv.store, hrun, rfl, rfl, ?_⟩
  rw [hsame]
  exact Store.growAlike_refl hwf hst

/-- A statement that adds a variable, the same to the solver and to what is declared. -/
theorem declares_of_added {α : Type} {p : Modelling Filter α} (hprogram : st.program = do let _ ← p)
    (change : Store → α × Store) (v : α → VariableId) (name? : Option String)
    (hrun : p.run.run sv = (do
        let x ← withStore change
        Modelling.name (v x) name?
        return x : Modelling Filter α).run.run sv)
    (hgrow : Store.GrowAlike domains (st.declare domains) sv.store (change sv.store).2) :
    sv.Declares domains st := by
  obtain ⟨names, hadd⟩ := run_add change v name? sv
  refine ⟨.ok (), sv.withVariables (change sv.store).2 names, _, ?_, rfl, rfl, hgrow⟩
  rw [hprogram, run_bind, hrun, hadd]
  rfl

end

section

variable {domains : Store} (hwf : domains.Wf) (hst : domains.Narrower sv.store)
  (hroot : sv.root? = none)
include hwf hst hroot

theorem declares_bounded (lower upper : Int)
    (fits : Width.value.Fits lower ∧ Width.value.Fits upper) (name? : Option String) :
    sv.Declares domains (.bounded lower upper fits name?) := by
  by_cases hlt : upper < lower
  · refine declares_of_refused hwf hst (e := .invalidBounds lower upper) ?_ (if_pos hlt)
    simp only [Statement.program, newBounded, if_pos hlt]
    rfl
  · have hd : (IntegerDomain.bounded lower upper).Wf := by
      obtain ⟨⟨hlow, -⟩, -, hhigh⟩ := fits
      simp only [Width.value] at hlow hhigh
      exact IntegerDomain.bounded_wf (by omega) (by omega)
    refine declares_of_added rfl (·.addInt (IntegerDomain.bounded lower upper)) .int name? ?_ ?_
    · simp only [newBounded, if_neg hlt]
      rw [run_bind, run_requireRoot hroot]
      rfl
    · rw [Statement.declare, if_neg hlt]
      exact Store.growAlike_addInt hwf hst hd

theorem declares_enumerated (values : List Int) (fits : ∀ v ∈ values, Width.value.Fits v)
    (name? : Option String) : sv.Declares domains (.enumerated values fits name?) := by
  by_cases hempty : values = []
  · subst hempty
    refine declares_of_refused hwf hst (e := .emptyValueList) rfl ?_
    simp [Statement.declare, sortedDistinct, List.eraseReps, List.eraseRepsBy,
      IntegerDomain.enumerated]
  · obtain ⟨v, hv⟩ := List.exists_mem_of_ne_nil values hempty
    -- the list is sorted first, so that some least value begins it
    have hmem : v ∈ sortedDistinct values := ((pairwise_sortedReps values).2 v).mpr hv
    obtain ⟨d, hd⟩ : ∃ d, IntegerDomain.enumerated (sortedDistinct values) = .ok d := by
      obtain ⟨lower, rest, hcons⟩ := List.exists_cons_of_ne_nil (List.ne_nil_of_mem hmem)
      rw [hcons]
      exact ⟨_, rfl⟩
    have hne : values.isEmpty = false := List.isEmpty_eq_false_iff.mpr hempty
    refine declares_of_added rfl (·.addInt d) .int name? ?_ ?_
    · simp only [newEnumerated, hne, Bool.false_eq_true, if_false]
      rw [run_bind, run_requireRoot hroot]
      simp only [Except.bind]
      rw [run_bind, checked, run_lift, hd]
      rfl
    · simp only [Statement.declare, hd]
      exact Store.growAlike_addInt hwf hst
        (IntegerDomain.enumerated_wf (pairwise_sortedDistinct values) hd)

theorem declares_set (elements : List Int) (name? : Option String) :
    sv.Declares domains (.set elements name?) := by
  refine declares_of_added rfl (·.addSet (SetDomain.subsetsOf (sortedDistinct elements))) .set
    name? ?_ ?_
  · rw [newSet, run_bind, run_requireRoot hroot]
    rfl
  · exact Store.growAlike_addSet hwf hst
      (SetDomain.subsetsOf_wf (pairwise_sortedDistinct elements))

theorem declares_graph (order : Nat) (arcs : List (Nat × Nat)) (name? : Option String) :
    sv.Declares domains (.graph order arcs name?) := by
  by_cases hall : ∀ arc ∈ arcs, arc.1 < order ∧ arc.2 < order
  · obtain ⟨d, hd⟩ := GraphDomain.exists_subgraphsOf hall
    refine declares_of_added rfl (·.addGraph d) .graph name? (run_newGraph hroot hall hd name?) ?_
    · simp only [Statement.declare, hd]
      exact Store.growAlike_addGraph hwf hst (GraphDomain.subgraphsOf_spec hd).1
  · obtain ⟨e, hd⟩ : ∃ e, GraphDomain.subgraphsOf order arcs = .error e :=
      ⟨.assertionFailed, if_neg fun hin => hall fun arc hmem => by
        simpa using List.all_eq_true.mp hin arc hmem⟩
    -- the arc that is found is the reason why there is no such domain
    obtain ⟨e, hrefused⟩ : ∃ e, (Statement.graph order arcs name?).program.run.run sv
        = .ok (.error e, sv) := by
      simp only [Statement.program, newGraph]
      split
      next => exact ⟨_, rfl⟩
      next hfind =>
        exact absurd (fun arc hmem => by simpa using List.find?_eq_none.mp hfind arc hmem) hall
    exact declares_of_refused hwf hst hrefused (by simp only [Statement.declare, hd])

end

/-- What a statement about a variable does. -/
theorem Poised.declares (h : sv.Poised k domains) {st : Statement} (hpost : ∀ c, st ≠ .post c)
    (himpose : ∀ p, st ≠ .impose p) : sv.Declares domains st := by
  have hwf := h.wf
  have hst := h.narrower
  have hroot := h.resting.root
  cases st with
  | bounded lower upper fits name? => exact declares_bounded hwf hst hroot lower upper fits name?
  | enumerated values fits name? => exact declares_enumerated hwf hst hroot values fits name?
  | set elements name? => exact declares_set hwf hst hroot elements name?
  | graph order arcs name? => exact declares_graph hwf hst hroot order arcs name?
  | post c => exact absurd rfl (hpost c)
  | impose p => exact absurd rfl (himpose p)

/-- After a statement that fits, the solver stands for the model with the statement. -/
theorem Models.stated (h : sv.Models m) {st : Statement} (hfits : st.Fits m.domains) :
    ∃ r sv', Modelling.runOn st.program sv = .ok (r, sv') ∧ sv'.Models (st.extend m) := by
  by_cases hpost : ∃ c, st = .post c
  · obtain ⟨c, rfl⟩ := hpost
    exact h.post hfits
  · have hpost' : ∀ c, st ≠ .post c := fun c hc => hpost ⟨c, hc⟩
    have himpose : ∀ p, st ≠ .impose p := by
      rintro p rfl
      exact hfits
    obtain ⟨r, sv', t, hrun, hinfeasible, hspace, hg⟩ := h.represents.declares hpost' himpose
    exact ⟨r, sv', hrun, h.declare hpost' hrun hinfeasible hspace hg⟩

/-- After a list of statements that fit, the solver stands for the model that they describe. -/
theorem Models.state {statements : List Statement} (h : sv.Models m)
    (hfits : m.Fits statements) :
    ∃ sv', sv.state statements = .ok sv' ∧ sv'.Models (m.state statements) := by
  induction statements generalizing sv m with
  | nil => exact ⟨sv, rfl, h⟩
  | cons st rest ih =>
    obtain ⟨r, mid, hrun, hmid⟩ := h.stated hfits.1
    obtain ⟨sv', hstate, hmodels⟩ := ih hmid hfits.2
    refine ⟨sv', ?_, hmodels⟩
    unfold Solver.state
    rw [hrun]
    exact hstate

end Solver

end FiniteDomain
