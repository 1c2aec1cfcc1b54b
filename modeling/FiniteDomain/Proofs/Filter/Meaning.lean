import FiniteDomain.Filter
import FiniteDomain.Proofs.Variable.Events
import Mathlib.Algebra.Order.BigOperators.Group.List
import Mathlib.Data.List.Nodup

/-! # What the filters stand for

    `Filter.Sat f a` says that the valuation `a` satisfies the constraint of the
    filter, `Filter.Ready f s` that the filter can be run on the store: its
    variables exist, its views stay clear of the ends of the range of values, and
    its sums cannot overflow.

    A *clash* is a reason, visible in the domains, why no valuation that is left
    satisfies the constraint.  `Clash s f A` names one together with the positions
    of the scope at which a run of the filter finds it.  Once everything in the
    scope is fixed, a constraint without a clash is satisfied (`sat_of_fixed`); a
    step that makes a clash raises an event that wakes one of its positions
    (`Clash.of_step`).  These two are what makes it enough to run filters when
    they are woken. -/

namespace FiniteDomain.Filter

/-! ### Satisfaction -/

/-- The integer variables and views of the filter. -/
def views : Filter → List IntVar
  | .distinctByValue vars | .distinctByBounds vars => vars
  | .sumAtMost terms _ => terms
  | .atMost a b | .distinct a b => [a, b]
  | .member x _ => [x]
  | .subset _ _ | .disjoint _ _ | .oneNeighbour _ _ _ | .pathNoCycle _ _ _ => []

/-- The arc between a node and a neighbour belongs to the graph. -/
def Joined (d : Direction) (c : Subgraph) (n m : Nat) : Prop := d.arc n m ∈ c.arcs

/-- The exceptional node has no neighbour, every other node has exactly one. -/
def OneNeighbourBut (d : Direction) (but : Nat) (c : Subgraph) : Prop :=
  ∀ n ∈ c.nodes, (n = but → ∀ m, ¬ Joined d c n m) ∧ (n ≠ but → ∃! m, Joined d c n m)

/-- No arc enters the source or leaves the sink, and no arcs form a cycle. -/
structure PathsOnly (source sink : Nat) (c : Subgraph) : Prop where
  source : ∀ n, (n, source) ∉ c.arcs
  sink : ∀ n, (sink, n) ∉ c.arcs
  acyclic : ∀ n, ¬ Relation.TransGen (fun m k => (m, k) ∈ c.arcs) n n

/-- The valuation satisfies the constraint of the filter. -/
def Sat : Filter → Valuation → Prop
  | .distinctByValue vars, a | .distinctByBounds vars, a =>
    (vars.map (·.exactValue a.int)).Nodup
  | .sumAtMost terms limit, a => (terms.map (·.exactValue a.int)).sum ≤ limit
  | .atMost x y, a => x.exactValue a.int ≤ y.exactValue a.int
  | .distinct x y, a => x.exactValue a.int ≠ y.exactValue a.int
  | .subset y z, a => a.set y ⊆ a.set z
  | .disjoint y z, a => ∀ e ∈ a.set y, e ∉ a.set z
  | .member x y, a => x.exactValue a.int ∈ a.set y
  | .oneNeighbour d g but, a => OneNeighbourBut d but (a.graph g)
  | .pathNoCycle g source sink, a => PathsOnly source sink (a.graph g)

/-! ### Readiness -/

/-- The filter can be run on the store. -/
structure Ready (f : Filter) (s : Store) : Prop where
  /-- The variables exist. -/
  known : ∀ v ∈ f.scope, s.knows v = true
  /-- The views take values inside the range only. -/
  ranges : ∀ x ∈ f.views, x.Ranges Width.interior s
  /-- A sum has no more terms than a scope has positions, and its limit is that of a
      constraint. -/
  sums : ∀ terms limit, f = .sumAtMost terms limit →
    terms.length ≤ 4294967296 ∧ -2147483648 ≤ limit ∧ limit ≤ 2147483648
  /-- The ends of paths are nodes. -/
  ends : ∀ g source sink, f = .pathNoCycle g source sink →
    source < (s.graph g).order ∧ sink < (s.graph g).order

variable {s t : Store} {f : Filter}

theorem Ready.narrower (h : f.Ready s) (hst : s.Narrower t) : f.Ready t where
  known := fun v hv => (hst.knows v).trans (h.known v hv)
  ranges := fun x hx => (h.ranges x hx).narrower hst
  sums := h.sums
  ends := fun g source sink hf => by
    rw [hst.order]
    exact h.ends g source sink hf

theorem Ready.steps (h : f.Ready s) (hst : s.Steps t) (hs : s.Wf) : f.Ready t :=
  h.narrower (hst.narrower hs)

theorem Ready.sameDomains (h : f.Ready s) (hst : s.SameDomains t) : f.Ready t := by
  cases s
  cases t
  obtain ⟨rfl, rfl, rfl⟩ := hst
  exact ⟨h.known, h.ranges, h.sums, h.ends⟩

theorem Ready.values (h : f.Ready s) {x : IntVar} (hx : x ∈ f.views) :
    x.Ranges Width.value s :=
  (h.ranges x hx).mono fun _ => Width.fits_of_interior

/-- Every view of the filter is at some position of its scope. -/
theorem base_mem_scope {x : IntVar} (hx : x ∈ f.views) : VariableId.int x.base ∈ f.scope := by
  -- the scope is read off the watches, which have one entry for each position
  have hall : ∀ {vars : List IntVar} {events : EventSet}, x ∈ vars →
      VariableId.int x.base ∈ (watchAll vars events).map (·.target) := by
    intro vars events hmem
    obtain ⟨i, hi⟩ := List.mem_iff_getElem?.mp hmem
    refine List.mem_map.mpr ⟨x.watch events ⟨i⟩, ?_, rfl⟩
    exact List.mem_map.mpr ⟨(x, i), List.mem_zipIdx_iff_getElem?.mpr hi, rfl⟩
  cases f with
  | distinctByValue vars => exact hall hx
  | distinctByBounds vars => exact hall hx
  | sumAtMost terms limit => exact hall hx
  | atMost a b =>
    rcases List.mem_pair.mp hx with rfl | rfl
    · exact List.mem_cons_self
    · exact List.mem_cons_of_mem _ List.mem_cons_self
  | distinct a b =>
    rcases List.mem_pair.mp hx with rfl | rfl
    · exact List.mem_cons_self
    · exact List.mem_cons_of_mem _ List.mem_cons_self
  | member y z =>
    rw [List.mem_singleton.mp hx]
    exact List.mem_cons_self
  | subset a b => cases hx
  | disjoint a b => cases hx
  | oneNeighbour d g but => cases hx
  | pathNoCycle g source sink => cases hx

/-! ### Clashes -/

/-- The variables at two positions are fixed to the same value. -/
def SameAt (s : Store) (vars : List IntVar) (i j : Nat) : Prop :=
  i ≠ j ∧ ∃ x y, vars[i]? = some x ∧ vars[j]? = some y ∧ x.isFixed s = true ∧ y.isFixed s = true
    ∧ x.lowerBound s = y.lowerBound s

/-- A reason why no valuation of the store satisfies the constraint, and the positions at which a
    run finds it. -/
inductive Clash (s : Store) : Filter → Set LocalId → Prop where
  /-- Two positions have the same value; either finds it. -/
  | byValue {vars : List IntVar} {i j : Nat} (same : SameAt s vars i j) :
      Clash s (.distinctByValue vars) {l | l.index = i ∨ l.index = j}
  /-- Two positions have the same value. -/
  | byBounds {vars : List IntVar} {i j : Nat} (same : SameAt s vars i j) :
      Clash s (.distinctByBounds vars) Set.univ
  /-- Even the least values are too much. -/
  | sumAtMost {terms : List IntVar} {limit : Int}
      (excess : limit < (terms.map (·.lowerBound s)).sum) :
      Clash s (.sumAtMost terms limit) Set.univ
  /-- The first variable is above the second. -/
  | atMost {a b : IntVar} (excess : b.upperBound s < a.lowerBound s) :
      Clash s (.atMost a b) Set.univ
  /-- The two variables have the same value. -/
  | distinct {a b : IntVar} (first : a.isFixed s = true) (second : b.isFixed s = true)
      (same : a.lowerBound s = b.lowerBound s) : Clash s (.distinct a b) Set.univ
  /-- A certain element of the first set is impossible in the second. -/
  | subset {a b : SetId} (e : Int) (certain : (s.set a).inKernel e = true)
      (impossible : ¬ (s.set b).inEnvelope e = true) : Clash s (.subset a b) Set.univ
  /-- An element is certain in both sets. -/
  | disjoint {a b : SetId} (e : Int) (first : (s.set a).inKernel e = true)
      (second : (s.set b).inKernel e = true) : Clash s (.disjoint a b) Set.univ
  /-- The value of the variable is impossible in the set. -/
  | member {x : IntVar} {y : SetId} (fixed : x.isFixed s = true)
      (impossible : ¬ (s.set y).inEnvelope (x.lowerBound s) = true) :
      Clash s (.member x y) Set.univ
  /-- The only graph that is left is none of those. -/
  | oneNeighbour {d : Direction} {g : GraphId} {but : Nat}
      (fixed : (s.graph g).isFixed = true)
      (fails : ∀ c, (s.graph g).Admits c → ¬ OneNeighbourBut d but c) :
      Clash s (.oneNeighbour d g but) Set.univ

/-- A clash is found somewhere. -/
theorem Clash.nonempty {A : Set LocalId} (h : Clash s f A) : A.Nonempty := by
  cases h with
  | @byValue vars i j same => exact ⟨⟨i⟩, Or.inl rfl⟩
  | _ => exact Set.univ_nonempty

theorem SameAt.sameDomains {vars : List IntVar} {i j : Nat} (h : SameAt s vars i j)
    (hst : s.SameDomains t) : SameAt t vars i j := by
  obtain ⟨hne, x, y, hi, hj, hfirst, hsecond, heq⟩ := h
  refine ⟨hne, x, y, hi, hj, ?_, ?_, ?_⟩
  · rwa [IntVar.isFixed_sameDomains hst]
  · rwa [IntVar.isFixed_sameDomains hst]
  · rwa [(IntVar.bounds_sameDomains hst x).1, (IntVar.bounds_sameDomains hst y).1]

theorem Clash.sameDomains {A : Set LocalId} (h : Clash s f A) (hst : s.SameDomains t) :
    Clash t f A := by
  have hlower := fun x => (IntVar.bounds_sameDomains hst x).1
  have hupper := fun x => (IntVar.bounds_sameDomains hst x).2
  have hfixed := IntVar.isFixed_sameDomains hst
  cases h with
  | byValue same => exact .byValue (same.sameDomains hst)
  | byBounds same => exact .byBounds (same.sameDomains hst)
  | sumAtMost excess =>
    simp only [← hlower] at excess
    exact .sumAtMost excess
  | atMost excess =>
    rw [← hlower, ← hupper] at excess
    exact .atMost excess
  | distinct first second same =>
    rw [← hlower, ← hlower] at same
    exact .distinct ((hfixed _).trans first) ((hfixed _).trans second) same
  | subset e certain impossible =>
    rw [← hst.set] at certain impossible
    exact .subset e certain impossible
  | disjoint e first second =>
    rw [← hst.set] at first second
    exact .disjoint e first second
  | member fixed impossible =>
    rw [← hlower, ← hst.set] at impossible
    exact .member ((hfixed _).trans fixed) impossible
  | oneNeighbour fixed fails =>
    rw [← hst.graph] at fixed fails
    exact .oneNeighbour fixed fails

/-- The constraint of the filter is checked as soon as everything in its scope is fixed. -/
def Decisive : Filter → Prop
  | .pathNoCycle _ _ _ => False
  | _ => True

theorem decisive_or (f : Filter) : f.Decisive ∨ ∃ g source sink, f = .pathNoCycle g source sink := by
  cases f with
  | pathNoCycle g source sink => exact Or.inr ⟨g, source, sink, rfl⟩
  | _ => exact Or.inl trivial

/-- A view whose base has one value left is fixed, and every valuation gives it its value. -/
theorem fixed_of_settles (hs : s.Wf) (hr : f.Ready s) (hall : ∀ v ∈ f.scope, s.Settles v)
    {x : IntVar} (hx : x ∈ f.views) : x.isFixed s = true
      ∧ ∀ a, s.Admits a → x.exactValue a.int = x.lowerBound s := by
  have hrange := hr.values hx
  have hfixed : x.isFixed s = true := by
    rw [IntVar.isFixed_eq hs hrange]
    exact hall _ (base_mem_scope hx)
  exact ⟨hfixed, fun a ha =>
    IntVar.eq_lowerBound_of_isFixed hs hrange hfixed (IntVar.takes_exactValue ha x)⟩

theorem nodup_exactValues {vars : List IntVar} {a : Valuation}
    (hvalue : ∀ x ∈ vars, x.isFixed s = true ∧ x.exactValue a.int = x.lowerBound s)
    (hsame : ∀ i j, ¬ SameAt s vars i j) : (vars.map (·.exactValue a.int)).Nodup := by
  rw [List.nodup_iff_getElem?_ne_getElem?]
  intro i j hij hj heq
  rw [List.length_map] at hj
  rw [List.getElem?_map, List.getElem?_map, List.getElem?_eq_getElem (hij.trans hj),
    List.getElem?_eq_getElem hj] at heq
  obtain ⟨hfirst, hvalue₁⟩ := hvalue _ (List.getElem_mem (hij.trans hj))
  obtain ⟨hsecond, hvalue₂⟩ := hvalue _ (List.getElem_mem hj)
  refine hsame i j ⟨Nat.ne_of_lt hij, _, _, List.getElem?_eq_getElem (hij.trans hj),
    List.getElem?_eq_getElem hj, hfirst, hsecond, ?_⟩
  rw [← hvalue₁, ← hvalue₂]
  exact Option.some.inj heq

/-- Once everything in the scope is fixed, a constraint without a clash is satisfied. -/
theorem sat_of_settles (hf : f.Decisive) (hs : s.Wf) (hr : f.Ready s)
    (hall : ∀ v ∈ f.scope, s.Settles v) (hclash : ∀ A, ¬ Clash s f A) {a : Valuation}
    (ha : s.Admits a) : f.Sat a := by
  -- a fixed view has its lower bound as value, so that the readings of the store are exact
  have hvalue : ∀ x ∈ f.views, x.isFixed s = true ∧ x.exactValue a.int = x.lowerBound s := by
    intro x hx
    obtain ⟨hfixed, heq⟩ := fixed_of_settles hs hr hall hx
    exact ⟨hfixed, heq a ha⟩
  cases f with
  | distinctByValue vars =>
    exact nodup_exactValues hvalue fun i j h => hclash _ (.byValue h)
  | distinctByBounds vars =>
    exact nodup_exactValues hvalue fun i j h => hclash _ (.byBounds h)
  | sumAtMost terms limit =>
    have hsum : terms.map (·.exactValue a.int) = terms.map (·.lowerBound s) :=
      List.map_congr_left fun x hx => (hvalue x hx).2
    by_contra hover
    refine hclash _ (.sumAtMost ?_)
    rw [← hsum]
    exact Int.not_le.mp hover
  | atMost x y =>
    have hx := hvalue x List.mem_cons_self
    have hy := hvalue y (List.mem_cons_of_mem _ List.mem_cons_self)
    by_contra hover
    refine hclash _ (.atMost ?_)
    have hupper : y.lowerBound s = y.upperBound s := beq_iff_eq.mp hy.1
    rw [← hupper, ← hx.2, ← hy.2]
    exact Int.not_le.mp hover
  | distinct x y =>
    have hx := hvalue x List.mem_cons_self
    have hy := hvalue y (List.mem_cons_of_mem _ List.mem_cons_self)
    intro heq
    exact hclash _ (.distinct hx.1 hy.1 (by rw [← hx.2, ← hy.2]; exact heq))
  | subset y z =>
    intro e he
    have hfixed : (s.set y).isFixed = true := hall (.set y) List.mem_cons_self
    have hfixed' : (s.set z).isFixed = true :=
      hall (.set z) (List.mem_cons_of_mem _ List.mem_cons_self)
    have hcertain := (SetDomain.isFixed_iff (hs.set y)).mp hfixed e ((ha.set y e).2 he)
    by_contra hout
    refine hclash _ (.subset e hcertain fun hin => hout ?_)
    exact (ha.set z e).1 ((SetDomain.isFixed_iff (hs.set z)).mp hfixed' e hin)
  | disjoint y z =>
    intro e he he'
    have hfixed : (s.set y).isFixed = true := hall (.set y) List.mem_cons_self
    have hfixed' : (s.set z).isFixed = true :=
      hall (.set z) (List.mem_cons_of_mem _ List.mem_cons_self)
    exact hclash _ (.disjoint e
      ((SetDomain.isFixed_iff (hs.set y)).mp hfixed e ((ha.set y e).2 he))
      ((SetDomain.isFixed_iff (hs.set z)).mp hfixed' e ((ha.set z e).2 he')))
  | member x y =>
    obtain ⟨hfixed, heq⟩ := hvalue x List.mem_cons_self
    have hfixed' : (s.set y).isFixed = true :=
      hall (.set y) (List.mem_cons_of_mem _ List.mem_cons_self)
    by_contra hout
    refine hclash _ (.member hfixed fun hin => hout ?_)
    have hcertain := (SetDomain.isFixed_iff (hs.set y)).mp hfixed' _ hin
    rw [← heq] at hcertain
    exact (ha.set y _).1 hcertain
  | oneNeighbour d g but =>
    have hfixed : (s.graph g).isFixed = true := hall (.graph g) List.mem_cons_self
    by_contra hout
    refine hclash _ (.oneNeighbour hfixed fun c hc hok => hout ?_)
    -- a fixed graph admits one graph only
    have hone := GraphDomain.admits_unique (hs.graph g) hfixed hc
    have hsame := GraphDomain.admits_unique (hs.graph g) hfixed (ha.graph g)
    show OneNeighbourBut d but (a.graph g)
    rw [hsame, ← hone]
    exact hok
  | pathNoCycle g source sink => exact hf.elim

/-! ### Judgements -/

/-- A judgement is right about the valuations of the store, and it is made once all is settled. -/
structure Judges (sat : Valuation → Prop) (s : Store) (settled : Prop) (e : Entailment) :
    Prop where
  holds : e = .holds → ∀ a, s.Admits a → sat a
  fails : e = .fails → ∀ a, s.Admits a → ¬ sat a
  decided : settled → e ≠ .undecided

theorem Judges.mono {sat : Valuation → Prop} {settled settled' : Prop} {e : Entailment}
    (h : Judges sat s settled e) (himp : settled' → settled) : Judges sat s settled' e :=
  ⟨h.holds, h.fails, fun hsettled => h.decided (himp hsettled)⟩

/-- A judgement by two tests. -/
theorem Judges.ite {sat : Valuation → Prop} {settled p q : Prop} [Decidable p] [Decidable q]
    (hholds : p → ∀ a, s.Admits a → sat a) (hfails : q → ∀ a, s.Admits a → ¬ sat a)
    (hdecided : settled → ¬ p → q) :
    Judges sat s settled (if p then .holds else if q then .fails else .undecided) := by
  by_cases hp : p
  · rw [if_pos hp]
    exact ⟨fun _ => hholds hp, nofun, nofun⟩
  · rw [if_neg hp]
    by_cases hq : q
    · rw [if_pos hq]
      exact ⟨nofun, fun _ => hfails hq, nofun⟩
    · rw [if_neg hq]
      exact ⟨nofun, nofun, fun hsettled => absurd (hdecided hsettled hp) hq⟩

/-! ### Clashes wake their filters -/

/-- An event waits that a watch at one of the positions is woken by. -/
def Woken (f : Filter) (t : Store) (A : Set LocalId) : Prop :=
  ∃ w ∈ f.watches, w.position ∈ A ∧ ∃ e, (e, w.target) ∈ t.events.toList
    ∧ w.events.meets e.wakes = true

theorem Woken.steps {A : Set LocalId} (h : f.Woken s A) (hst : s.Steps t) : f.Woken t A := by
  obtain ⟨w, hw, hposition, e, he, hmeets⟩ := h
  exact ⟨w, hw, hposition, e, hst.mem_events he, hmeets⟩

theorem woken_of_raised {x : IntVar} {events : EventSet} {i : LocalId} {A : Set LocalId}
    (hw : x.watch events i ∈ f.watches) (hi : i ∈ A) (h : x.Raised events t) : f.Woken t A := by
  obtain ⟨e, he, hmeets⟩ := h
  exact ⟨_, hw, hi, e, he, hmeets⟩

theorem watch_mem_watchAll {vars : List IntVar} {x : IntVar} {i : Nat} (events : EventSet)
    (h : vars[i]? = some x) : x.watch events ⟨i⟩ ∈ watchAll vars events :=
  List.mem_map.mpr ⟨(x, i), List.mem_zipIdx_iff_getElem?.mpr h, rfl⟩

section

variable {x : IntVar} {y : SetId} {events : EventSet} {i : LocalId} {A : Set LocalId}

/-- A step that fixes a view raises an event at every watch for assignments. -/
theorem fixed_or_woken (h : s.Step t) (hs : s.Wf) (hx : x.Ranges Width.value s)
    (hw : x.watch events i ∈ f.watches) (hi : i ∈ A)
    (hevents : events.meets Event.assign.wakes = true) (hfixed : x.isFixed t = true) :
    x.isFixed s = true ∨ f.Woken t A :=
  (IntVar.fixed_raises h hs hx hevents hfixed).imp_right (woken_of_raised hw hi)

theorem lowerBound_or_woken (h : s.Step t) (hs : s.Wf) (hx : x.Ranges Width.value s)
    (hw : x.watch events i ∈ f.watches) (hi : i ∈ A)
    (hevents : events.contains .lowerBound = true) :
    x.lowerBound t = x.lowerBound s ∨ f.Woken t A := by
  by_cases heq : x.lowerBound t = x.lowerBound s
  · exact Or.inl heq
  · exact Or.inr (woken_of_raised hw hi ((IntVar.lowerBound_raises h hs hx heq).watched hevents))

theorem upperBound_or_woken (h : s.Step t) (hs : s.Wf) (hx : x.Ranges Width.value s)
    (hw : x.watch events i ∈ f.watches) (hi : i ∈ A)
    (hevents : events.contains .upperBound = true) :
    x.upperBound t = x.upperBound s ∨ f.Woken t A := by
  by_cases heq : x.upperBound t = x.upperBound s
  · exact Or.inl heq
  · exact Or.inr (woken_of_raised hw hi ((IntVar.upperBound_raises h hs hx heq).watched hevents))

/-- A step that makes an element certain wakes who watches the kernel. -/
theorem kernel_or_woken (h : s.Step t) (hw : ⟨.set y, .ofList [.kernelAddition], i⟩ ∈ f.watches)
    (hi : i ∈ A) {e : Int} (he : (t.set y).inKernel e = true) :
    (s.set y).inKernel e = true ∨ f.Woken t A := by
  by_cases hbefore : (s.set y).inKernel e = true
  · exact Or.inl hbefore
  rcases h.reportsSet y with heq | ⟨ev, hev, hreports⟩
  · exact absurd (heq ▸ he) hbefore
  · refine Or.inr ⟨_, hw, hi, ev, hev, ?_⟩
    rw [hreports.kernel e hbefore he]
    rfl

/-- A step that makes an element impossible wakes who watches the envelope. -/
theorem envelope_or_woken (h : s.Step t) (hw : ⟨.set y, .ofList [.envelopeRemoval], i⟩ ∈ f.watches)
    (hi : i ∈ A) {e : Int} (he : ¬ (t.set y).inEnvelope e = true) :
    ¬ (s.set y).inEnvelope e = true ∨ f.Woken t A := by
  by_cases hbefore : (s.set y).inEnvelope e = true
  swap
  · exact Or.inl hbefore
  rcases h.reportsSet y with heq | ⟨ev, hev, hreports⟩
  · exact absurd hbefore (heq ▸ he)
  · refine Or.inr ⟨_, hw, hi, ev, hev, ?_⟩
    rw [hreports.envelope e hbefore he]
    rfl

/-- A step that changes a graph wakes who watches all of it. -/
theorem graph_or_woken {g : GraphId} (h : s.Step t) (hw : ⟨.graph g, .anyStructure, i⟩ ∈ f.watches)
    (hi : i ∈ A) : ((t.graph g).envelope = (s.graph g).envelope
      ∧ (t.graph g).kernel = (s.graph g).kernel) ∨ f.Woken t A := by
  rcases h.reportsGraph g with heq | ⟨ev, hev, hreports⟩
  · exact Or.inl ⟨congrArg GraphDomain.envelope heq, congrArg GraphDomain.kernel heq⟩
  by_cases henvelope : (t.graph g).envelope = (s.graph g).envelope
  swap
  · refine Or.inr ⟨_, hw, hi, ev, hev, ?_⟩
    rw [hreports.envelope henvelope]
    rfl
  by_cases hkernel : (t.graph g).kernel = (s.graph g).kernel
  · exact Or.inl ⟨henvelope, hkernel⟩
  · refine Or.inr ⟨_, hw, hi, ev, hev, ?_⟩
    rw [hreports.kernel hkernel]
    rfl

end

/-- Two variables that a step makes equal are noticed at one of the two. -/
theorem SameAt.of_step {vars : List IntVar} (events : EventSet) {i j : Nat} (h : s.Step t)
    (hs : s.Wf) (hx : ∀ x ∈ vars, x.Ranges Width.value s)
    (hevents : events.meets Event.assign.wakes = true) (hsame : SameAt t vars i j) :
    SameAt s vars i j ∨ ∃ x k, (k = i ∨ k = j) ∧ vars[k]? = some x ∧ x.Raised events t := by
  obtain ⟨hne, x, y, hi, hj, hfirst, hsecond, heq⟩ := hsame
  have hxr := hx x (List.mem_of_getElem? hi)
  have hyr := hx y (List.mem_of_getElem? hj)
  rcases IntVar.fixed_raises h hs hxr hevents hfirst with hx' | hraised
  swap
  · exact Or.inr ⟨x, i, Or.inl rfl, hi, hraised⟩
  rcases IntVar.fixed_raises h hs hyr hevents hsecond with hy' | hraised
  swap
  · exact Or.inr ⟨y, j, Or.inr rfl, hj, hraised⟩
  left
  refine ⟨hne, x, y, hi, hj, hx', hy', ?_⟩
  have hsteps := Store.Steps.single h
  rw [← (IntVar.fixed_steps hsteps hs hx').2, ← (IntVar.fixed_steps hsteps hs hy').2]
  exact heq

/-- A step that makes a clash raises an event that wakes the filter where the clash is found. -/
theorem Clash.of_step {A : Set LocalId} (hc : Clash t f A) (h : s.Step t) (hs : s.Wf)
    (hr : f.Ready s) : Clash s f A ∨ f.Woken t A := by
  have hsteps := Store.Steps.single h
  have hassign : (EventSet.ofList [.assign]).meets Event.assign.wakes = true := rfl
  by_cases hwoken : f.Woken t A
  · exact Or.inr hwoken
  -- nothing that is watched has changed
  left
  cases hc with
  | byValue same =>
    rcases same.of_step _ h hs (fun x hx => hr.values hx) hassign with
      hsame | ⟨x, k, hk, hx, hraised⟩
    · exact .byValue hsame
    · exact absurd (woken_of_raised (watch_mem_watchAll _ hx) hk hraised) hwoken
  | byBounds same =>
    rcases same.of_step .bounds h hs (fun x hx => hr.values hx) rfl with
      hsame | ⟨x, k, hk, hx, hraised⟩
    · exact .byBounds hsame
    · exact absurd (woken_of_raised (watch_mem_watchAll _ hx) (Set.mem_univ k) hraised) hwoken
  | @sumAtMost terms limit excess =>
    have hsame : terms.map (·.lowerBound t) = terms.map (·.lowerBound s) := by
      refine List.map_congr_left fun x hx => ?_
      obtain ⟨i, hi⟩ := List.mem_iff_getElem?.mp hx
      exact (lowerBound_or_woken h hs (hr.values hx) (watch_mem_watchAll _ hi) (Set.mem_univ _)
        rfl).resolve_right hwoken
    exact .sumAtMost (hsame ▸ excess)
  | @atMost a b excess =>
    have ha := hr.values (x := a) List.mem_cons_self
    have hb := hr.values (x := b) (List.mem_cons_of_mem _ List.mem_cons_self)
    have hlower : a.lowerBound t = a.lowerBound s := Or.resolve_right
      (lowerBound_or_woken h hs ha List.mem_cons_self (Set.mem_univ _) rfl) hwoken
    have hupper : b.upperBound t = b.upperBound s := Or.resolve_right
      (upperBound_or_woken h hs hb (List.mem_cons_of_mem _ List.mem_cons_self) (Set.mem_univ _) rfl)
      hwoken
    rw [hlower, hupper] at excess
    exact .atMost excess
  | @distinct a b first second same =>
    have ha := hr.values (x := a) List.mem_cons_self
    have hb := hr.values (x := b) (List.mem_cons_of_mem _ List.mem_cons_self)
    have ha' : a.isFixed s = true := Or.resolve_right
      (fixed_or_woken h hs ha List.mem_cons_self (Set.mem_univ _) hassign first) hwoken
    have hb' : b.isFixed s = true := Or.resolve_right
      (fixed_or_woken h hs hb (List.mem_cons_of_mem _ List.mem_cons_self) (Set.mem_univ _) hassign
        second) hwoken
    rw [(IntVar.fixed_steps hsteps hs ha').2, (IntVar.fixed_steps hsteps hs hb').2] at same
    exact .distinct ha' hb' same
  | @subset a b e certain impossible =>
    have hcertain : (s.set a).inKernel e = true := Or.resolve_right
      (kernel_or_woken h List.mem_cons_self (Set.mem_univ _) certain) hwoken
    have himpossible : ¬ (s.set b).inEnvelope e = true := Or.resolve_right
      (envelope_or_woken h (List.mem_cons_of_mem _ List.mem_cons_self) (Set.mem_univ _) impossible)
      hwoken
    exact .subset e hcertain himpossible
  | @disjoint a b e first second =>
    have hfirst : (s.set a).inKernel e = true := Or.resolve_right
      (kernel_or_woken h List.mem_cons_self (Set.mem_univ _) first) hwoken
    have hsecond : (s.set b).inKernel e = true := Or.resolve_right
      (kernel_or_woken h (List.mem_cons_of_mem _ List.mem_cons_self) (Set.mem_univ _) second) hwoken
    exact .disjoint e hfirst hsecond
  | @member x y fixed impossible =>
    have hx := hr.values (x := x) List.mem_cons_self
    have hx' : x.isFixed s = true := Or.resolve_right
      (fixed_or_woken h hs hx List.mem_cons_self (Set.mem_univ _) hassign fixed) hwoken
    rw [(IntVar.fixed_steps hsteps hs hx').2] at impossible
    have himpossible : ¬ (s.set y).inEnvelope (x.lowerBound s) = true := Or.resolve_right
      (envelope_or_woken h (List.mem_cons_of_mem _ List.mem_cons_self) (Set.mem_univ _) impossible)
      hwoken
    exact .member hx' himpossible
  | @oneNeighbour d g but fixed fails =>
    obtain ⟨henvelope, hkernel⟩ : (t.graph g).envelope = (s.graph g).envelope
        ∧ (t.graph g).kernel = (s.graph g).kernel :=
      Or.resolve_right (graph_or_woken h List.mem_cons_self (Set.mem_univ _)) hwoken
    have hsame : t.graph g = s.graph g := by
      have horder := h.order g
      cases ht : t.graph g
      cases hs' : s.graph g
      simp_all only
    rw [hsame] at fixed fails
    exact .oneNeighbour fixed fails

/-- Along a run a clash that was not there at the beginning wakes the filter. -/
theorem Clash.of_steps {A : Set LocalId} (hc : Clash t f A) (h : s.Steps t) (hs : s.Wf)
    (hr : f.Ready s) : Clash s f A ∨ f.Woken t A := by
  induction h with
  | refl => exact Or.inl hc
  | tail before step ih =>
    rcases hc.of_step step (Store.Steps.wf before hs) (hr.steps before hs) with hmid | hwoken
    · exact (ih hmid).imp_right fun h => h.steps (.single step)
    · exact Or.inr hwoken

end FiniteDomain.Filter
