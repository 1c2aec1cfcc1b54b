import FiniteDomain.Proofs.Filter.AllDifferent.Hall
import FiniteDomain.Proofs.Filter.Walk
import FiniteDomain.Proofs.Propagation.Sound
import FiniteDomain.Proofs.Store.Loss

/-! # What a filter demands

    `Filter.Grants f l s a` says that the valuation `a` has all that a run of the
    filter demands when it is woken at position `l` and finds the store `s`.  The
    demands are read off the bounds, kernels and envelopes of `s`: a larger store
    demands less (`Grants.of_narrower`), and a valuation that satisfies the
    constraint grants what every store demands that admits it (`Grants.of_sat`).

    A filter is at rest on a store if all valuations of the store grant what it
    demands (`Filter.Rests`).  What it demands depends on the changes only that it
    watches for: if nothing of that kind has happened (`Calm`), a filter at rest
    stays at rest (`Rests.of_calm`), and what has happened without waking the
    filter was nothing of that kind (`calm_of_steps`). -/

namespace FiniteDomain

/-- What can be taken away exactly still can be when less is left. -/
theorem IntVar.Removable.steps {x : IntVar} {s t : Store} {k : Int} (h : x.Removable s k)
    (hst : s.Steps t) (hs : s.Wf) : x.Removable t k := by
  rcases h with henum | hends
  · exact Or.inl (hst.isEnumerated henum)
  right
  intro v hv heq
  have hnarrower := hst.narrower hs
  obtain ⟨hlow, hhigh, -⟩ := IntegerDomain.contains_iff.mp hv
  obtain ⟨hlower, -, -⟩ := IntegerDomain.contains_iff.mp
    (hnarrower.contains ((hst.wf hs).int x.base).lower_mem)
  obtain ⟨-, hupper, -⟩ := IntegerDomain.contains_iff.mp
    (hnarrower.contains ((hst.wf hs).int x.base).upper_mem)
  have hbound := hends v (hnarrower.contains hv) heq
  omega

namespace AllDifferent

variable {vars : List IntVar} {s : Store}

/-- The values at the positions of the list differ pairwise. -/
abbrev Differ (vars : List IntVar) (v : Valuation) : Prop :=
  (vars.map (·.exactValue v.int)).Nodup

theorem Differ.ne {v : Valuation} (h : Differ vars v) {i j : Nat} {x y : IntVar} (hij : i ≠ j)
    (hi : vars[i]? = some x) (hj : vars[j]? = some y) :
    x.exactValue v.int ≠ y.exactValue v.int := by
  intro heq
  have hi' : (vars.map (·.exactValue v.int))[i]? = some (x.exactValue v.int) := by
    rw [List.getElem?_map, hi]
    rfl
  have hj' : (vars.map (·.exactValue v.int))[j]? = some (x.exactValue v.int) := by
    rw [List.getElem?_map, hj, heq]
    rfl
  obtain ⟨hlt, -⟩ := List.getElem?_eq_some_iff.mp hi'
  exact hij ((List.getElem?_inj hlt h).mp (hi'.trans hj'.symm))

/-- Once the variable at the position is fixed, it has its value to itself. -/
def Apart (s : Store) (vars : List IntVar) (i : Nat) (a : Valuation) : Prop :=
  ∀ j x y, j ≠ i → vars[i]? = some x → vars[j]? = some y → x.isFixed s = true →
    y.Removable s (x.lowerBound s) → y.exactValue a.int ≠ x.lowerBound s

/-- What a fixed variable keeps to itself in one store it keeps to itself in another one, where it
    is fixed to the same value and nothing more can be taken away from the other variable. -/
theorem apart_imp {x y : IntVar} {t : Store} {a b : Valuation}
    (hfix : x.isFixed t = true → x.isFixed s = true ∧ x.lowerBound s = x.lowerBound t)
    (hremovable : ∀ k, y.Removable t k → y.Removable s k)
    (hvalue : y.exactValue b.int = y.exactValue a.int)
    (h : x.isFixed s = true → y.Removable s (x.lowerBound s) →
      y.exactValue a.int ≠ x.lowerBound s) :
    x.isFixed t = true → y.Removable t (x.lowerBound t) →
      y.exactValue b.int ≠ x.lowerBound t := by
  intro hfixed hk
  obtain ⟨hfixed', heq⟩ := hfix hfixed
  rw [← heq] at hk ⊢
  rw [hvalue]
  exact h hfixed' (hremovable _ hk)

theorem Apart.imp {t : Store} {i : Nat} {a b : Valuation} (h : Apart s vars i a)
    (hfix : ∀ x, vars[i]? = some x → x.isFixed t = true →
      x.isFixed s = true ∧ x.lowerBound s = x.lowerBound t)
    (hremovable : ∀ y ∈ vars, ∀ k, y.Removable t k → y.Removable s k)
    (hvalue : ∀ y ∈ vars, y.exactValue b.int = y.exactValue a.int) : Apart t vars i b := by
  intro j x y hne hi hj
  have hy := List.mem_of_getElem? hj
  exact apart_imp (hfix x hi) (hremovable y hy) (hvalue y hy) (h j x y hne hi hj)

/-- The number of variables that cannot leave an interval. -/
def crowd (vars : List IntVar) (s : Store) (low high : Int) : Nat :=
  (boundsOf vars s).countP (encloses low high)

/-- The variable cannot leave the interval. -/
abbrev Inside (s : Store) (low high : Int) (x : IntVar) : Prop :=
  encloses low high (x.lowerBound s, x.upperBound s) = true

/-- An interval has room for the variables that cannot leave it; if they take all of it, the
    bounds of the others lie elsewhere. -/
structure Uncrowded (s : Store) (vars : List IntVar) (low high : Int) (a : Valuation) : Prop where
  room : (crowd vars s low high : Int) ≤ high - low + 1
  lower : (crowd vars s low high : Int) = high - low + 1 → ∀ x ∈ vars, ¬ Inside s low high x →
    low ≤ x.lowerBound s → x.lowerBound s ≤ high → high < x.exactValue a.int
  upper : (crowd vars s low high : Int) = high - low + 1 → ∀ x ∈ vars, ¬ Inside s low high x →
    low ≤ x.upperBound s → x.upperBound s ≤ high → x.exactValue a.int < low

theorem crowd_eq (vars : List IntVar) (s : Store) (low high : Int) :
    crowd vars s low high
      = (vars.filter fun x => encloses low high (x.lowerBound s, x.upperBound s)).length := by
  rw [crowd, boundsOf, List.countP_map, List.countP_eq_length_filter]
  rfl

theorem inside_iff {x : IntVar} {low high : Int} :
    Inside s low high x ↔ low ≤ x.lowerBound s ∧ x.upperBound s ≤ high := by
  unfold Inside encloses
  rw [Bool.and_eq_true, decide_eq_true_eq, decide_eq_true_eq]

section

variable {t : Store} {low high : Int}

/-- An interval is as crowded as the bounds and the values say. -/
theorem Uncrowded.congr {a b : Valuation} (h : Uncrowded s vars low high a)
    (hbounds : ∀ x ∈ vars, x.lowerBound t = x.lowerBound s ∧ x.upperBound t = x.upperBound s)
    (hvalue : ∀ x ∈ vars, x.exactValue b.int = x.exactValue a.int) :
    Uncrowded t vars low high b := by
  have hall : boundsOf vars t = boundsOf vars s :=
    List.map_congr_left fun x hx => Prod.ext (hbounds x hx).1 (hbounds x hx).2
  have hcrowd : crowd vars t low high = crowd vars s low high := by rw [crowd, hall, crowd]
  obtain ⟨hroom, hlower, hupper⟩ := h
  refine ⟨hcrowd ▸ hroom, fun hfull x hx => ?_, fun hfull x hx => ?_⟩
  · rw [inside_iff, (hbounds x hx).1, (hbounds x hx).2, ← inside_iff, hvalue x hx]
    exact hlower (hcrowd ▸ hfull) x hx
  · rw [inside_iff, (hbounds x hx).1, (hbounds x hx).2, ← inside_iff, hvalue x hx]
    exact hupper (hcrowd ▸ hfull) x hx

/-- Different values do not crowd. -/
theorem Uncrowded.of_differ {a : Valuation} (hdiffer : Differ vars a)
    (hlower : ∀ x ∈ vars, x.lowerBound s ≤ x.exactValue a.int)
    (hupper : ∀ x ∈ vars, x.exactValue a.int ≤ x.upperBound s) (hle : low ≤ high) :
    Uncrowded s vars low high a := by
  -- the Hall argument speaks of variables together with their bounds
  have hsnd : (vars.zip (boundsOf vars s)).map (·.2) = boundsOf vars s := by
    rw [zip_boundsOf, List.map_map]
    rfl
  have hnodup : ((vars.zip (boundsOf vars s)).map fun p => p.1.exactValue a.int).Nodup := by
    rw [zip_boundsOf, List.map_map]
    exact hdiffer
  have hbounds : ∀ p ∈ vars.zip (boundsOf vars s),
      p.2.1 ≤ p.1.exactValue a.int ∧ p.1.exactValue a.int ≤ p.2.2 := by
    intro p hp
    rw [zip_boundsOf] at hp
    obtain ⟨x, hx, rfl⟩ := List.mem_map.mp hp
    exact ⟨hlower x hx, hupper x hx⟩
  have hcount : (boundsOf vars s).countP (encloses low high) ≤ (high + 1 - low).toNat :=
    hsnd ▸ countP_le_room hnodup hbounds
  have hroom : crowd vars s low high ≤ (high + 1 - low).toNat := hcount
  have hout : (crowd vars s low high : Int) = high - low + 1 → ∀ x ∈ vars, ¬ Inside s low high x →
      ¬ (low ≤ x.exactValue a.int ∧ x.exactValue a.int ≤ high) := by
    intro hfull x hx hinside
    have hmem : (x, x.lowerBound s, x.upperBound s) ∈ vars.zip (boundsOf vars s) := by
      rw [zip_boundsOf]
      exact List.mem_map.mpr ⟨x, hx, rfl⟩
    refine outside_of_full hnodup hbounds ?_ hmem (Bool.eq_false_iff.mpr hinside)
    rw [hsnd]
    unfold crowd at hfull
    omega
  refine ⟨by omega, fun hfull x hx hinside hlow hhigh => ?_,
    fun hfull x hx hinside hlow hhigh => ?_⟩
  · have := hout hfull x hx hinside
    have := hlower x hx
    omega
  · have := hout hfull x hx hinside
    have := hupper x hx
    omega

theorem Inside.narrower {x : IntVar} (h : Inside s low high x) (hst : s.Narrower t) :
    Inside t low high x := by
  have hlower := IntVar.lowerBound_narrower hst x
  have hupper := IntVar.upperBound_narrower hst x
  rw [inside_iff] at h ⊢
  omega

/-- An interval only gets more crowded; if it does not, nobody has entered it. -/
theorem crowd_narrower (vars : List IntVar) (low high : Int) (hst : s.Narrower t) :
    crowd vars s low high ≤ crowd vars t low high
      ∧ (crowd vars t low high ≤ crowd vars s low high →
        ∀ x ∈ vars, Inside t low high x → Inside s low high x) := by
  -- who is inside stays inside, so the old list is what a filter leaves of the new one
  have hsub : (vars.filter fun x => encloses low high (x.lowerBound s, x.upperBound s)).Sublist
      (vars.filter fun x => encloses low high (x.lowerBound t, x.upperBound t)) := by
    have hboth : (vars.filter fun x => encloses low high (x.lowerBound s, x.upperBound s))
        = (vars.filter fun x => encloses low high (x.lowerBound t, x.upperBound t)).filter
          fun x => encloses low high (x.lowerBound s, x.upperBound s) := by
      rw [List.filter_filter]
      refine List.filter_congr fun x hmem => ?_
      cases h : encloses low high (x.lowerBound s, x.upperBound s) with
      | false => rfl
      | true => exact (Inside.narrower h hst).symm
    rw [hboth]
    exact List.filter_sublist
  rw [crowd_eq, crowd_eq]
  refine ⟨hsub.length_le, fun hle x hmem hinside => ?_⟩
  have hsame := hsub.eq_of_length_le hle
  have hin : x ∈ vars.filter fun x => encloses low high (x.lowerBound t, x.upperBound t) :=
    List.mem_filter.mpr ⟨hmem, hinside⟩
  rw [← hsame] at hin
  exact (List.mem_filter.mp hin).2

/-- What is demanded of a smaller store is not more than what a larger one demands. -/
theorem Uncrowded.of_narrower {a : Valuation} (h : Uncrowded t vars low high a)
    (hst : s.Narrower t) (hx : ∀ x ∈ vars, x.Ranges Width.value s) (ha : t.Admits a) :
    Uncrowded s vars low high a := by
  obtain ⟨hle, hback⟩ := crowd_narrower vars low high hst
  have hroom := h.room
  refine ⟨by omega, fun hfull x hmem hout hlow hhigh => ?_, fun hfull x hmem hout hlow hhigh => ?_⟩
  · have hout' : ¬ Inside t low high x := fun hin => hout (hback (by omega) x hmem hin)
    have hmove := IntVar.lowerBound_narrower hst x
    have hvalue := IntVar.lowerBound_le hst.wf ((hx x hmem).narrower hst)
      (IntVar.takes_exactValue ha x)
    by_cases hpast : high < x.lowerBound t
    · omega
    · exact h.lower (by omega) x hmem hout' (by omega) (by omega)
  · have hout' : ¬ Inside t low high x := fun hin => hout (hback (by omega) x hmem hin)
    have hmove := IntVar.upperBound_narrower hst x
    have hvalue := IntVar.le_upperBound hst.wf ((hx x hmem).narrower hst)
      (IntVar.takes_exactValue ha x)
    by_cases hpast : x.upperBound t < low
    · omega
    · exact h.upper (by omega) x hmem hout' (by omega) (by omega)

end

end AllDifferent

namespace LinearAtMost

variable {terms : List IntVar}

/-- A term exceeds its least value by no more than the sum exceeds the least sum. -/
theorem sub_le_sum_sub {least value : IntVar → Int} (h : ∀ y ∈ terms, least y ≤ value y)
    {x : IntVar} (hx : x ∈ terms) :
    value x - least x ≤ (terms.map value).sum - (terms.map least).sum := by
  induction terms with
  | nil => cases hx
  | cons y rest ih =>
    have hy := h y List.mem_cons_self
    have hrest := fun z hz => h z (List.mem_cons_of_mem y hz)
    have hsum := List.sum_le_sum hrest
    rw [List.map_cons, List.map_cons, List.sum_cons, List.sum_cons]
    rcases List.mem_cons.mp hx with rfl | hx
    · omega
    · have hle := ih hrest hx
      omega

end LinearAtMost

namespace Member

/-- The variable can take the value, and the value is a possible element. -/
def Supported (s : Store) (x : IntVar) (y : SetId) (k : Int) : Prop :=
  x.Takes s k ∧ (s.set y).inEnvelope k = true

/-- The value lies between values with support, it has support itself if it could be taken away,
    and the value of a fixed variable is an element. -/
structure Belongs (s : Store) (x : IntVar) (y : SetId) (a : Valuation) : Prop where
  lower : ∃ k, Supported s x y k ∧ k ≤ x.exactValue a.int
  upper : ∃ k, Supported s x y k ∧ x.exactValue a.int ≤ k
  support : x.Removable s (x.exactValue a.int) → (s.set y).inEnvelope (x.exactValue a.int) = true
  fixed : x.isFixed s = true → x.lowerBound s ∈ a.set y

/-- Support is all that is needed where values can be taken away. -/
theorem Belongs.of_support {s : Store} {x : IntVar} {y : SetId} {a : Valuation} (ha : s.Admits a)
    (h : (s.set y).inEnvelope (x.exactValue a.int) = true)
    (hfixed : x.isFixed s = true → x.lowerBound s ∈ a.set y) : Belongs s x y a :=
  ⟨⟨_, ⟨IntVar.takes_exactValue ha x, h⟩, Int.le_refl _⟩,
    ⟨_, ⟨IntVar.takes_exactValue ha x, h⟩, Int.le_refl _⟩, fun _ => h, hfixed⟩

/-- Nothing else matters than the domain of the variable, its value and the set. -/
theorem Belongs.congr {s t : Store} {x : IntVar} {y : SetId} {a b : Valuation}
    (h : Belongs s x y a) (hx : t.int x.base = s.int x.base) (hy : t.set y = s.set y)
    (hvalue : x.exactValue b.int = x.exactValue a.int) (hset : b.set y = a.set y) :
    Belongs t x y b := by
  have hsupported : ∀ k, Supported t x y k ↔ Supported s x y k := by
    intro k
    rw [Supported, Supported, IntVar.Takes, IntVar.Takes, hx, hy]
  obtain ⟨hlower, hupper, hsupport, hfix⟩ := h
  refine ⟨?_, ?_, ?_, ?_⟩
  · simpa only [hsupported, hvalue] using hlower
  · simpa only [hsupported, hvalue] using hupper
  · rw [hvalue, IntVar.Removable, hx, hy]
    exact hsupport
  · rw [IntVar.isFixed_of_base hx, (IntVar.bounds_of_base hx).1, hset]
    exact hfix

end Member

namespace OneNeighbour

open FiniteDomain.Filter

theorem node_of_joined {d : Direction} {c : Subgraph} {n m : Nat} (h : Joined d c n m) : n ∈ c.nodes := by
  cases d with
  | successors => exact (c.ends n m h).1
  | predecessors => exact (c.ends m n h).2

/-- What is demanded at a node, for the domain that is found. -/
structure Allowed (d : Direction) (but : Nat) (domain : GraphDomain) (c : Subgraph) (n : Nat) :
    Prop where
  /-- The exceptional node has no neighbour. -/
  exception : n = but → ∀ m, ¬ Joined d c n m
  /-- A certain neighbour is the only one. -/
  certain : n ≠ but → ∀ k, domain.kernel.hasArc (d.arc n k).1 (d.arc n k).2 = true →
    ∀ m, Joined d c n m → m = k
  /-- A node without possible neighbour is not there. -/
  possible : n ≠ but → n ∈ c.nodes →
    ∃ m, domain.envelope.hasArc (d.arc n m).1 (d.arc n m).2 = true
  /-- The only possible neighbour of a certain node is its neighbour. -/
  only : n ≠ but → domain.kernel.hasNode n = true → ∀ k,
    (∀ m, domain.envelope.hasArc (d.arc n m).1 (d.arc n m).2 = true → m = k) → Joined d c n k

/-- Nothing is demanded at a node that is not there. -/
theorem Allowed.of_notMem {d : Direction} {but : Nat} {domain : GraphDomain} {c : Subgraph} {n : Nat}
    (hc : domain.Admits c) (hout : n ∉ c.nodes) : Allowed d but domain c n where
  exception := fun _ _ hjoined => hout (node_of_joined hjoined)
  certain := fun _ _ _ _ hjoined => absurd (node_of_joined hjoined) hout
  possible := fun _ hmem => absurd hmem hout
  only := fun _ hn => absurd (hc.kernelNodes n hn) hout

/-- A graph that satisfies the constraint has what is demanded. -/
theorem Allowed.of_sat {d : Direction} {but : Nat} {domain : GraphDomain} {c : Subgraph} {n : Nat}
    (hsat : OneNeighbourBut d but c) (hc : domain.Admits c) : Allowed d but domain c n where
  exception := fun heq m hjoined => (hsat n (node_of_joined hjoined)).1 heq m hjoined
  certain := fun hne k hk m hjoined =>
    ((hsat n (node_of_joined hjoined)).2 hne).unique hjoined (hc.kernelArcs _ _ hk)
  possible := fun hne hn => by
    obtain ⟨m, hjoined, -⟩ := (hsat n hn).2 hne
    exact ⟨m, hc.envelopeArcs _ _ hjoined⟩
  only := fun hne hn k hk => by
    obtain ⟨m, hjoined, -⟩ := (hsat n (hc.kernelNodes n hn)).2 hne
    obtain rfl := hk m (hc.envelopeArcs _ _ hjoined)
    exact hjoined

theorem Allowed.of_narrower {d : Direction} {but : Nat} {s t : Store} {g : GraphId} {c : Subgraph}
    {n : Nat} (h : Allowed d but (t.graph g) c n) (hst : s.Narrower t) :
    Allowed d but (s.graph g) c n where
  exception := h.exception
  certain := fun hne k hk => h.certain hne k (hst.kernelArc hk)
  possible := fun hne hn => by
    obtain ⟨m, hm⟩ := h.possible hne hn
    exact ⟨m, hst.envelopeArc hm⟩
  only := fun hne hn k hk => h.only hne (hst.kernelNode hn) k fun m hm => hk m (hst.envelopeArc hm)

end OneNeighbour

namespace Filter

/-- The valuation has what a run demands that is woken at a position and finds the store. -/
def Grants : Filter → LocalId → Store → Valuation → Prop
  | .distinctByValue vars, l, s, a => AllDifferent.Apart s vars l.index a
  | .distinctByBounds vars, _, s, a =>
    (∀ low high, low ≤ high → AllDifferent.Uncrowded s vars low high a)
      ∧ ∀ i, AllDifferent.Apart s vars i a
  | .sumAtMost terms limit, _, s, a =>
    (terms.map (·.lowerBound s)).sum ≤ limit
      ∧ ∀ x ∈ terms, x.exactValue a.int + (terms.map (·.lowerBound s)).sum
          ≤ x.lowerBound s + limit
  | .atMost x y, _, s, a =>
    x.exactValue a.int ≤ y.upperBound s ∧ x.lowerBound s ≤ y.exactValue a.int
  | .distinct x y, _, s, a =>
    (x.isFixed s = true → y.Removable s (x.lowerBound s) → y.exactValue a.int ≠ x.lowerBound s)
      ∧ (y.isFixed s = true → x.Removable s (y.lowerBound s) →
        x.exactValue a.int ≠ y.lowerBound s)
  | .subset y z, _, s, a =>
    (∀ e, (s.set y).inKernel e = true → e ∈ a.set z)
      ∧ ∀ e ∈ a.set y, (s.set z).inEnvelope e = true
  | .disjoint y z, _, s, a =>
    (∀ e, (s.set y).inKernel e = true → e ∉ a.set z)
      ∧ ∀ e, (s.set z).inKernel e = true → e ∉ a.set y
  | .member x y, _, s, a => Member.Belongs s x y a
  | .oneNeighbour d g but, _, s, a =>
    ∀ n, OneNeighbour.Allowed d but (s.graph g) (a.graph g) n
  | .pathNoCycle g source sink, _, s, a =>
    PathNoCycle.Avoids (s.graph g) source sink fun m n => (m, n) ∈ (a.graph g).arcs

/-- The valuations of a relation grant whatever is demanded on the way from a store, as long as
    none of them is lost. -/
def Granted (f : Filter) (sat : Valuation → Prop) (s : Store) : Prop :=
  ∀ t, Filtering.Reaches sat s t → ∀ a, t.Admits a → sat a → ∀ l, f.Grants l t a

variable {f : Filter} {l : LocalId} {s t u : Store} {a : Valuation}

theorem Granted.reaches {sat : Valuation → Prop} (h : f.Granted sat s)
    (hst : Filtering.Reaches sat s t) : f.Granted sat t :=
  fun u htu => h u (hst.trans htu)

theorem Granted.here {sat : Valuation → Prop} (h : f.Granted sat s) (ha : s.Admits a)
    (hsat : sat a) (l : LocalId) : f.Grants l s a :=
  h s (.refl s) a ha hsat l

/-- The integer domains of the filter are stored as sets of values. -/
def Enumerated (f : Filter) (s : Store) : Prop :=
  ∀ x ∈ f.views, (s.int x.base).isEnumerated = true

/-! ### The constraint and the demands -/

/-- A valuation that satisfies the constraint grants everything. -/
theorem Grants.of_sat (hs : s.Wf) (hr : f.Ready s) (ha : s.Admits a) (hsat : f.Sat a)
    (l : LocalId) : f.Grants l s a := by
  have hvalues := fun x hx => hr.values (f := f) (x := x) hx
  have hlower : ∀ x ∈ f.views, x.lowerBound s ≤ x.exactValue a.int := fun x hx =>
    IntVar.lowerBound_le hs (hvalues x hx) (IntVar.takes_exactValue ha x)
  have hupper : ∀ x ∈ f.views, x.exactValue a.int ≤ x.upperBound s := fun x hx =>
    IntVar.le_upperBound hs (hvalues x hx) (IntVar.takes_exactValue ha x)
  have hfixed : ∀ x ∈ f.views, x.isFixed s = true → x.exactValue a.int = x.lowerBound s :=
    fun x hx h => IntVar.eq_lowerBound_of_isFixed hs (hvalues x hx) h
      (IntVar.takes_exactValue ha x)
  have hapart : ∀ {vars : List IntVar}, (∀ x ∈ vars, x ∈ f.views) →
      AllDifferent.Differ vars a → ∀ i, AllDifferent.Apart s vars i a := by
    intro vars hvars hdiffer i j x y hne hi hj hfix _
    rw [← hfixed x (hvars x (List.mem_of_getElem? hi)) hfix]
    exact hdiffer.ne hne hj hi
  cases f with
  | distinctByValue vars => exact hapart (fun _ h => h) hsat l.index
  | distinctByBounds vars =>
    exact ⟨fun low high hle => .of_differ hsat hlower hupper hle, hapart (fun _ h => h) hsat⟩
  | sumAtMost terms limit =>
    have hle : (terms.map (·.exactValue a.int)).sum ≤ limit := hsat
    have hleast : (terms.map (·.lowerBound s)).sum ≤ (terms.map (·.exactValue a.int)).sum :=
      List.sum_le_sum hlower
    refine ⟨Int.le_trans hleast hle, fun x hx => ?_⟩
    have hsub : x.exactValue a.int - x.lowerBound s
        ≤ (terms.map (·.exactValue a.int)).sum - (terms.map (·.lowerBound s)).sum :=
      LinearAtMost.sub_le_sum_sub hlower hx
    omega
  | atMost x y =>
    have hle : x.exactValue a.int ≤ y.exactValue a.int := hsat
    exact ⟨Int.le_trans hle (hupper y (List.mem_cons_of_mem _ List.mem_cons_self)),
      Int.le_trans (hlower x List.mem_cons_self) hle⟩
  | distinct x y =>
    have hne : x.exactValue a.int ≠ y.exactValue a.int := hsat
    refine ⟨fun hfix _ => ?_, fun hfix _ => ?_⟩
    · rw [← hfixed x List.mem_cons_self hfix]
      exact hne.symm
    · rw [← hfixed y (List.mem_cons_of_mem _ List.mem_cons_self) hfix]
      exact hne
  | subset y z =>
    have hsub : a.set y ⊆ a.set z := hsat
    exact ⟨fun e he => hsub ((ha.set y e).1 he), fun e he => (ha.set z e).2 (hsub he)⟩
  | disjoint y z =>
    have hdisjoint : ∀ e ∈ a.set y, e ∉ a.set z := hsat
    exact ⟨fun e he => hdisjoint e ((ha.set y e).1 he),
      fun e he hin => hdisjoint e hin ((ha.set z e).1 he)⟩
  | member x y =>
    have hin : x.exactValue a.int ∈ a.set y := hsat
    refine .of_support ha ((ha.set y _).2 hin) fun hfix => ?_
    rw [← hfixed x List.mem_cons_self hfix]
    exact hin
  | oneNeighbour d g but =>
    exact fun n => .of_sat hsat (ha.graph g)
  | pathNoCycle g source sink => exact PathNoCycle.PathsOnly.avoids hsat (hs.graph g) (ha.graph g)

/-! ### Larger stores demand less -/

/-- What a valuation grants a store it grants every larger store. -/
theorem Grants.of_narrower (hf : f.Decisive) (h : f.Grants l t a) (hst : s.Narrower t)
    (hr : f.Ready s) (henum : f.Enumerated t) (ha : t.Admits a) : f.Grants l s a := by
  have hvalues := fun x hx => hr.values (f := f) (x := x) hx
  have hlower : ∀ x ∈ f.views, x.lowerBound s ≤ x.lowerBound t := fun x hx =>
    IntVar.lowerBound_narrower hst x
  have hupper : ∀ x ∈ f.views, x.upperBound t ≤ x.upperBound s := fun x hx =>
    IntVar.upperBound_narrower hst x
  have hfixed : ∀ x ∈ f.views, x.isFixed s = true →
      x.isFixed t = true ∧ x.lowerBound t = x.lowerBound s := fun x hx h =>
    IntVar.fixed_narrower hst h
  -- what the larger store fixes the smaller one fixes to the same value
  have hapart : ∀ {vars : List IntVar} {i : Nat}, (∀ x ∈ vars, x ∈ f.views) →
      AllDifferent.Apart t vars i a → AllDifferent.Apart s vars i a := fun hvars h =>
    h.imp (fun x hi => hfixed x (hvars x (List.mem_of_getElem? hi)))
      (fun y hy _ _ => Or.inl (henum y (hvars y hy))) fun _ _ => rfl
  cases f with
  | distinctByValue vars => exact hapart (fun _ h => h) h
  | distinctByBounds vars =>
    exact ⟨fun low high hle => (h.1 low high hle).of_narrower hst hvalues ha,
      fun i => hapart (fun _ h => h) (h.2 i)⟩
  | sumAtMost terms limit =>
    obtain ⟨hlimit, hroom⟩ := h
    have hleast : (terms.map (·.lowerBound s)).sum ≤ (terms.map (·.lowerBound t)).sum :=
      List.sum_le_sum hlower
    refine ⟨Int.le_trans hleast hlimit, fun x hx => ?_⟩
    have hmove : x.lowerBound t - x.lowerBound s
        ≤ (terms.map (·.lowerBound t)).sum - (terms.map (·.lowerBound s)).sum :=
      LinearAtMost.sub_le_sum_sub hlower hx
    have hx' := hroom x hx
    omega
  | atMost x y =>
    exact ⟨Int.le_trans h.1 (hupper y (List.mem_cons_of_mem _ List.mem_cons_self)),
      Int.le_trans (hlower x List.mem_cons_self) h.2⟩
  | distinct x y =>
    have hx : x ∈ (Filter.distinct x y).views := List.mem_cons_self
    have hy : y ∈ (Filter.distinct x y).views := List.mem_cons_of_mem _ List.mem_cons_self
    exact ⟨AllDifferent.apart_imp (hfixed x hx) (fun _ _ => Or.inl (henum y hy)) rfl h.1,
      AllDifferent.apart_imp (hfixed y hy) (fun _ _ => Or.inl (henum x hx)) rfl h.2⟩
  | subset y z =>
    exact ⟨fun e he => h.1 e (hst.inKernel he), fun e he => hst.inEnvelope (h.2 e he)⟩
  | disjoint y z =>
    exact ⟨fun e he => h.1 e (hst.inKernel he), fun e he => h.2 e (hst.inKernel he)⟩
  | member x y =>
    have hsupport := h.support (Or.inl (henum x List.mem_cons_self))
    refine .of_support (hst.admits a ha) (hst.inEnvelope hsupport) fun hfix => ?_
    obtain ⟨hfix', heq⟩ := hfixed x List.mem_cons_self hfix
    rw [← heq]
    exact h.fixed hfix'
  | oneNeighbour d g but => exact fun n => (h n).of_narrower hst
  | pathNoCycle g source sink => exact hf.elim

/-! ### What a filter watches -/

/-- Nothing has changed between the stores that the filter watches for at the position. -/
def Calm : Filter → LocalId → Store → Store → Prop
  | .distinctByValue vars, l, s, t =>
    ∀ x, vars[l.index]? = some x → x.isFixed t = true → x.isFixed s = true
  | .distinctByBounds vars, _, s, t =>
    ∀ x ∈ vars, x.lowerBound t = x.lowerBound s ∧ x.upperBound t = x.upperBound s
  | .sumAtMost terms _, _, s, t => ∀ x ∈ terms, x.lowerBound t = x.lowerBound s
  | .atMost x y, _, s, t => x.lowerBound t = x.lowerBound s ∧ y.upperBound t = y.upperBound s
  | .distinct x y, _, s, t =>
    (x.isFixed t = true → x.isFixed s = true) ∧ (y.isFixed t = true → y.isFixed s = true)
  | .subset y z, _, s, t =>
    (∀ e, (t.set y).inKernel e = true → (s.set y).inKernel e = true)
      ∧ ∀ e, (s.set z).inEnvelope e = true → (t.set z).inEnvelope e = true
  | .disjoint y z, _, s, t =>
    (∀ e, (t.set y).inKernel e = true → (s.set y).inKernel e = true)
      ∧ ∀ e, (t.set z).inKernel e = true → (s.set z).inKernel e = true
  | .member x y, _, s, t =>
    (x.isFixed t = true → x.isFixed s = true)
      ∧ ∀ e, (s.set y).inEnvelope e = true → (t.set y).inEnvelope e = true
  | .oneNeighbour _ g _, _, s, t =>
    (t.graph g).envelope = (s.graph g).envelope ∧ (t.graph g).kernel = (s.graph g).kernel
  | .pathNoCycle g _ _, _, s, t => (t.graph g).kernel = (s.graph g).kernel

theorem Calm.refl (f : Filter) (l : LocalId) (s : Store) : f.Calm l s s := by
  cases f with
  | distinctByValue vars => exact fun x _ h => h
  | distinctByBounds vars => exact fun x _ => ⟨rfl, rfl⟩
  | sumAtMost terms limit => exact fun x _ => rfl
  | atMost x y => exact ⟨rfl, rfl⟩
  | distinct x y => exact ⟨id, id⟩
  | subset y z => exact ⟨fun _ h => h, fun _ h => h⟩
  | disjoint y z => exact ⟨fun _ h => h, fun _ h => h⟩
  | member x y => exact ⟨id, fun _ h => h⟩
  | oneNeighbour d g but => exact ⟨rfl, rfl⟩
  | pathNoCycle g source sink => exact rfl

theorem Calm.trans (h₁ : f.Calm l s t) (h₂ : f.Calm l t u) : f.Calm l s u := by
  cases f with
  | distinctByValue vars => exact fun x hx hfix => h₁ x hx (h₂ x hx hfix)
  | distinctByBounds vars =>
    exact fun x hx => ⟨(h₂ x hx).1.trans (h₁ x hx).1, (h₂ x hx).2.trans (h₁ x hx).2⟩
  | sumAtMost terms limit => exact fun x hx => (h₂ x hx).trans (h₁ x hx)
  | atMost x y => exact ⟨h₂.1.trans h₁.1, h₂.2.trans h₁.2⟩
  | distinct x y => exact ⟨fun h => h₁.1 (h₂.1 h), fun h => h₁.2 (h₂.2 h)⟩
  | subset y z => exact ⟨fun e h => h₁.1 e (h₂.1 e h), fun e h => h₂.2 e (h₁.2 e h)⟩
  | disjoint y z => exact ⟨fun e h => h₁.1 e (h₂.1 e h), fun e h => h₁.2 e (h₂.2 e h)⟩
  | member x y => exact ⟨fun h => h₁.1 (h₂.1 h), fun e h => h₂.2 e (h₁.2 e h)⟩
  | oneNeighbour d g but => exact ⟨h₂.1.trans h₁.1, h₂.2.trans h₁.2⟩
  | pathNoCycle g source sink => exact h₂.trans h₁

/-- The demands depend on nothing else. -/
theorem Grants.of_calm (h : f.Grants l s a) (hcalm : f.Calm l s t) (hst : s.Narrower t)
    (hr : f.Ready s) (henum : f.Enumerated s) (ha : t.Admits a) : f.Grants l t a := by
  have hvalues := fun x hx => hr.values (f := f) (x := x) hx
  -- a variable that was fixed has kept its value
  have hfixed : ∀ {x : IntVar}, (x.isFixed t = true → x.isFixed s = true) → x.isFixed t = true →
      x.isFixed s = true ∧ x.lowerBound s = x.lowerBound t := fun hback hfix =>
    ⟨hback hfix, (IntVar.fixed_narrower hst (hback hfix)).2.symm⟩
  have hapart : ∀ {vars : List IntVar} {i : Nat}, (∀ x ∈ vars, x ∈ f.views) →
      (∀ x, vars[i]? = some x → x.isFixed t = true → x.isFixed s = true) →
      AllDifferent.Apart s vars i a → AllDifferent.Apart t vars i a := fun hvars hback h =>
    h.imp (fun x hi => hfixed (hback x hi)) (fun y hy _ _ => Or.inl (henum y (hvars y hy)))
      fun _ _ => rfl
  cases f with
  | distinctByValue vars => exact hapart (fun _ h => h) hcalm h
  | distinctByBounds vars =>
    refine ⟨fun low high hle => (h.1 low high hle).congr hcalm fun _ _ => rfl,
      fun i => hapart (fun _ h => h) (fun x hi hfix => ?_) (h.2 i)⟩
    obtain ⟨hlower, hupper⟩ := hcalm x (List.mem_of_getElem? hi)
    unfold IntVar.isFixed at hfix ⊢
    rwa [← hlower, ← hupper]
  | sumAtMost terms limit =>
    have hsum : (terms.map (·.lowerBound t)) = terms.map (·.lowerBound s) :=
      List.map_congr_left hcalm
    refine ⟨hsum ▸ h.1, fun x hx => ?_⟩
    rw [hsum, hcalm x hx]
    exact h.2 x hx
  | atMost x y => exact ⟨hcalm.2 ▸ h.1, hcalm.1 ▸ h.2⟩
  | distinct x y =>
    have hx : x ∈ (Filter.distinct x y).views := List.mem_cons_self
    have hy : y ∈ (Filter.distinct x y).views := List.mem_cons_of_mem _ List.mem_cons_self
    exact ⟨AllDifferent.apart_imp (hfixed hcalm.1) (fun _ _ => Or.inl (henum y hy)) rfl h.1,
      AllDifferent.apart_imp (hfixed hcalm.2) (fun _ _ => Or.inl (henum x hx)) rfl h.2⟩
  | subset y z => exact ⟨fun e he => h.1 e (hcalm.1 e he), fun e he => hcalm.2 e (h.2 e he)⟩
  | disjoint y z => exact ⟨fun e he => h.1 e (hcalm.1 e he), fun e he => h.2 e (hcalm.2 e he)⟩
  | member x y =>
    have hsupport := h.support (Or.inl (henum x List.mem_cons_self))
    refine .of_support ha (hcalm.2 _ hsupport) fun hfix => ?_
    obtain ⟨hfix', heq⟩ := hfixed hcalm.1 hfix
    rw [← heq]
    exact h.fixed hfix'
  | oneNeighbour d g but =>
    intro n
    obtain ⟨hexception, hcertain, hpossible, honly⟩ := h n
    rw [← hcalm.2] at hcertain honly
    rw [← hcalm.1] at hpossible honly
    exact ⟨hexception, hcertain, hpossible, honly⟩
  | pathNoCycle g source sink => exact h.congr (hst.order g) hcalm fun _ _ h => h

/-- Nothing has changed if the scope is as it was. -/
theorem Calm.of_untouched (h : ∀ v ∈ f.scope, s.Untouched t v) (l : LocalId) : f.Calm l s t := by
  have hbase : ∀ x ∈ f.views, t.int x.base = s.int x.base := fun x hx => h _ (base_mem_scope hx)
  have hbounds := fun x hx => IntVar.bounds_of_base (hbase x hx)
  have hfixed : ∀ x ∈ f.views, x.isFixed t = true → x.isFixed s = true := fun x hx hfix =>
    (IntVar.isFixed_of_base (hbase x hx)).symm.trans hfix
  cases f with
  | distinctByValue vars => exact fun x hx => hfixed x (List.mem_of_getElem? hx)
  | distinctByBounds vars => exact hbounds
  | sumAtMost terms limit => exact fun x hx => (hbounds x hx).1
  | atMost x y =>
    exact ⟨(hbounds x List.mem_cons_self).1,
      (hbounds y (List.mem_cons_of_mem _ List.mem_cons_self)).2⟩
  | distinct x y =>
    exact ⟨hfixed x List.mem_cons_self, hfixed y (List.mem_cons_of_mem _ List.mem_cons_self)⟩
  | subset y z =>
    have hy : t.set y = s.set y := h _ List.mem_cons_self
    have hz : t.set z = s.set z := h _ (List.mem_cons_of_mem _ List.mem_cons_self)
    exact ⟨fun e he => hy ▸ he, fun e he => hz.symm ▸ he⟩
  | disjoint y z =>
    have hy : t.set y = s.set y := h _ List.mem_cons_self
    have hz : t.set z = s.set z := h _ (List.mem_cons_of_mem _ List.mem_cons_self)
    exact ⟨fun e he => hy ▸ he, fun e he => hz ▸ he⟩
  | member x y =>
    have hy : t.set y = s.set y := h _ (List.mem_cons_of_mem _ List.mem_cons_self)
    exact ⟨hfixed x List.mem_cons_self, fun e he => hy.symm ▸ he⟩
  | oneNeighbour d g but =>
    have hg : t.graph g = s.graph g := h _ List.mem_cons_self
    exact ⟨congrArg GraphDomain.envelope hg, congrArg GraphDomain.kernel hg⟩
  | pathNoCycle g source sink =>
    exact congrArg GraphDomain.kernel (show t.graph g = s.graph g from h _ List.mem_cons_self)

/-! ### What wakes a filter -/

/-- A run at the first position does what is demanded at the second. -/
def Handles : Filter → LocalId → LocalId → Prop
  | .distinctByValue _, l, l' => l = l'
  | _, _, _ => True

theorem Handles.refl (f : Filter) (l : LocalId) : f.Handles l l := by
  cases f with
  | distinctByValue vars => rfl
  | _ => trivial

/-- The positions at which a run does what is demanded at a position. -/
def handlers (f : Filter) (l : LocalId) : Set LocalId := {l' | f.Handles l' l}

/-- A step that does not wake the filter changes nothing that it watches for. -/
theorem calm_of_step (h : s.Step t) (hs : s.Wf) (hr : f.Ready s)
    (hquiet : ¬ f.Woken t (f.handlers l)) : f.Calm l s t := by
  have hassign : (EventSet.ofList [.assign]).meets Event.assign.wakes = true := rfl
  have hvalues := fun x hx => hr.values (f := f) (x := x) hx
  -- a change of what is watched would wake the filter at a position that does what is demanded
  have hfixed : ∀ {x : IntVar} {events : EventSet} {i : LocalId}, x ∈ f.views →
      x.watch events i ∈ f.watches → i ∈ f.handlers l →
      events.meets Event.assign.wakes = true → x.isFixed t = true → x.isFixed s = true :=
    fun hx hw hi hevents hfix =>
      (fixed_or_woken h hs (hvalues _ hx) hw hi hevents hfix).resolve_right hquiet
  have hlower : ∀ {x : IntVar} {events : EventSet} {i : LocalId}, x ∈ f.views →
      x.watch events i ∈ f.watches → i ∈ f.handlers l → events.contains .lowerBound = true →
      x.lowerBound t = x.lowerBound s := fun hx hw hi hevents =>
    (lowerBound_or_woken h hs (hvalues _ hx) hw hi hevents).resolve_right hquiet
  have hupper : ∀ {x : IntVar} {events : EventSet} {i : LocalId}, x ∈ f.views →
      x.watch events i ∈ f.watches → i ∈ f.handlers l → events.contains .upperBound = true →
      x.upperBound t = x.upperBound s := fun hx hw hi hevents =>
    (upperBound_or_woken h hs (hvalues _ hx) hw hi hevents).resolve_right hquiet
  have hkernel : ∀ {y : SetId} {i : LocalId}, ⟨.set y, .ofList [.kernelAddition], i⟩ ∈ f.watches →
      i ∈ f.handlers l → ∀ e, (t.set y).inKernel e = true → (s.set y).inKernel e = true :=
    fun hw hi _ he => (kernel_or_woken h hw hi he).resolve_right hquiet
  have henvelope : ∀ {y : SetId} {i : LocalId},
      ⟨.set y, .ofList [.envelopeRemoval], i⟩ ∈ f.watches → i ∈ f.handlers l →
      ∀ e, (s.set y).inEnvelope e = true → (t.set y).inEnvelope e = true :=
    fun hw hi _ he => by_contra fun hafter =>
      (envelope_or_woken h hw hi hafter).resolve_right hquiet he
  cases f with
  | distinctByValue vars =>
    exact fun x hi => hfixed (List.mem_of_getElem? hi) (watch_mem_watchAll _ hi) rfl hassign
  | distinctByBounds vars =>
    intro x hx
    obtain ⟨i, hi⟩ := List.mem_iff_getElem?.mp hx
    exact ⟨hlower hx (watch_mem_watchAll _ hi) trivial rfl,
      hupper hx (watch_mem_watchAll _ hi) trivial rfl⟩
  | sumAtMost terms limit =>
    intro x hx
    obtain ⟨i, hi⟩ := List.mem_iff_getElem?.mp hx
    exact hlower hx (watch_mem_watchAll _ hi) trivial rfl
  | atMost x y =>
    exact ⟨hlower List.mem_cons_self List.mem_cons_self trivial rfl,
      hupper (List.mem_cons_of_mem _ List.mem_cons_self)
        (List.mem_cons_of_mem _ List.mem_cons_self) trivial rfl⟩
  | distinct x y =>
    exact ⟨hfixed List.mem_cons_self List.mem_cons_self trivial hassign,
      hfixed (List.mem_cons_of_mem _ List.mem_cons_self)
        (List.mem_cons_of_mem _ List.mem_cons_self) trivial hassign⟩
  | subset y z =>
    exact ⟨hkernel List.mem_cons_self trivial,
      henvelope (List.mem_cons_of_mem _ List.mem_cons_self) trivial⟩
  | disjoint y z =>
    exact ⟨hkernel List.mem_cons_self trivial,
      hkernel (List.mem_cons_of_mem _ List.mem_cons_self) trivial⟩
  | member x y =>
    exact ⟨hfixed List.mem_cons_self List.mem_cons_self trivial hassign,
      henvelope (List.mem_cons_of_mem _ List.mem_cons_self) trivial⟩
  | oneNeighbour d g but =>
    refine Or.resolve_right (graph_or_woken h List.mem_cons_self ?_) hquiet
    trivial
  | pathNoCycle g source sink =>
    rcases h.reportsGraph g with heq | ⟨ev, hev, hreports⟩
    · exact congrArg GraphDomain.kernel heq
    by_contra hne
    refine hquiet ⟨_, List.mem_cons_self, trivial, ev, hev, ?_⟩
    rw [hreports.kernel hne]
    rfl

theorem calm_of_steps (h : s.Steps t) (hs : s.Wf) (hr : f.Ready s)
    (hquiet : ¬ f.Woken t (f.handlers l)) : f.Calm l s t := by
  induction h with
  | refl => exact .refl f l s
  | tail before step ih =>
    have hmid := Store.Steps.wf before hs
    refine (ih fun hwoken => hquiet (hwoken.steps (.single step))).trans ?_
    exact calm_of_step step hmid (hr.steps before hs) hquiet

/-! ### What a run has done -/

/-- All that is left in the second store grants what was demanded in the first.  A term of a sum
    is measured by its least value at the end of the run: the run itself may have raised it. -/
def Done (f : Filter) (l : LocalId) (s t : Store) : Prop :=
  match f with
  | .sumAtMost terms limit =>
    (terms.map (·.lowerBound s)).sum ≤ limit ∧ ∀ a, t.Admits a → ∀ x ∈ terms,
      x.exactValue a.int + (terms.map (·.lowerBound s)).sum ≤ x.lowerBound t + limit
  | f => ∀ a, t.Admits a → f.Grants l s a

/-- What was done for a store with a clash cannot have succeeded. -/
theorem Done.no_clash (h : f.Done l s t) (hst : s.Steps t) (hs : s.Wf) (hr : f.Ready s)
    {A : Set LocalId} (hl : l ∈ A) : ¬ Clash s f A := by
  intro hclash
  obtain ⟨a, ha⟩ := (hst.wf hs).exists_admits
  have ha' := hst.admits hs ha
  have hvalues := fun x hx => hr.values (f := f) (x := x) hx
  have hfixed : ∀ x ∈ f.views, x.isFixed s = true → x.exactValue a.int = x.lowerBound s :=
    fun x hx h => IntVar.eq_lowerBound_of_isFixed hs (hvalues x hx) h
      (IntVar.takes_exactValue ha' x)
  have hapart : ∀ {vars : List IntVar} {i j : Nat}, (∀ x ∈ vars, x ∈ f.views) →
      AllDifferent.Apart s vars i a → ¬ SameAt s vars i j := by
    rintro vars i j hvars h ⟨hne, x, y, hi, hj, hfirst, hsecond, heq⟩
    have hy := hvars y (List.mem_of_getElem? hj)
    refine h j x y hne.symm hi hj hfirst
      (IntVar.removable_of_isFixed hs (hvalues y hy) hsecond _) ?_
    rw [hfixed y hy hsecond, heq]
  cases hclash with
  | @byValue vars i j same =>
    rcases hl with heq | heq
    · subst heq
      exact hapart (fun _ h => h) (h a ha) same
    · -- the clash is symmetric
      subst heq
      obtain ⟨hne, x, y, hi, hj, hfirst, hsecond, hsame⟩ := same
      exact hapart (fun _ h => h) (h a ha) ⟨hne.symm, y, x, hj, hi, hsecond, hfirst, hsame.symm⟩
  | @byBounds vars i j same => exact hapart (fun _ h => h) ((h a ha).2 i) same
  | sumAtMost excess => exact Int.not_lt.mpr h.1 excess
  | @atMost x y excess =>
    have hle : x.exactValue a.int ≤ y.upperBound s := (h a ha).1
    have hlower := IntVar.lowerBound_le hs (hvalues x List.mem_cons_self)
      (IntVar.takes_exactValue ha' x)
    omega
  | @distinct x y first second same =>
    have hy : y ∈ (Filter.distinct x y).views := List.mem_cons_of_mem _ List.mem_cons_self
    refine (h a ha).1 first (IntVar.removable_of_isFixed hs (hvalues y hy) second _) ?_
    rw [hfixed y hy second, same]
  | @subset y z e certain impossible =>
    exact impossible ((ha'.set z e).2 ((h a ha).1 e certain))
  | @disjoint y z e first second =>
    exact (h a ha).1 e first ((ha'.set z e).1 second)
  | @member x y fixed impossible =>
    have hx : x ∈ (Filter.member x y).views := List.mem_cons_self
    have hin := Member.Belongs.support (h a ha)
      (IntVar.removable_of_isFixed hs (hvalues x hx) fixed _)
    rw [hfixed x hx fixed] at hin
    exact impossible hin
  | @oneNeighbour d g but fixed fails =>
    refine fails _ (ha'.graph g) fun n hn => ?_
    obtain ⟨hexception, hcertain, hpossible, -⟩ : OneNeighbour.Allowed d but _ _ n := h a ha n
    refine ⟨hexception, fun hne => ?_⟩
    -- in a fixed domain the envelope and the kernel are the only graph
    obtain ⟨m, hm⟩ := hpossible hne hn
    have hg := hs.graph g
    have hkernel := GraphDomain.admits_unique hg fixed (ha'.graph g)
    have henvelope := GraphDomain.admits_unique hg fixed (GraphDomain.admits_envelope hg)
    have hjoined : Joined d (a.graph g) n m := by
      rw [hkernel, ← henvelope]
      exact hm
    refine ⟨m, hjoined, fun k hk => hcertain hne m ?_ k hk⟩
    rw [hkernel] at hjoined
    exact hjoined

/-! ### Rest -/

/-- All valuations of the store grant what is demanded at the position. -/
def RestsAt (f : Filter) (l : LocalId) (s : Store) : Prop := ∀ a, s.Admits a → f.Grants l s a

/-- There is nothing left for the filter to do. -/
def Rests (f : Filter) (s : Store) : Prop := ∀ l, f.RestsAt l s

theorem RestsAt.of_calm (h : f.RestsAt l s) (hcalm : f.Calm l s t) (hst : s.Narrower t)
    (hr : f.Ready s) (henum : f.Enumerated s) : f.RestsAt l t :=
  fun a ha => (h a (hst.admits a ha)).of_calm hcalm hst hr henum ha

/-- After a run the filter is at rest where nothing has changed that it watches for. -/
theorem Done.restsAt (h : f.Done l s t) (hcalm : f.Calm l s t) (hst : s.Narrower t)
    (hr : f.Ready s) (henum : f.Enumerated s) : f.RestsAt l t := by
  intro a ha
  refine Grants.of_calm ?_ hcalm hst hr henum ha
  cases f with
  | sumAtMost terms limit =>
    refine ⟨h.1, fun x hx => ?_⟩
    have hsame : x.lowerBound t = x.lowerBound s := hcalm x hx
    rw [← hsame]
    exact h.2 a ha x hx
  | distinctByValue vars => exact h a ha
  | distinctByBounds vars => exact h a ha
  | atMost x y => exact h a ha
  | distinct x y => exact h a ha
  | subset y z => exact h a ha
  | disjoint y z => exact h a ha
  | member x y => exact h a ha
  | oneNeighbour d g but => exact h a ha
  | pathNoCycle g source sink => exact h a ha

end Filter

end FiniteDomain
