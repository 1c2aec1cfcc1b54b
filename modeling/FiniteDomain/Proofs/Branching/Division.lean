import FiniteDomain.Proofs.Branching.Decision
import FiniteDomain.Proofs.Filter.Sound
import FiniteDomain.Proofs.Store.Contents

/-! # Branches divide the contents of a store

    Decisions divide a store if they can be carried out exactly, no two of them
    hold of the same valuation, and the stores after them have together at most as
    many contents as the store itself (`Divides`).  A branch also covers every
    valuation (`Covers`).

    Deciding an element, a node or an arc halves the contents; tests on the value
    of a variable share out its values. -/

namespace FiniteDomain

/-! ### Divisions -/

/-- The decisions share out the contents of the store. -/
structure Divides (s : Store) (ds : List Decision) : Prop where
  /-- They can be carried out. -/
  known : ∀ d ∈ ds, d.Known s
  /-- Carrying one out leaves exactly the valuations of which it holds. -/
  keeps : ∀ d ∈ ds, (d.apply s).Keeps s d.Holds
  /-- No valuation is shared. -/
  disjoint : ds.Pairwise fun d d' => ∀ a, s.Admits a → d.Holds a → ¬ d'.Holds a
  /-- Nothing is counted twice. -/
  shares : (ds.map fun d => (d.apply s).store.contents).sum ≤ s.contents

/-- One of the decisions holds. -/
def Covers (s : Store) (ds : List Decision) : Prop := ∀ a, s.Admits a → ∃ d ∈ ds, d.Holds a

variable {s t : Store} {d d' : Decision} {ds : List Decision}

theorem Divides.tail (h : Divides s (d :: ds)) : Divides s ds where
  known := fun d' hd' => h.known d' (List.mem_cons_of_mem d hd')
  keeps := fun d' hd' => h.keeps d' (List.mem_cons_of_mem d hd')
  disjoint := (List.pairwise_cons.mp h.disjoint).2
  shares := by
    have hsum := h.shares
    rw [List.map_cons, List.sum_cons] at hsum
    omega

/-- A decision that holds of some valuation can be carried out. -/
theorem changed?_ne_none (hkeeps : (d.apply s).Keeps s d.Holds)
    (hyes : ∃ a, s.Admits a ∧ d.Holds a) : (d.apply s).changed? ≠ none := by
  intro hnone
  obtain ⟨a, ha, hd⟩ := hyes
  exact hkeeps.empty hnone a ha hd

/-! ### Elements, nodes and arcs -/

theorem ints_commitSet (s : Store) (y : SetId) (o : Outcome SetDomain SetDomain.Entry) :
    (s.commitSet y o).store.ints = s.ints := by
  cases o <;> rfl

theorem ints_commitGraph (s : Store) (g : GraphId) (o : Outcome GraphDomain GraphDomain.Entry) :
    (s.commitGraph g o).store.ints = s.ints := by
  cases o <;> rfl

/-- A decision that is open and leaves the integer variables alone halves the contents. -/
theorem two_mul_contents_le (hs : s.Wf) (hkeeps : (d.apply s).Keeps s d.Holds)
    (hints : (d.apply s).store.ints = s.ints) (hyes : ∃ a, s.Admits a ∧ d.Holds a)
    (hno : ∃ a, s.Admits a ∧ ¬ d.Holds a) : 2 * (d.apply s).store.contents ≤ s.contents := by
  have hne := changed?_ne_none hkeeps hyes
  by_cases hchanged : (d.apply s).changed? = some true
  · exact (hkeeps.step hchanged).two_mul_contents_le hs hints
  · -- then the decision would hold already
    obtain ⟨a, ha, hnot⟩ := hno
    rw [← hkeeps.same hchanged] at ha
    exact absurd (hkeeps.exactly hne a ha) hnot

/-- To have something or not to have it. -/
theorem divides_binary (hs : s.Wf) (hd : d.Known s) (hd' : d'.Known s)
    (hkeeps : (d.apply s).Keeps s d.Holds) (hkeeps' : (d'.apply s).Keeps s d'.Holds)
    (hints : (d.apply s).store.ints = s.ints) (hints' : (d'.apply s).store.ints = s.ints)
    (hnot : ∀ a, d'.Holds a ↔ ¬ d.Holds a) (hyes : ∃ a, s.Admits a ∧ d.Holds a)
    (hno : ∃ a, s.Admits a ∧ ¬ d.Holds a) : Divides s [d, d'] ∧ Covers s [d, d'] := by
  refine ⟨⟨?_, ?_, ?_, ?_⟩, fun a _ => ?_⟩
  · intro c hc
    rcases List.mem_pair.mp hc with rfl | rfl
    · exact hd
    · exact hd'
  · intro c hc
    rcases List.mem_pair.mp hc with rfl | rfl
    · exact hkeeps
    · exact hkeeps'
  · exact List.pairwise_pair.mpr fun a _ hholds hholds' => (hnot a).mp hholds' hholds
  · -- each alternative loses what the other one has
    have hfirst := two_mul_contents_le hs hkeeps hints hyes hno
    have hsecond : 2 * (d'.apply s).store.contents ≤ s.contents := by
      refine two_mul_contents_le hs hkeeps' hints' ?_ ?_
      · obtain ⟨a, ha, hnd⟩ := hno
        exact ⟨a, ha, (hnot a).mpr hnd⟩
      · obtain ⟨a, ha, hyd⟩ := hyes
        exact ⟨a, ha, fun hd' => (hnot a).mp hd' hyd⟩
    simp only [List.map_cons, List.map_nil, List.sum_cons, List.sum_nil]
    omega
  · by_cases hholds : d.Holds a
    · exact ⟨d, List.mem_cons_self, hholds⟩
    · exact ⟨d', List.mem_cons_of_mem d List.mem_cons_self, (hnot a).mpr hholds⟩

theorem known_of_set {y : SetId} (hy : s.knows (.set y) = true) (e : Int) :
    (Decision.includeElement y e).Known s ∧ (Decision.excludeElement y e).Known s := by
  have hrequire := Filter.require_eq hy
  constructor <;>
    (show (s.require (.set y) >>= fun _ => _) = _
     rw [hrequire]
     rfl)

theorem known_of_graph {g : GraphId} (hg : s.knows (.graph g) = true) (tail head : Nat) :
    (Decision.includeArc g tail head).Known s ∧ (Decision.excludeArc g tail head).Known s := by
  have hrequire := Filter.require_eq hg
  constructor <;>
    (show (s.require (.graph g) >>= fun _ => _) = _
     rw [hrequire]
     rfl)

theorem known_of_node {g : GraphId} (hg : s.knows (.graph g) = true) {n : Nat}
    (hn : n < (s.graph g).order) :
    (Decision.includeNode g n).Known s ∧ (Decision.excludeNode g n).Known s := by
  have hrequire := Filter.require_eq hg
  have hnode : (if n < (s.graph g).order then pure () else throw Fault.assertionFailed
      : Except Fault Unit) = .ok () := if_pos hn
  constructor <;>
    (show (s.require (.graph g) >>= fun _ => if n < (s.graph g).order then pure ()
        else throw Fault.assertionFailed) = _
     rw [hrequire]
     exact hnode)

theorem sharp_of_ne (h : ∀ p, d ≠ .impose p) : d.Sharp s := fun _ _ heq => absurd heq (h _)

/-- Deciding an optional element of a set. -/
theorem divides_element (hs : s.Wf) {y : SetId} (hy : s.knows (.set y) = true) {e : Int}
    (hpossible : (s.set y).inEnvelope e = true) (hopen : (s.set y).inKernel e = false) :
    Divides s [.includeElement y e, .excludeElement y e]
      ∧ Covers s [.includeElement y e, .excludeElement y e] := by
  obtain ⟨a, ha⟩ := hs.exists_admits
  have hwf := hs.set y
  refine divides_binary hs (known_of_set hy e).1 (known_of_set hy e).2
    (Decision.apply_keeps hs (sharp_of_ne fun p hp => by cases hp))
    (Decision.apply_keeps hs (sharp_of_ne fun p hp => by cases hp))
    (ints_commitSet s y _) (ints_commitSet s y _) (fun a => Iff.rfl) ?_ ?_
  · refine ⟨_, ha.withSet (SetDomain.admits_envelope hwf), ?_⟩
    show e ∈ (a.withSet y _).set y
    rw [Valuation.set_withSet_self]
    exact hpossible
  · refine ⟨_, ha.withSet (SetDomain.admits_kernel hwf), ?_⟩
    show ¬ e ∈ (a.withSet y _).set y
    rw [Valuation.set_withSet_self]
    exact Bool.eq_false_iff.mp hopen

/-- Deciding an optional arc of a graph. -/
theorem divides_arc (hs : s.Wf) {g : GraphId} (hg : s.knows (.graph g) = true) {tail head : Nat}
    (hpossible : (s.graph g).envelope.hasArc tail head = true)
    (hopen : (s.graph g).kernel.hasArc tail head = false) :
    Divides s [.includeArc g tail head, .excludeArc g tail head]
      ∧ Covers s [.includeArc g tail head, .excludeArc g tail head] := by
  obtain ⟨a, ha⟩ := hs.exists_admits
  have hwf := hs.graph g
  refine divides_binary hs (known_of_graph hg tail head).1 (known_of_graph hg tail head).2
    (Decision.apply_keeps hs (sharp_of_ne fun p hp => by cases hp))
    (Decision.apply_keeps hs (sharp_of_ne fun p hp => by cases hp))
    (ints_commitGraph s g _) (ints_commitGraph s g _) (fun a => Iff.rfl) ?_ ?_
  · refine ⟨_, ha.withGraph (GraphDomain.admits_envelope hwf), ?_⟩
    show (tail, head) ∈ ((a.withGraph g _).graph g).arcs
    rw [Valuation.graph_withGraph_self]
    exact hpossible
  · refine ⟨_, ha.withGraph (GraphDomain.admits_kernel hwf), ?_⟩
    show ¬ (tail, head) ∈ ((a.withGraph g _).graph g).arcs
    rw [Valuation.graph_withGraph_self]
    exact Bool.eq_false_iff.mp hopen

/-- Deciding an optional node of a graph. -/
theorem divides_node (hs : s.Wf) {g : GraphId} (hg : s.knows (.graph g) = true) {n : Nat}
    (hn : n < (s.graph g).order) (hpossible : (s.graph g).envelope.hasNode n = true)
    (hopen : (s.graph g).kernel.hasNode n = false) :
    Divides s [.includeNode g n, .excludeNode g n]
      ∧ Covers s [.includeNode g n, .excludeNode g n] := by
  obtain ⟨a, ha⟩ := hs.exists_admits
  have hwf := hs.graph g
  refine divides_binary hs (known_of_node hg hn).1 (known_of_node hg hn).2
    (Decision.apply_keeps hs (sharp_of_ne fun p hp => by cases hp))
    (Decision.apply_keeps hs (sharp_of_ne fun p hp => by cases hp))
    (ints_commitGraph s g _) (ints_commitGraph s g _) (fun a => Iff.rfl) ?_ ?_
  · refine ⟨_, ha.withGraph (GraphDomain.admits_envelope hwf), ?_⟩
    show n ∈ ((a.withGraph g _).graph g).nodes
    rw [Valuation.graph_withGraph_self]
    exact hpossible
  · refine ⟨_, ha.withGraph (GraphDomain.admits_kernel hwf), ?_⟩
    show ¬ n ∈ ((a.withGraph g _).graph g).nodes
    rw [Valuation.graph_withGraph_self]
    exact Bool.eq_false_iff.mp hopen

/-! ### Tests on the value of a variable -/

/-- The decision is to test the value of the variable. -/
structure Tests (x : IntVar) (s : Store) (d : Decision) (passes : Int → Prop) : Prop where
  /-- It is a predicate about the variable below, if about any. -/
  place : ∃ p, d = .impose p ∧ ∀ y, p.subject? = some y → y = x.base
  /-- Carrying it out leaves exactly the valuations of which it holds. -/
  keeps : (d.apply s).Keeps s d.Holds
  /-- It holds if the value passes. -/
  holds : ∀ a, s.Admits a → (d.Holds a ↔ passes (x.exactValue a.int))

section

variable {x : IntVar} {k : Int}

/-- A predicate can be imposed if its variable exists. -/
theorem known_impose {p : Predicate} (hp : ∀ y, p.subject? = some y → s.knows (.int y) = true) :
    (Decision.impose p).Known s := by
  show (((p.subject?).map VariableId.int).forM s.require >>= fun _ => _) = _
  cases hsubject : p.subject? with
  | none => rfl
  | some y =>
    show (s.require (.int y) >>= fun _ => _) = _
    rw [Filter.require_eq (hp y hsubject)]
    rfl

theorem Tests.known {passes : Int → Prop} (h : Tests x s d passes)
    (hx : s.knows (.int x.base) = true) : d.Known s := by
  obtain ⟨p, rfl, hsubject⟩ := h.place
  exact known_impose fun y hy => hsubject y hy ▸ hx

/-- Imposing a predicate touches its variable alone. -/
theorem narrowedAt_impose (hs : s.Wf) {p : Predicate} {z : IntId}
    (hp : ∀ y, p.subject? = some y → y = z) : Store.NarrowedAt s z (s.impose p).store := by
  have hsteps : s.Steps (s.impose p).store := .of_narrowed (Store.impose_obeys hs p).toSteps
  have hself : s.ints = s.ints.modify z.index fun _ => s.int z :=
    (Table.modify_getD s.ints z.index default).symm
  -- whatever the outcome, a commit writes the domain of its own variable
  have hcommit : ∀ (y : IntId) (o : Outcome IntegerDomain IntegerDomain.Entry), y = z →
      (∃ d, (s.commitInt y o).store.ints = s.ints.modify z.index fun _ => d)
        ∧ (s.commitInt y o).store.sets = s.sets ∧ (s.commitInt y o).store.graphs = s.graphs := by
    rintro y o rfl
    cases o with
    | empty => exact ⟨⟨_, hself⟩, rfl, rfl⟩
    | unchanged => exact ⟨⟨_, hself⟩, rfl, rfl⟩
    | changed d entries e => exact ⟨⟨d, rfl⟩, rfl, rfl⟩
  have hparts : (∃ d, (s.impose p).store.ints = s.ints.modify z.index fun _ => d)
      ∧ (s.impose p).store.sets = s.sets ∧ (s.impose p).store.graphs = s.graphs := by
    cases p with
    | atLeast y k => exact hcommit y _ (hp y rfl)
    | atMost y k => exact hcommit y _ (hp y rfl)
    | differs y k => exact hcommit y _ (hp y rfl)
    | equals y k => exact hcommit y _ (hp y rfl)
    | always => exact ⟨⟨_, hself⟩, rfl, rfl⟩
    | never => exact ⟨⟨_, hself⟩, rfl, rfl⟩
  exact ⟨hsteps.wf hs, hparts.1, hparts.2.1, hparts.2.2, fun v hv => (hsteps.narrower hs).contains hv⟩

theorem tests_atMost (hs : s.Wf) (hx : x.source.Ranges Width.value s) (k : Int) :
    Tests x s (.impose (x.atMost k)) fun v => v ≤ k where
  place := ⟨_, rfl, (x.subject?_bounds k).2⟩
  keeps := by
    show (s.impose _).Keeps s fun a => (x.atMost k).Holds a.int
    rw [Store.impose_atMost]
    exact (IntVar.tightenUpper_keeps hs hx k).congr hs fun a ha => IntVar.holds_atMost hx ha k
  holds := fun a ha => IntVar.holds_atMost hx ha k

theorem tests_atLeast (hs : s.Wf) (hx : x.source.Ranges Width.value s) (k : Int) :
    Tests x s (.impose (x.atLeast k)) fun v => k ≤ v where
  place := ⟨_, rfl, (x.subject?_bounds k).1⟩
  keeps := by
    show (s.impose _).Keeps s fun a => (x.atLeast k).Holds a.int
    rw [Store.impose_atLeast]
    exact (IntVar.tightenLower_keeps hs hx k).congr hs fun a ha => IntVar.holds_atLeast hx ha k
  holds := fun a ha => IntVar.holds_atLeast hx ha k

theorem tests_equals (hs : s.Wf) (hx : x.source.Ranges Width.value s) (k : Int) :
    Tests x s (.impose (x.equals k)) fun v => v = k where
  place := ⟨_, rfl, (x.subject?_values k).1⟩
  keeps := by
    show (s.impose _).Keeps s fun a => (x.equals k).Holds a.int
    rw [Store.impose_equals]
    exact (IntVar.instantiate_keeps hs hx k).congr hs fun a ha => IntVar.holds_equals hx ha k
  holds := fun a ha => IntVar.holds_equals hx ha k

theorem tests_differs (hs : s.Wf) (hx : x.source.Ranges Width.value s)
    (hk : x.Removable s k) : Tests x s (.impose (x.differs k)) fun v => v ≠ k where
  place := ⟨_, rfl, (x.subject?_values k).2⟩
  keeps := by
    show (s.impose _).Keeps s fun a => (x.differs k).Holds a.int
    rw [Store.impose_differs]
    exact (IntVar.removeValue_keeps hs hx hk).congr hs fun a ha => IntVar.holds_differs hx ha k
  holds := fun a ha => IntVar.holds_differs hx ha k

/-- Every value that a variable takes is its value under some admitted valuation. -/
theorem exists_exactValue (hs : s.Wf) (hk : x.Takes s k) :
    ∃ a, s.Admits a ∧ x.exactValue a.int = k := by
  obtain ⟨v, hv, rfl⟩ := hk
  obtain ⟨a, ha⟩ := hs.exists_admits
  refine ⟨a.withInt x.base v, ha.withInt hv, ?_⟩
  rw [IntVar.exactValue_eq, Valuation.int_withInt_self]

/-- In a store that differs at one variable, a valuation can be changed there. -/
theorem Store.NarrowedAt.admits {z : IntId} (h : NarrowedAt s z t) {a : Valuation}
    (ha : s.Admits a) {v : Int} (hv : (t.int z).contains v = true) :
    t.Admits (a.withInt z v) := by
  obtain ⟨d, hd⟩ := h.ints
  refine ⟨fun y => ?_, fun y => ?_, fun g => ?_⟩
  · show (t.int y).contains (if y = z then v else a.int y) = true
    by_cases heq : y = z
    · rw [if_pos heq, heq]
      exact hv
    · have hsame : t.int y = s.int y := by
        unfold Store.int
        rw [hd]
        refine Table.getD_modify_of_ne (fun hindex => heq ?_) ..
        cases y
        cases z
        exact congrArg IntId.mk hindex.symm
      rw [if_neg heq, hsame]
      exact ha.int y
  · unfold Store.set
    rw [h.sets]
    exact ha.set y
  · unfold Store.graph
    rw [h.graphs]
    exact ha.graph g

/-- Tests that some value passes, that exclude each other and of which every value passes one. -/
theorem divides_of_tests (tests : List (Decision × (Int → Prop))) (hs : s.Wf)
    (hx : s.knows (.int x.base) = true) (htests : ∀ c ∈ tests, Tests x s c.1 c.2)
    (hpassed : ∀ c ∈ tests, ∃ k, x.Takes s k ∧ c.2 k)
    (hdisjoint : tests.Pairwise fun c c' => ∀ k, c.2 k → ¬ c'.2 k)
    (hcover : ∀ k, x.Takes s k → ∃ c ∈ tests, c.2 k) :
    Divides s (tests.map Prod.fst) ∧ Covers s (tests.map Prod.fst) := by
  -- each alternative has a value that passes, so that carrying it out cannot fail
  have hne : ∀ c ∈ tests, (c.1.apply s).changed? ≠ none := by
    intro c hc
    obtain ⟨k, hk, hpass⟩ := hpassed c hc
    obtain ⟨a, ha, rfl⟩ := exists_exactValue hs hk
    exact changed?_ne_none (htests c hc).keeps ⟨a, ha, ((htests c hc).holds a ha).mpr hpass⟩
  have hnarrowed : ∀ c ∈ tests, Store.NarrowedAt s x.base (c.1.apply s).store := by
    intro c hc
    obtain ⟨p, hp, hsubject⟩ := (htests c hc).place
    rw [hp]
    exact narrowedAt_impose hs hsubject
  refine ⟨⟨?_, ?_, ?_, ?_⟩, ?_⟩
  · intro d hd
    obtain ⟨c, hc, rfl⟩ := List.mem_map.mp hd
    exact (htests c hc).known hx
  · intro d hd
    obtain ⟨c, hc, rfl⟩ := List.mem_map.mp hd
    exact (htests c hc).keeps
  · rw [List.pairwise_map]
    refine hdisjoint.imp_of_mem fun {c c'} hc hc' hexclude a ha hd hd' => ?_
    exact hexclude _ (((htests c hc).holds a ha).mp hd) (((htests c' hc').holds a ha).mp hd')
  · -- the stores share out the values of the variable below
    have hindex : x.base.index < s.ints.size := of_decide_eq_true hx
    have hshare := Store.contents_share hs hindex
      (tests.map fun c => (c.1.apply s).store) ?_ ?_
    · rwa [List.map_map] at hshare ⊢
    · intro t ht
      obtain ⟨c, hc, rfl⟩ := List.mem_map.mp ht
      exact hnarrowed c hc
    · rw [List.pairwise_map]
      refine hdisjoint.imp_of_mem fun {c c'} hc hc' hexclude v hv hv' => ?_
      obtain ⟨a, ha⟩ := hs.exists_admits
      have hin := (hnarrowed c hc).values v hv
      have hfirst := (htests c hc).keeps.exactly (hne c hc) _ ((hnarrowed c hc).admits ha hv)
      have hsecond := (htests c' hc').keeps.exactly (hne c' hc') _ ((hnarrowed c' hc').admits ha hv')
      have hadmits := ha.withInt hin
      exact hexclude _ (((htests c hc).holds _ hadmits).mp hfirst)
        (((htests c' hc').holds _ hadmits).mp hsecond)
  · intro a ha
    obtain ⟨c, hc, hpass⟩ := hcover _ (IntVar.takes_exactValue ha x)
    exact ⟨c.1, List.mem_map.mpr ⟨c, hc, rfl⟩, ((htests c hc).holds a ha).mpr hpass⟩

end

end FiniteDomain
