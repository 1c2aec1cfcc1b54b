import FiniteDomain.Branching.Brancher
import FiniteDomain.Proofs.Branching.Variables

/-! # Strategies that divide the store

    `Covering` says what a search needs of its branchers: as long as a variable is
    open they hand out branches that divide the store and cover every valuation.
    The strategies of the library do so for the variables they are about, if these
    exist (`Strategy.next_spec`); so those made for all variables of a store are
    covering (`Strategy.covering_of_fits`).

    A sequence remembers the position of the strategy that had the last branch.
    The invariant is that everything before it is fixed (`Strategy.Fits`).  It
    survives narrowing, and since the position goes back to the beginning with the
    search, it survives going back as well. -/

namespace FiniteDomain

/-! ### Arcs -/

namespace ArcSelection

variable {d : GraphDomain}

theorem mem_undecidedArcs (hd : d.Wf) {tail head : Nat} :
    (tail, head) ∈ undecidedArcs d
      ↔ d.envelope.hasArc tail head = true ∧ d.kernel.hasArc tail head = false := by
  unfold undecidedArcs Digraph.arcList
  simp only [List.mem_filter, List.mem_flatMap, List.mem_range, List.mem_map, Prod.mk.injEq,
    hd.envelope.mem_successorsOf, Bool.not_eq_true']
  refine and_congr_left' ⟨?_, fun harc => ?_⟩
  · rintro ⟨t, -, h, harc, rfl, rfl⟩
    exact harc
  · refine ⟨tail, ?_, head, harc, rfl, rfl⟩
    rw [hd.envelope.successors.size]
    exact (hd.envelope.lt_of_hasArc harc).1

/-- What a choice among arcs comes to. -/
structure Chooses (d : GraphDomain) (arc? : Option (Nat × Nat)) : Prop where
  /-- Nothing is chosen only if every possible arc is certain. -/
  decided : arc? = none → ∀ tail head, d.envelope.hasArc tail head = true →
    d.kernel.hasArc tail head = true
  /-- What is chosen is possible and not certain. -/
  undecided : ∀ tail head, arc? = some (tail, head) →
    d.envelope.hasArc tail head = true ∧ d.kernel.hasArc tail head = false

theorem decided_of_nil (hd : d.Wf) (h : undecidedArcs d = []) :
    ∀ tail head, d.envelope.hasArc tail head = true → d.kernel.hasArc tail head = true := by
  intro tail head harc
  by_contra hout
  have hmem := (mem_undecidedArcs hd).mpr ⟨harc, Bool.eq_false_iff.mpr hout⟩
  rw [h] at hmem
  exact List.not_mem_nil hmem

theorem chooses_first (hd : d.Wf) : Chooses d (firstUndecidedArc? d) := by
  rw [← head?_undecidedArcs]
  refine ⟨fun h => decided_of_nil hd (List.head?_eq_none_iff.mp h), fun tail head h => ?_⟩
  exact (mem_undecidedArcs hd).mp (List.mem_of_head? h)

/-- Every rule chooses an undecided arc, unless there is none. -/
theorem select_spec (selection : ArcSelection) (hd : d.Wf)
    (hsource : ∀ source, selection = .pathExtension source → source < d.order) (r : Random) :
    ∃ arc? r', selection.select d r = .ok (arc?, r') ∧ Chooses d arc? := by
  cases selection with
  | lexicographic => exact ⟨_, _, rfl, chooses_first hd⟩
  | pathExtension source =>
    simp only [select, if_neg (Nat.not_le.mpr (hsource source rfl)), bind, Except.bind]
    split
    -- the arc continues the path from the source
    next head hfind =>
      have hout := List.find?_some hfind
      refine ⟨_, _, rfl, nofun, fun t h heq => ?_⟩
      cases heq
      exact ⟨hd.envelope.mem_successorsOf.mp (List.mem_of_find?_eq_some hfind),
        (Bool.not_eq_true' _).mp hout⟩
    next => exact ⟨_, _, rfl, chooses_first hd⟩
  | random =>
    simp only [select]
    by_cases hempty : undecidedArcs d = []
    · rw [hempty]
      exact ⟨_, _, rfl, fun _ => decided_of_nil hd hempty, nofun⟩
    · have hlt := r.below_lt (List.length_pos_iff.mpr hempty)
      rw [if_neg (by rwa [List.isEmpty_iff])]
      refine ⟨_, _, rfl, ?_⟩
      rw [List.getElem?_eq_getElem hlt]
      refine ⟨nofun, fun tail head heq => ?_⟩
      refine (mem_undecidedArcs hd).mp ?_
      rw [← Option.some.inj heq]
      exact List.getElem_mem hlt

end ArcSelection

/-! ### What a search needs of its branchers -/

/-- The branch, if there is one, divides the store and covers it. -/
def Serves (s : Store) (branch? : Option Branch) : Prop :=
  ∀ branch, branch? = some branch → Divides s branch.alternatives ∧ Covers s branch.alternatives

/-- In searches from the root, branchers that fit the store serve it until everything is fixed. -/
structure Covering {B : Type} [Brancher B] (root : Store) (fits : Store → B → Prop) : Prop where
  /-- There is a branch as long as a variable is open. -/
  next : ∀ {s : Store} {b : B} (r : Random), root.Narrower s → fits s b →
    ∃ branch? b' r', Brancher.next b s r = .ok (branch?, b', r') ∧ fits s b' ∧ Serves s branch?
      ∧ (branch? = none → ∀ v, s.knows v = true → s.Settles v)
  /-- A brancher fits narrower stores. -/
  narrower : ∀ {s t : Store} {b : B}, root.Narrower s → s.Narrower t → fits s b → fits t b
  /-- Going back, it fits the store that the search goes back to. -/
  back : ∀ {s t : Store} {b : B}, root.Narrower t → fits s b → fits t (Brancher.onBacktrack b)
  /-- A solution changes nothing. -/
  solution : ∀ {s : Store} {b : B}, root.Narrower s → fits s b → fits s (Brancher.onSolution b s)
  /-- The domains account for all branches. -/
  excess : ∀ {s : Store} {b : B}, fits s b → Brancher.excess b = 1

/-- In searches from the root, branchers that fit the store serve it; a store that they have nothing
    left to decide in is final. -/
structure Serving {B : Type} [Brancher B] (root : Store) (fits : Store → B → Prop)
    (final : Store → Prop) : Prop where
  /-- There is a branch as long as the store is not final. -/
  next : ∀ {s : Store} {b : B} (r : Random), root.Narrower s → fits s b →
    ∃ branch? b' r', Brancher.next b s r = .ok (branch?, b', r') ∧ fits s b' ∧ Serves s branch?
      ∧ (branch? = none → final s)
  /-- A brancher fits narrower stores. -/
  narrower : ∀ {s t : Store} {b : B}, root.Narrower s → s.Narrower t → fits s b → fits t b
  /-- Going back, it fits the store that the search goes back to. -/
  back : ∀ {s t : Store} {b : B}, root.Narrower t → fits s b → fits t (Brancher.onBacktrack b)
  /-- A solution changes nothing. -/
  solution : ∀ {s : Store} {b : B}, root.Narrower s → fits s b → fits s (Brancher.onSolution b s)
  /-- The domains account for all branches. -/
  excess : ∀ {s : Store} {b : B}, fits s b → Brancher.excess b = 1

/-- All variables of the store are fixed. -/
def Store.Fixed (s : Store) : Prop := ∀ v, s.knows v = true → s.Settles v

theorem Covering.serving {B : Type} [Brancher B] {root : Store} {fits : Store → B → Prop}
    (cov : Covering root fits) : Serving root fits Store.Fixed :=
  ⟨cov.next, cov.narrower, cov.back, cov.solution, cov.excess⟩

/-- In searches from the store the brancher serves it until everything is fixed. -/
def Decides {B : Type} [Brancher B] (s : Store) (b : B) : Prop :=
  ∃ fits : Store → B → Prop, Covering s fits ∧ fits s b

/-! ### Strategies -/

namespace Strategy

variable {root s t : Store}

/-- Deciding an element of a set. -/
theorem nextElement?_spec (hs : s.Wf) (direction : Extremum) {ys : List SetId}
    (hknown : ∀ y ∈ ys, s.knows (.set y) = true) :
    ∃ branch?, nextElement? direction ys s = .ok branch? ∧ Serves s branch?
      ∧ (branch? = none ↔ ∀ y ∈ ys, (s.set y).isFixed = true) := by
  obtain ⟨y?, hselect, hnone, hsome⟩ := selectSet?_spec direction hknown
  simp only [nextElement?, hselect, bind, Except.bind]
  cases y? with
  | none => exact ⟨none, rfl, nofun, fun _ => hnone rfl, fun _ => rfl⟩
  | some y =>
    simp only
    obtain ⟨hy, hopen⟩ := hsome y rfl
    have hwf := hs.set y
    have hnotall : ¬ ∀ z ∈ ys, (s.set z).isFixed = true := fun hall =>
      Bool.eq_false_iff.mp hopen (hall y hy)
    cases hfind : (s.set y).envelopeElements.find? fun e => !(s.set y).inKernel e with
    | none =>
      -- an open set has an optional element
      refine absurd ((SetDomain.isFixed_iff hwf).mpr fun e he => ?_) (Bool.eq_false_iff.mp hopen)
      have hout := List.find?_eq_none.mp hfind e ((SetDomain.mem_envelopeElements hwf).mpr he)
      rwa [Bool.not_eq_true', Bool.not_eq_false] at hout
    | some e =>
      have hout := List.find?_some hfind
      refine ⟨_, rfl, fun branch hbranch => ?_, nofun, fun hall => (hnotall hall).elim⟩
      cases hbranch
      exact divides_element hs (hknown y hy)
        ((SetDomain.mem_envelopeElements hwf).mp (List.mem_of_find?_eq_some hfind))
        ((Bool.not_eq_true' _).mp hout)

/-- Deciding an arc or a node of a graph. -/
theorem nextArc?_spec (hs : s.Wf) {g : GraphId} (hknown : s.knows (.graph g) = true)
    (selection : ArcSelection)
    (hsource : ∀ source, selection = .pathExtension source → source < (s.graph g).order)
    (r : Random) :
    ∃ branch? r', nextArc? g selection s r = .ok (branch?, r') ∧ Serves s branch?
      ∧ (branch? = none ↔ (s.graph g).isFixed = true) := by
  have hwf := hs.graph g
  obtain ⟨arc?, r', hselect, hchooses⟩ := selection.select_spec hwf hsource r
  simp only [nextArc?, Filter.require_eq hknown, hselect, bind, Except.bind]
  cases arc? with
  | some arc =>
    obtain ⟨tail, head⟩ := arc
    obtain ⟨hpossible, hopen⟩ := hchooses.undecided tail head rfl
    refine ⟨_, _, rfl, fun branch hbranch => ?_, nofun, fun hfixed => ?_⟩
    · cases hbranch
      exact divides_arc hs hknown hpossible hopen
    · exact absurd (((GraphDomain.isFixed_iff hwf).mp hfixed).2 tail head hpossible)
        (Bool.eq_false_iff.mp hopen)
  | none =>
    -- all arcs are decided, and an undecided node is looked for
    cases hfind : (s.graph g).envelope.nodeList.find? fun n => !(s.graph g).kernel.hasNode n with
    | none =>
      refine ⟨none, _, rfl, nofun, fun _ => ?_, fun _ => rfl⟩
      refine (GraphDomain.isFixed_iff hwf).mpr ⟨fun n hn => ?_, hchooses.decided rfl⟩
      have hout := List.find?_eq_none.mp hfind n (BitSet.mem_toList.mpr hn)
      rwa [Bool.not_eq_true', Bool.not_eq_false] at hout
    | some n =>
      have hpossible := BitSet.mem_toList.mp (List.mem_of_find?_eq_some hfind)
      have hout := List.find?_some hfind
      have hopen := (Bool.not_eq_true' _).mp hout
      refine ⟨_, _, rfl, fun branch hbranch => ?_, nofun, fun hfixed => ?_⟩
      · cases hbranch
        exact divides_node hs hknown (hwf.envelope.lt_of_hasNode hpossible) hpossible hopen
      · exact absurd (((GraphDomain.isFixed_iff hwf).mp hfixed).1 n hpossible)
          (Bool.eq_false_iff.mp hopen)

mutual

/-- The variables that a strategy decides. -/
def targets : Strategy → List VariableId
  | .variables _ vars _ => vars.map fun x => .int x.base
  | .sets _ ys => ys.map .set
  | .arcs g _ => [.graph g]
  | .scripted _ => []
  | .sequence branchers _ => targetsOf branchers

/-- The variables that the listed strategies decide. -/
def targetsOf : List Strategy → List VariableId
  | [] => []
  | b :: rest => targets b ++ targetsOf rest

end

mutual

/-- The variables of the strategy exist at the root, views stay inside the range, and whatever a
    sequence has left behind is fixed. -/
def Fits (root s : Store) : Strategy → Prop
  | .variables _ vars _ =>
    ∀ x ∈ vars, root.knows (.int x.base) = true ∧ x.Ranges Width.interior root
  | .sets _ ys => ∀ y ∈ ys, root.knows (.set y) = true
  | .arcs g selection =>
    root.knows (.graph g) = true
      ∧ ∀ source, selection = .pathExtension source → source < (root.graph g).order
  | .scripted _ => False
  | .sequence branchers position => FitsFrom root s branchers position

/-- The strategies fit, and those before the position have nothing left to decide. -/
def FitsFrom (root s : Store) : List Strategy → (position : Nat) → Prop
  | [], _ => True
  | b :: rest, position + 1 =>
    (∀ v ∈ targets b, s.Settles v) ∧ Fits root s b ∧ FitsFrom root s rest position
  | b :: rest, 0 => Fits root s b ∧ FitsFrom root s rest 0

end

/-- What the answer of a strategy comes to. -/
structure Answers (root s : Store) (b : Strategy) (branch? : Option Branch) (b' : Strategy) :
    Prop where
  serves : Serves s branch?
  fits : Fits root s b'
  targets : targets b' = targets b
  settled : branch? = none ↔ ∀ v ∈ Strategy.targets b, s.Settles v

/-- What the answer of listed strategies comes to. -/
structure AnswersFrom (root s : Store) (branchers : List Strategy) (branch? : Option Branch)
    (branchers' : List Strategy) (position' : Nat) : Prop where
  serves : Serves s branch?
  fits : FitsFrom root s branchers' position'
  targets : targetsOf branchers' = targetsOf branchers
  settled : branch? = none ↔ ∀ v ∈ targetsOf branchers, s.Settles v

theorem next_variables (hroot : root.Narrower s) {selector : VariableSelector}
    {vars : List IntVar} {values : ValueSelector}
    (h : Fits root s (.variables selector vars values)) (r : Random) :
    ∃ branch? b' r', next (.variables selector vars values) s r = .ok (branch?, b', r')
      ∧ Answers root s (.variables selector vars values) branch? b' := by
  have hs := hroot.wf
  have hknown : ∀ x ∈ vars, s.knows (.int x.base) = true := fun x hx =>
    (hroot.knows _).trans (h x hx).1
  have hranges : ∀ x ∈ vars, x.Ranges Width.interior s := fun x hx => (h x hx).2.narrower hroot
  have hfixed : ∀ x ∈ vars, x.isFixed s = (s.int x.base).isFixed := fun x hx =>
    IntVar.isFixed_eq hs ((hranges x hx).mono fun _ => Width.fits_of_interior)
  obtain ⟨x?, selector', r', hselect, hchooses⟩ := selector.select_spec hknown r
  simp only [next, hselect, bind, Except.bind]
  cases x? with
  | none =>
    refine ⟨_, _, _, rfl, nofun, h, rfl, fun _ v hv => ?_, fun _ => rfl⟩
    obtain ⟨x, hx, rfl⟩ := List.mem_map.mp hv
    exact (hfixed x hx).symm.trans (hchooses.fixed rfl x hx)
  | some x =>
    obtain ⟨hx, hopen⟩ := hchooses.opened x rfl
    obtain ⟨branch, r'', hbranch, hserves⟩ :=
      values.select_spec hs (hranges x hx) (hknown x hx) hopen r'
    simp only [hbranch]
    refine ⟨_, _, _, rfl, fun other hother => ?_, h, rfl, nofun, fun hall => ?_⟩
    · cases hother
      exact hserves
    · have hsettles : (s.int x.base).isFixed = true :=
        hall (.int x.base) (List.mem_map.mpr ⟨x, hx, rfl⟩)
      rw [hfixed x hx, hsettles] at hopen
      cases hopen

mutual

/-- A strategy that fits answers with a branch that serves, or everything is fixed. -/
theorem next_spec (hroot : root.Narrower s) (b : Strategy) (h : Fits root s b) (r : Random) :
    ∃ branch? b' r', next b s r = .ok (branch?, b', r') ∧ Answers root s b branch? b' := by
  match b, h with
  | .variables selector vars values, h => exact next_variables hroot h r
  | .sets direction ys, h =>
    obtain ⟨branch?, hnext, hserves, hnone⟩ := nextElement?_spec hroot.wf direction fun y hy =>
      (hroot.knows _).trans (h y hy)
    simp only [next, hnext, bind, Except.bind]
    refine ⟨_, _, _, rfl, hserves, h, rfl, ?_⟩
    rw [targets, List.forall_mem_map]
    exact hnone
  | .arcs g selection, h =>
    obtain ⟨branch?, r', hnext, hserves, hnone⟩ := nextArc?_spec hroot.wf
      ((hroot.knows _).trans h.1) selection (fun source hsource => by
        rw [hroot.order]
        exact h.2 source hsource) r
    simp only [next, hnext, bind, Except.bind]
    refine ⟨_, _, _, rfl, hserves, h, rfl, ?_⟩
    rw [targets, List.forall_mem_singleton]
    exact hnone
  | .scripted branches, h => exact h.elim
  | .sequence branchers position, h =>
    obtain ⟨branch?, branchers', position', r', hnext, hanswer⟩ :=
      nextOf_spec hroot branchers position h r
    simp only [next, hnext, bind, Except.bind]
    exact ⟨_, _, _, rfl, hanswer.serves, hanswer.fits, hanswer.targets, hanswer.settled⟩
termination_by structural b

/-- The first of the strategies from the position on that has a branch answers. -/
theorem nextOf_spec (hroot : root.Narrower s) (branchers : List Strategy) (position : Nat)
    (h : FitsFrom root s branchers position) (r : Random) :
    ∃ branch? branchers' position' r',
      nextOf branchers position s r = .ok (branch?, branchers', position', r')
        ∧ AnswersFrom root s branchers branch? branchers' position' := by
  cases branchers with
  | nil =>
    have hsettled : ∀ v ∈ targetsOf [], s.Settles v := fun v hv => absurd hv List.not_mem_nil
    exact ⟨none, [], position, r, rfl, nofun, h, rfl, fun _ => hsettled, fun _ => rfl⟩
  | cons b rest =>
    -- a strategy that has nothing left to decide is passed over
    have hpass : ∀ {b' : Strategy} {branch? : Option Branch} {rest' : List Strategy}
        {position' : Nat}, Fits root s b' → targets b' = targets b →
        (∀ v ∈ targets b, s.Settles v) → AnswersFrom root s rest branch? rest' position' →
        AnswersFrom root s (b :: rest) branch? (b' :: rest') (position' + 1) := by
      intro b' branch? rest' position' hfits htargets hsettled hanswer
      refine ⟨hanswer.serves, ⟨fun v hv => hsettled v (htargets ▸ hv), hfits, hanswer.fits⟩, ?_, ?_⟩
      · simp only [targetsOf, htargets, hanswer.targets]
      · rw [hanswer.settled, targetsOf, List.forall_mem_append, and_iff_right hsettled]
    cases position with
    | succ position =>
      obtain ⟨hsettled, hb, hrest⟩ := h
      obtain ⟨branch?, rest', position', r', hnext, hanswer⟩ := nextOf_spec hroot rest position hrest r
      simp only [nextOf, hnext, bind, Except.bind]
      exact ⟨_, _, _, _, rfl, hpass hb rfl hsettled hanswer⟩
    | zero =>
      obtain ⟨hb, hrest⟩ := h
      obtain ⟨branch?, b', r', hnext, hanswer⟩ := next_spec hroot b hb r
      simp only [nextOf, hnext, bind, Except.bind]
      cases branch? with
      | some branch =>
        refine ⟨_, _, _, _, rfl, hanswer.serves, ⟨hanswer.fits, hrest⟩, ?_, nofun, fun hall => ?_⟩
        · simp only [targetsOf, hanswer.targets]
        · exact hanswer.settled.mpr (List.forall_mem_append.mp hall).1
      | none =>
        obtain ⟨branch?, rest', position', r'', hnext', hanswer'⟩ := nextOf_spec hroot rest 0 hrest r'
        simp only [hnext']
        exact ⟨_, _, _, _, rfl, hpass hanswer.fits hanswer.targets (hanswer.settled.mp rfl) hanswer'⟩
termination_by structural branchers

end

/-! ### Along a search -/

mutual

/-- What is fixed stays fixed. -/
theorem Fits.narrower (hs : s.Wf) (hst : s.Narrower t) (b : Strategy) (h : Fits root s b) :
    Fits root t b := by
  match b, h with
  | .variables _ _ _, h => exact h
  | .sets _ _, h => exact h
  | .arcs _ _, h => exact h
  | .sequence branchers position, h => exact FitsFrom.narrower hs hst branchers position h
termination_by structural b

theorem FitsFrom.narrower (hs : s.Wf) (hst : s.Narrower t) (branchers : List Strategy)
    (position : Nat) (h : FitsFrom root s branchers position) :
    FitsFrom root t branchers position := by
  match branchers, position, h with
  | [], _, h => exact h
  | b :: rest, position + 1, h =>
    exact ⟨fun v hv => hst.settles hs (h.1 v hv), Fits.narrower hs hst b h.2.1,
      FitsFrom.narrower hs hst rest position h.2.2⟩
  | b :: rest, 0, h =>
    exact ⟨Fits.narrower hs hst b h.1, FitsFrom.narrower hs hst rest 0 h.2⟩
termination_by structural branchers

end

mutual

/-- From the beginning a strategy fits whatever store it is used in next. -/
theorem fits_rewind (b : Strategy) (h : Fits root s b) :
    Fits root t (rewind b) ∧ targets (rewind b) = targets b := by
  match b, h with
  | .variables _ _ _, h => exact ⟨h, rfl⟩
  | .sets _ _, h => exact ⟨h, rfl⟩
  | .arcs _ _, h => exact ⟨h, rfl⟩
  | .sequence branchers position, h => exact fitsFrom_rewindAll branchers position h
termination_by structural b

theorem fitsFrom_rewindAll (branchers : List Strategy) (position : Nat)
    (h : FitsFrom root s branchers position) :
    FitsFrom root t (rewindAll branchers) 0
      ∧ targetsOf (rewindAll branchers) = targetsOf branchers := by
  match branchers, position, h with
  | [], _, _ => exact ⟨trivial, rfl⟩
  | b :: rest, position + 1, h =>
    obtain ⟨hb, htargets⟩ := fits_rewind b h.2.1
    obtain ⟨hrest, htargets'⟩ := fitsFrom_rewindAll rest position h.2.2
    exact ⟨⟨hb, hrest⟩, by simp only [rewindAll, targetsOf, htargets, htargets']⟩
  | b :: rest, 0, h =>
    obtain ⟨hb, htargets⟩ := fits_rewind b h.1
    obtain ⟨hrest, htargets'⟩ := fitsFrom_rewindAll rest 0 h.2
    exact ⟨⟨hb, hrest⟩, by simp only [rewindAll, targetsOf, htargets, htargets']⟩
termination_by structural branchers

end

mutual

theorem scriptExcess_eq (b : Strategy) (h : Fits root s b) : scriptExcess b = 1 := by
  match b, h with
  | .variables _ _ _, _ => rfl
  | .sets _ _, _ => rfl
  | .arcs _ _, _ => rfl
  | .sequence branchers position, h => exact scriptExcessOf_eq branchers position h
termination_by structural b

theorem scriptExcessOf_eq (branchers : List Strategy) (position : Nat)
    (h : FitsFrom root s branchers position) : scriptExcessOf branchers = 1 := by
  match branchers, position, h with
  | [], _, _ => rfl
  | b :: rest, position + 1, h =>
    simp only [scriptExcessOf, scriptExcess_eq b h.2.1, scriptExcessOf_eq rest position h.2.2]
  | b :: rest, 0, h =>
    simp only [scriptExcessOf, scriptExcess_eq b h.1, scriptExcessOf_eq rest 0 h.2]
termination_by structural branchers

end

/-- From the beginning a strategy decides the same variables. -/
theorem fits_rewind_decided {decided : VariableId → Prop} {b : Strategy}
    (h : Fits root s b ∧ ∀ v, decided v → v ∈ targets b) :
    Fits root t (rewind b) ∧ ∀ v, decided v → v ∈ targets (rewind b) := by
  obtain ⟨hrewind, htargets⟩ := fits_rewind (t := t) b h.1
  refine ⟨hrewind, fun v hv => ?_⟩
  rw [htargets]
  exact h.2 v hv

/-- Strategies that fit and decide certain variables serve until these are fixed. -/
theorem serving_of_fits (root : Store) (decided : VariableId → Prop) :
    Serving root (fun s b => Fits root s b ∧ ∀ v, decided v → v ∈ targets b)
      fun s => ∀ v, decided v → s.Settles v where
  next := by
    rintro s b r hroot ⟨hfits, hall⟩
    obtain ⟨branch?, b', r', hnext, hanswer⟩ := next_spec hroot b hfits r
    refine ⟨branch?, b', r', hnext, ⟨hanswer.fits, fun v hv => ?_⟩, hanswer.serves,
      fun hnothing v hv => ?_⟩
    · rw [hanswer.targets]
      exact hall v hv
    · exact hanswer.settled.mp hnothing v (hall v hv)
  narrower := fun hroot hst h => ⟨Fits.narrower hroot.wf hst _ h.1, h.2⟩
  -- going back and a solution both send the strategy back to its beginning
  back := fun _ h => fits_rewind_decided h
  solution := fun _ h => fits_rewind_decided h
  excess := fun h => scriptExcess_eq _ h.1

/-- Strategies that fit and decide every variable of the root are covering. -/
theorem covering_of_fits (root : Store) :
    Covering root fun s b => Fits root s b ∧ ∀ v, root.knows v = true → v ∈ targets b := by
  have hserving := serving_of_fits root fun v => root.knows v = true
  refine ⟨fun r hroot h => ?_, hserving.narrower, hserving.back, hserving.solution,
    hserving.excess⟩
  obtain ⟨branch?, b', r', hnext, hfits, hserves, hfinal⟩ := hserving.next r hroot h
  exact ⟨branch?, b', r', hnext, hfits, hserves, fun hnothing v hv =>
    hfinal hnothing v ((hroot.knows v).symm.trans hv)⟩

/-! ### Strategies for all variables -/

theorem fitsFrom_zero {branchers : List Strategy} :
    FitsFrom root s branchers 0 ↔ ∀ b ∈ branchers, Fits root s b := by
  induction branchers with
  | nil => exact ⟨fun _ b hb => absurd hb List.not_mem_nil, fun _ => trivial⟩
  | cons b rest ih =>
    rw [List.forall_mem_cons, ← ih]
    rfl

theorem mem_targetsOf {branchers : List Strategy} {v : VariableId} :
    v ∈ targetsOf branchers ↔ ∃ b ∈ branchers, v ∈ targets b := by
  induction branchers with
  | nil => exact ⟨fun h => absurd h List.not_mem_nil, fun ⟨b, hb, _⟩ => absurd hb List.not_mem_nil⟩
  | cons b rest ih =>
    simp only [List.mem_cons, exists_eq_or_imp, ← ih]
    exact List.mem_append

theorem mem_intIds {x : IntId} : x ∈ s.intIds ↔ s.knows (.int x) = true := by
  simp only [Store.intIds, Table.keys, List.mem_map, List.mem_range, Store.knows, decide_eq_true_eq]
  exact ⟨fun ⟨_, hlt, heq⟩ => heq ▸ hlt, fun hlt => ⟨_, hlt, rfl⟩⟩

theorem mem_setIds {y : SetId} : y ∈ s.setIds ↔ s.knows (.set y) = true := by
  simp only [Store.setIds, Table.keys, List.mem_map, List.mem_range, Store.knows, decide_eq_true_eq]
  exact ⟨fun ⟨_, hlt, heq⟩ => heq ▸ hlt, fun hlt => ⟨_, hlt, rfl⟩⟩

theorem mem_graphIds {g : GraphId} : g ∈ s.graphIds ↔ s.knows (.graph g) = true := by
  simp only [Store.graphIds, Table.keys, List.mem_map, List.mem_range, Store.knows,
    decide_eq_true_eq]
  exact ⟨fun ⟨_, hlt, heq⟩ => heq ▸ hlt, fun hlt => ⟨_, hlt, rfl⟩⟩

/-- What a strategy for all variables of a store consists of. -/
theorem mem_covering {selector : VariableSelector} {values : ValueSelector} {direction : Extremum}
    {selection : ArcSelection} {branchers : List Strategy} {position : Nat}
    (h : covering root selector values direction selection = .sequence branchers position)
    (b : Strategy) :
    b ∈ branchers
      ↔ (root.intIds ≠ [] ∧ b = .variables selector (root.intIds.map .plain) values)
        ∨ (root.setIds ≠ [] ∧ b = .sets direction root.setIds)
        ∨ ∃ g ∈ root.graphIds, b = .arcs g selection := by
  cases h
  simp only [List.mem_append, List.mem_ite_nil_left, List.mem_singleton, List.mem_map,
    List.isEmpty_iff, or_assoc, eq_comm (b := b), ne_eq]

/-- A strategy made for all variables of a store decides them. -/
theorem fits_covering (selector : VariableSelector) (values : ValueSelector)
    (direction : Extremum) {selection : ArcSelection}
    (hints : ∀ x, root.knows (.int x) = true → (IntVar.plain x).Ranges Width.interior root)
    (hsource : ∀ g, root.knows (.graph g) = true → ∀ source, selection = .pathExtension source →
      source < (root.graph g).order) :
    Fits root s (covering root selector values direction selection)
      ∧ ∀ v, root.knows v = true → v ∈ targets (covering root selector values direction selection) := by
  -- the parts are one strategy for the integers, one for the sets and one for each graph
  have hmem := mem_covering
    (show covering root selector values direction selection = .sequence _ 0 from rfl)
  constructor
  · refine fitsFrom_zero.mpr fun b hb => ?_
    rcases (hmem b).mp hb with ⟨-, rfl⟩ | ⟨-, rfl⟩ | ⟨g, hg, rfl⟩
    · intro x hx
      obtain ⟨z, hz, rfl⟩ := List.mem_map.mp hx
      exact ⟨mem_intIds.mp hz, hints z (mem_intIds.mp hz)⟩
    · exact fun y hy => mem_setIds.mp hy
    · exact ⟨mem_graphIds.mp hg, hsource g (mem_graphIds.mp hg)⟩
  · intro v hv
    refine mem_targetsOf.mpr ?_
    cases v with
    | int x =>
      have hx := mem_intIds.mpr hv
      refine ⟨_, (hmem _).mpr (Or.inl ⟨List.ne_nil_of_mem hx, rfl⟩), ?_⟩
      exact List.mem_map.mpr ⟨_, List.mem_map.mpr ⟨x, hx, rfl⟩, rfl⟩
    | set y =>
      have hy := mem_setIds.mpr hv
      refine ⟨_, (hmem _).mpr (Or.inr (Or.inl ⟨List.ne_nil_of_mem hy, rfl⟩)), ?_⟩
      exact List.mem_map.mpr ⟨y, hy, rfl⟩
    | graph g =>
      exact ⟨_, (hmem _).mpr (Or.inr (Or.inr ⟨g, mem_graphIds.mpr hv, rfl⟩)), List.mem_cons_self⟩

end Strategy

end FiniteDomain
