import FiniteDomain.Proofs.Propagation.Queue

/-! # Four lists

    Seen from outside, the roster of waiting propagators is four lists, one for
    each priority: who joins goes to the end of the list of its priority unless
    it stands in one of them, who leaves is the head of the cheapest list that
    is not empty.

    The flags, the number and the heap of the roster repeat what its lines say.
    That they do so is `Roster.Agrees`, which every operation keeps; so one step
    of the roster is one step of the lists, and a run of the roster from the
    empty one is a run of the lists. -/

namespace FiniteDomain

/-! ### Queues of either kind -/

/-- What is done to a queue. -/
inductive QueueAction where
  /-- A propagator of a priority joins. -/
  | enqueue (p : PropagatorId) (priority : Priority)
  /-- Whoever is next leaves. -/
  | pop
  /-- Everybody leaves. -/
  | clear
deriving Repr

/-- What is seen of a queue after an action. -/
structure QueueView where
  /-- Who left. -/
  popped? : Option PropagatorId
  /-- Nobody waits now. -/
  isEmpty : Bool
  /-- Who waits now. -/
  isWaiting : PropagatorId → Bool

/-- The operations of a kind of queue. -/
structure Discipline (σ : Type) where
  /-- A propagator of a priority joins. -/
  enqueue : σ → PropagatorId → Priority → σ
  /-- Whoever is next leaves. -/
  pop? : σ → Option (PropagatorId × σ)
  /-- Everybody leaves. -/
  clear : σ → σ
  /-- Nobody waits. -/
  isEmpty : σ → Bool
  /-- The propagator waits. -/
  isWaiting : σ → PropagatorId → Bool

namespace Discipline

variable {σ : Type} (d : Discipline σ)

/-- The answer to an action, and the queue after it. -/
def act (s : σ) : QueueAction → Option PropagatorId × σ
  | .enqueue p priority => (none, d.enqueue s p priority)
  | .pop =>
    match d.pop? s with
    | none => (none, s)
    | some (p, rest) => (some p, rest)
  | .clear => (none, d.clear s)

/-- The queue after some actions. -/
def run (s : σ) (actions : List QueueAction) : σ := actions.foldl (fun s a => (d.act s a).2) s

/-- What is seen during some actions. -/
def views (s : σ) : List QueueAction → List QueueView
  | [] => []
  | a :: rest =>
    let (popped?, s) := d.act s a
    ⟨popped?, d.isEmpty s, d.isWaiting s⟩ :: views s rest

end Discipline

/-- The roster as a kind of queue. -/
def Roster.discipline : Discipline Roster :=
  { enqueue := Roster.enqueue, pop? := Roster.pop?, clear := Roster.clear
    isEmpty := Roster.isEmpty, isWaiting := Roster.isWaiting }

/-! ### The lists -/

/-- The priorities, the cheapest first. -/
def Priority.all : List Priority := [.unary, .binary, .linear, .general]

/-- Every level is that of a priority. -/
theorem Priority.exists_level {level : Nat} (h : level < Priority.count) :
    ∃ priority : Priority, priority.level = level := by
  obtain rfl | rfl | rfl | rfl : level = 0 ∨ level = 1 ∨ level = 2 ∨ level = 3 := by
    simp only [Priority.count] at h
    omega
  · exact ⟨.unary, rfl⟩
  · exact ⟨.binary, rfl⟩
  · exact ⟨.linear, rfl⟩
  · exact ⟨.general, rfl⟩

/-- A list of propagators for each priority. -/
@[ext] structure Lanes where
  /-- The list of a priority. -/
  lane : Priority → List PropagatorId

namespace Lanes

/-- Nobody stands in a list. -/
def empty : Lanes := ⟨fun _ => []⟩

/-- Who stands in a list, the cheapest list first. -/
def all (l : Lanes) : List PropagatorId := Priority.all.flatMap l.lane

/-- The lists with another one for a priority. -/
def set (l : Lanes) (priority : Priority) (lane : List PropagatorId) : Lanes :=
  ⟨fun other => if other = priority then lane else l.lane other⟩

/-- The propagator joins the list of its priority at the end, unless it stands in one. -/
def enqueue (l : Lanes) (p : PropagatorId) (priority : Priority) : Lanes :=
  if p ∈ l.all then l else l.set priority (l.lane priority ++ [p])

/-- The head of the list of a priority leaves. -/
def leave? (l : Lanes) (priority : Priority) : Option (PropagatorId × Lanes) :=
  match l.lane priority with
  | [] => none
  | p :: rest => some (p, l.set priority rest)

/-- The head of the cheapest list that is not empty leaves. -/
def pop? (l : Lanes) : Option (PropagatorId × Lanes) := Priority.all.findSome? l.leave?

/-- The lists as a kind of queue. -/
def discipline : Discipline Lanes :=
  { enqueue := enqueue, pop? := pop?, clear := fun _ => empty
    isEmpty := fun l => l.all.isEmpty, isWaiting := fun l p => l.all.contains p }

variable {l : Lanes} {p : PropagatorId} {rest : List PropagatorId} {priority : Priority}

@[simp] theorem lane_set (other : Priority) (lane : List PropagatorId) :
    (l.set priority lane).lane other = if other = priority then lane else l.lane other := rfl

/-- The lists of other priorities do not change with one list. -/
theorem flatMap_set {priorities : List Priority} (h : priority ∉ priorities)
    (lane : List PropagatorId) :
    priorities.flatMap (l.set priority lane).lane = priorities.flatMap l.lane := by
  rw [List.flatMap_def, List.flatMap_def]
  refine congrArg List.flatten (List.map_congr_left fun other hother => if_neg ?_)
  rintro rfl
  exact h hother

/-- The first of some lists leaves the first of them that is not empty. -/
theorem findSome?_leave? {priorities : List Priority} (hnodup : priorities.Nodup)
    (h : priorities.flatMap l.lane = p :: rest) :
    ∃ priority ∈ priorities, ∃ lane,
      priorities.findSome? l.leave? = some (p, l.set priority lane)
        ∧ priorities.flatMap (l.set priority lane).lane = rest := by
  induction priorities with
  | nil => cases h
  | cons first priorities ih =>
    obtain ⟨hfirst, hnodup⟩ := List.nodup_cons.mp hnodup
    rw [List.flatMap_cons] at h
    cases hlane : l.lane first with
    | nil =>
      rw [hlane, List.nil_append] at h
      obtain ⟨priority, hmem, lane, hfind, hrest⟩ := ih hnodup h
      have hne : first ≠ priority := fun heq => hfirst (heq ▸ hmem)
      refine ⟨priority, List.mem_cons_of_mem _ hmem, lane, ?_, ?_⟩
      · rw [List.findSome?_cons, leave?, hlane]
        exact hfind
      · rw [List.flatMap_cons, hrest, lane_set, if_neg hne, hlane, List.nil_append]
    | cons a lane =>
      rw [hlane, List.cons_append] at h
      obtain ⟨rfl, rfl⟩ := List.cons.inj h
      refine ⟨first, List.mem_cons_self, lane, ?_, ?_⟩
      · rw [List.findSome?_cons, leave?, hlane]
      · rw [List.flatMap_cons, flatMap_set hfirst, lane_set, if_pos rfl]

/-- Whoever is next is the first of all, and the others stay. -/
theorem pop?_of_all (h : l.all = p :: rest) :
    ∃ l' : Lanes, l.pop? = some (p, l') ∧ l'.all = rest := by
  obtain ⟨priority, -, lane, hpop, hrest⟩ := findSome?_leave? (by decide) h
  exact ⟨_, hpop, hrest⟩

/-- Who is next, where the cheaper lists are empty. -/
theorem pop?_of_cheapest (hlane : l.lane priority = p :: rest)
    (hcheaper : ∀ other, other.level < priority.level → l.lane other = []) :
    l.pop? = some (p, l.set priority rest) := by
  cases priority with
  | unary => simp [pop?, leave?, Priority.all, hlane]
  | binary => simp [pop?, leave?, Priority.all, hlane, hcheaper .unary (by decide)]
  | linear =>
    simp [pop?, leave?, Priority.all, hlane, hcheaper .unary (by decide),
      hcheaper .binary (by decide)]
  | general =>
    simp [pop?, leave?, Priority.all, hlane, hcheaper .unary (by decide),
      hcheaper .binary (by decide), hcheaper .linear (by decide)]

theorem pop?_eq_none (h : l.all = []) : l.pop? = none := by
  refine List.findSome?_eq_none_iff.mpr fun priority hpriority => ?_
  rw [leave?, List.flatMap_eq_nil_iff.mp h priority hpriority]

/-- Popping as often as somebody waits takes everybody, in order, and leaves nobody. -/
theorem views_replicate_pop {n : Nat} (h : l.all.length = n) :
    (discipline.views l (.replicate n .pop)).map QueueView.popped? = l.all.map some
      ∧ (discipline.run l (.replicate n .pop)).all = [] := by
  induction n generalizing l with
  | zero =>
    rw [List.length_eq_zero_iff.mp h]
    exact ⟨rfl, List.length_eq_zero_iff.mp h⟩
  | succ n ih =>
    obtain ⟨p, rest, hall⟩ := List.exists_cons_of_length_eq_add_one h
    obtain ⟨l', hpop, hrest⟩ := pop?_of_all hall
    have hact : discipline.act l .pop = (some p, l') := by
      simp only [Discipline.act, discipline, hpop]
    obtain ⟨hviews, hrun⟩ := ih (l := l') (by
      rw [hall, List.length_cons] at h
      rw [hrest]
      omega)
    constructor
    · simp only [List.replicate_succ, Discipline.views, hact, List.map_cons, hviews, hall, hrest]
    · simpa only [List.replicate_succ, Discipline.run, List.foldl_cons, hact] using hrun

end Lanes

/-! ### The lists of a roster -/

namespace Roster

variable {r : Roster} {p : PropagatorId} {priority : Priority}

/-- The lines of a roster as lists. -/
def lanes (r : Roster) : Lanes := ⟨fun priority => (r.line priority.level).toList⟩

/-- A roster that agrees with its lines and has one for each priority. -/
structure Stands (r : Roster) : Prop extends r.Agrees where
  /-- There is a line for each priority. -/
  levels : r.lines.size = Priority.count

theorem stands_empty : empty.Stands where
  toAgrees := agrees_withLevels _
  levels := by simp [empty, withLevels]

theorem lanes_withLevels (levels : Nat) : (withLevels levels).lanes = Lanes.empty := by
  ext1
  funext priority
  simp only [lanes, line_withLevels, Fifo.toList_empty, Lanes.empty]

theorem Stands.level_lt (h : r.Stands) (priority : Priority) : priority.level < r.lines.size :=
  h.levels ▸ priority.level_lt_count

/-- The members of a roster are those of its lists, in order. -/
theorem Stands.members_eq (h : r.Stands) : r.members = r.lanes.all := by
  have hlines : r.lines.toList = Priority.all.map fun priority => r.line priority.level := by
    refine List.ext_getElem (by simp [h.levels, Priority.count, Priority.all]) fun i hi _ => ?_
    have hlt : i < r.lines.size := by simpa using hi
    obtain ⟨priority, rfl⟩ := Priority.exists_level (h.levels ▸ hlt)
    have hget : r.lines.toList[priority.level] = r.line priority.level := by
      simp [line, Array.getD_eq_getD_getElem?, Array.getElem?_eq_getElem hlt]
    cases priority <;> exact hget
  rw [members, hlines, List.flatMap_map]
  rfl

/-- The lists after one line has been changed. -/
theorem lanes_modify {s : Roster} (h : r.Stands) (priority : Priority)
    (change : Fifo PropagatorId → Fifo PropagatorId)
    (hlines : s.lines = r.lines.modify priority.level change) :
    s.lanes = r.lanes.set priority (change (r.line priority.level)).toList := by
  ext1
  funext other
  have hlevel : other.level = priority.level ↔ other = priority := by
    cases other <;> cases priority <;> decide
  simp only [lanes, Lanes.set, line_modify hlines (h.level_lt priority), hlevel]
  split <;> rfl

/-! ### Steps -/

theorem Stands.isWaiting_eq (h : r.Stands) (p : PropagatorId) :
    r.isWaiting p = r.lanes.all.contains p := by
  rw [Bool.eq_iff_iff, h.isWaiting_iff, h.members_eq, List.contains_iff_mem]

theorem Stands.isEmpty_eq (h : r.Stands) : r.isEmpty = r.lanes.all.isEmpty := by
  rw [isEmpty, h.count, h.members_eq]
  cases r.lanes.all <;> rfl

/-- Joining the roster is joining the lists. -/
theorem Stands.lanes_enqueue (h : r.Stands) (p : PropagatorId) (priority : Priority) :
    (r.enqueue p priority).lanes = r.lanes.enqueue p priority := by
  have hwaiting := h.isWaiting_eq p
  have hlevel : decide (r.lines.size ≤ priority.level) = false :=
    decide_eq_false (Nat.not_le.mpr (h.level_lt priority))
  rw [enqueue, Lanes.enqueue, hlevel, Bool.or_false, hwaiting]
  simp only [List.contains_iff_mem]
  split
  · rfl
  · refine (lanes_modify h priority (·.push p) rfl).trans ?_
    rw [Fifo.toList_push]
    rfl

theorem Stands.enqueue (h : r.Stands) (p : PropagatorId) (priority : Priority) :
    (r.enqueue p priority).Stands where
  toAgrees := h.toAgrees.enqueue p priority
  levels := by
    rw [Roster.enqueue]
    split
    · exact h.levels
    · exact (Array.size_modify ..).trans h.levels

/-- Leaving the roster is leaving the lists. -/
theorem Stands.lanes_pop? (h : r.Stands) :
    r.lanes.pop? = r.pop?.map fun popped => (popped.1, popped.2.lanes) := by
  cases hpop : r.pop? with
  | none =>
    refine Lanes.pop?_eq_none ?_
    rw [← h.members_eq, h.eq_withLevels hpop, members_withLevels]
  | some popped =>
    obtain ⟨p, rest⟩ := popped
    obtain ⟨level, levels, line, hpresent, hline, hrest⟩ := pop?_eq_some hpop
    have hlevel := lt_size_of_line ((h.present level).mp (hpresent ▸ List.mem_cons_self))
    obtain ⟨priority, rfl⟩ : ∃ priority : Priority, priority.level = level :=
      Priority.exists_level (h.levels ▸ hlevel)
    have hlane : r.lanes.lane priority = p :: line.toList := Fifo.toList_of_pop? hline
    -- the lines that are present come in ascending order, and this is the first of them
    have hcheaper : ∀ other : Priority, other.level < priority.level →
        r.lanes.lane other = [] := by
      intro other hother
      have hout : other.level ∉ r.present := by
        rw [hpresent]
        intro hmem
        rcases List.mem_cons.mp hmem with heq | hmem
        · omega
        · have := (List.pairwise_cons.mp (hpresent ▸ h.ascending)).1 _ hmem
          omega
      exact congrArg Fifo.toList (h.line_eq_empty hout)
    rw [Lanes.pop?_of_cheapest hlane hcheaper, Option.map_some,
      lanes_modify (s := rest) h priority (fun _ => line) (by rw [hrest])]

theorem Stands.pop? (h : r.Stands) {rest : Roster} (hpop : r.pop? = some (p, rest)) :
    rest.Stands where
  toAgrees := h.toAgrees.pop? hpop
  levels := by
    obtain ⟨level, levels, line, -, -, hrest⟩ := pop?_eq_some hpop
    rw [hrest]
    exact (Array.size_modify ..).trans h.levels

/-- Clearing the roster is clearing the lists. -/
theorem Stands.lanes_clear (h : r.Stands) : r.clear.lanes = Lanes.empty := by
  rw [h.clear_eq, lanes_withLevels]

theorem Stands.clear (h : r.Stands) : r.clear.Stands where
  toAgrees := h.toAgrees.clear
  levels := by
    rw [h.clear_eq]
    exact Array.size_replicate.trans h.levels

/-- A step of the roster is a step of the lists. -/
theorem Stands.act (h : r.Stands) (a : QueueAction) :
    (discipline.act r a).2.Stands
      ∧ Lanes.discipline.act r.lanes a
        = ((discipline.act r a).1, (discipline.act r a).2.lanes) := by
  cases a with
  | enqueue p priority =>
    exact ⟨h.enqueue p priority, congrArg (Prod.mk none) (h.lanes_enqueue p priority).symm⟩
  | pop =>
    have hlanes := h.lanes_pop?
    simp only [Discipline.act, discipline, Lanes.discipline, hlanes]
    cases hpop : r.pop? with
    | none => exact ⟨h, rfl⟩
    | some popped => exact ⟨h.pop? hpop, rfl⟩
  | clear => exact ⟨h.clear, congrArg (Prod.mk none) h.lanes_clear.symm⟩

/-! ### Runs -/

/-- What is seen of the roster is what is seen of its lists. -/
theorem Stands.views_eq (h : r.Stands) (actions : List QueueAction) :
    (discipline.run r actions).Stands
      ∧ discipline.views r actions = Lanes.discipline.views r.lanes actions
      ∧ Lanes.discipline.run r.lanes actions = (discipline.run r actions).lanes := by
  induction actions generalizing r with
  | nil => exact ⟨h, rfl, rfl⟩
  | cons a actions ih =>
    obtain ⟨hstands, hact⟩ := h.act a
    obtain ⟨hend, hviews, hrun⟩ := ih hstands
    refine ⟨hend, ?_, ?_⟩
    · have hwaiting : discipline.isWaiting (discipline.act r a).2
          = Lanes.discipline.isWaiting (discipline.act r a).2.lanes :=
        funext hstands.isWaiting_eq
      have hempty : discipline.isEmpty (discipline.act r a).2
          = Lanes.discipline.isEmpty (discipline.act r a).2.lanes := hstands.isEmpty_eq
      simp only [Discipline.views, hact, hviews, hwaiting, hempty]
    · simpa only [Discipline.run, List.foldl_cons, hact] using hrun

/-- From the empty roster, whatever is done: the answers, whether nobody waits and who waits are
    those of four lists in which nobody stands twice; and popping as often as somebody waits then
    takes everybody who waits, each once and in order, and leaves nobody. -/
theorem refines_lanes (actions : List QueueAction) :
    let lanes := Lanes.discipline.run .empty actions
    let roster := discipline.run empty actions
    let pops := List.replicate lanes.all.length .pop
    discipline.views empty actions = Lanes.discipline.views .empty actions
      ∧ lanes.all.Nodup
      ∧ (discipline.views roster pops).map QueueView.popped? = lanes.all.map some
      ∧ (discipline.run roster pops).isEmpty := by
  intro lanes roster pops
  obtain ⟨hstands, hviews, hrun⟩ := stands_empty.views_eq actions
  have hempty : empty.lanes = .empty := lanes_withLevels _
  rw [hempty] at hviews hrun
  have hlanes : roster.lanes = lanes := hrun.symm
  obtain ⟨hdrained, hpops, hrest⟩ := hstands.views_eq pops
  obtain ⟨htaken, hnobody⟩ := Lanes.views_replicate_pop (l := lanes) rfl
  refine ⟨hviews, ?_, ?_, ?_⟩
  · rw [← hlanes, ← hstands.members_eq]
    exact hstands.nodup
  · rw [hpops, hlanes]
    exact htaken
  · rw [hlanes] at hrest
    rw [hdrained.isEmpty_eq, ← hrest, hnobody]
    rfl

end Roster

end FiniteDomain
