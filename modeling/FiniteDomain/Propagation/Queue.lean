import FiniteDomain.Fault
import FiniteDomain.Identifier
import FiniteDomain.Propagation.Fifo

/-! # The queue of waiting propagators

    Propagators wait in one line per priority level; the next one to run is the
    head of the cheapest line that is not empty.  A propagator waits at most
    once: `isWaiting` tells whether it does, and enqueueing a waiting propagator
    changes nothing.

    So that no operation has to look through the lines, a `Roster` keeps three
    further things: a flag for each waiting propagator, their number, and the
    levels whose line is not empty.  They repeat what the lines say; a `Queue`
    is a roster with the proof that they do. -/

namespace FiniteDomain

/-! ### Priorities -/

/-- How costly a propagator is; cheaper ones run first. -/
inductive Priority where
  /-- Over one variable. -/
  | unary
  /-- Over two variables. -/
  | binary
  /-- Linear in its scope. -/
  | linear
  /-- Anything else. -/
  | general
deriving DecidableEq, Repr, Inhabited

/-- The line in which propagators of a priority wait. -/
def Priority.level : Priority → Nat
  | .unary => 0
  | .binary => 1
  | .linear => 2
  | .general => 3

/-- The name of a priority. -/
def Priority.name : Priority → String
  | .unary => "Unary"
  | .binary => "Binary"
  | .linear => "Linear"
  | .general => "General"

/-- The number of priorities. -/
def Priority.count : Nat := 4

theorem Priority.level_lt_count (p : Priority) : p.level < Priority.count := by
  cases p <;> decide

/-! ### Heaps of levels -/

/-- An ascending list of levels with one more: a heap from which the least level comes first. -/
def insertLevel (level : Nat) : List Nat → List Nat
  | [] => [level]
  | least :: rest =>
    if level ≤ least then level :: least :: rest else least :: insertLevel level rest

theorem mem_insertLevel {level n : Nat} {levels : List Nat} :
    n ∈ insertLevel level levels ↔ n = level ∨ n ∈ levels := by
  induction levels with
  | nil => simp [insertLevel]
  | cons least rest ih =>
    unfold insertLevel
    split
    · exact List.mem_cons
    · rw [List.mem_cons, ih, List.mem_cons]
      exact or_left_comm

theorem pairwise_insertLevel {level : Nat} {levels : List Nat} (hnew : level ∉ levels)
    (h : levels.Pairwise (· < ·)) : (insertLevel level levels).Pairwise (· < ·) := by
  induction levels with
  | nil => exact List.pairwise_singleton _ _
  | cons least rest ih =>
    obtain ⟨hleast, hrest⟩ := List.pairwise_cons.mp h
    obtain ⟨hne, hrestNew⟩ := not_or.mp fun hmem => hnew (List.mem_cons.mpr hmem)
    unfold insertLevel
    split
    next hle =>
      have hlt : level < least := by omega
      refine List.pairwise_cons.mpr ⟨fun n hn => ?_, h⟩
      rcases List.mem_cons.mp hn with rfl | hn
      · exact hlt
      · exact Nat.lt_trans hlt (hleast n hn)
    next hle =>
      refine List.pairwise_cons.mpr ⟨fun n hn => ?_, ih hrestNew hrest⟩
      rcases mem_insertLevel.mp hn with rfl | hn
      · omega
      · exact hleast n hn

/-! ### Rosters -/

/-- Waiting propagators by priority level, with what is kept to find them. -/
structure Roster where
  /-- One line for each level, the cheapest first. -/
  lines : Array (Fifo PropagatorId)
  /-- The propagators whose flag is up. -/
  raised : List PropagatorId
  /-- The number of waiting propagators. -/
  count : Nat
  /-- The heap of the levels whose line is not empty. -/
  present : List Nat
deriving Repr

namespace Roster

/-- The empty roster with a number of levels. -/
def withLevels (levels : Nat) : Roster := ⟨Array.replicate levels Fifo.empty, [], 0, []⟩

/-- The empty roster with a level for each priority. -/
def empty : Roster := withLevels Priority.count

/-- The line of a level. -/
def line (r : Roster) (level : Nat) : Fifo PropagatorId := r.lines.getD level Fifo.empty

/-- Nobody waits. -/
def isEmpty (r : Roster) : Bool := r.count == 0

/-- The propagator waits: its flag is up. -/
def isWaiting (r : Roster) (p : PropagatorId) : Bool := r.raised.contains p

/-- The roster after the propagator joined the line of its priority, unless it waits already or
    there is no such line. -/
def enqueue (r : Roster) (p : PropagatorId) (priority : Priority) : Roster :=
  if r.isWaiting p || r.lines.size ≤ priority.level then r
  else
    { lines := r.lines.modify priority.level (·.push p)
      raised := p :: r.raised
      count := r.count + 1
      present :=
        if (r.line priority.level).isEmpty then insertLevel priority.level r.present
        else r.present }

/-- The head of the line whose level is first in the heap, and the roster without it. -/
def pop? (r : Roster) : Option (PropagatorId × Roster) := do
  let level ← r.present.head?
  let (p, rest) ← (r.line level).pop?
  return (p,
    { lines := r.lines.modify level fun _ => rest
      raised := r.raised.erase p
      count := r.count - 1
      present := if rest.isEmpty then r.present.tail else r.present })

/-- The roster with the lines of all levels in the heap emptied and all flags down. -/
def clear (r : Roster) : Roster :=
  { lines := r.present.foldl (fun lines level => lines.modify level fun _ => Fifo.empty) r.lines
    raised := []
    count := 0
    present := [] }

/-- Who stands in a line. -/
def members (r : Roster) : List PropagatorId := r.lines.toList.flatMap Fifo.toList

/-- The flags, the number and the heap say what the lines say. -/
structure Agrees (r : Roster) : Prop where
  /-- Nobody stands in a line twice, or in two lines. -/
  nodup : r.members.Nodup
  /-- The flags that are up are those of the members. -/
  raised : r.raised.Perm r.members
  /-- The number is that of the members. -/
  count : r.count = r.members.length
  /-- The heap has the levels whose line is not empty. -/
  present : ∀ level, level ∈ r.present ↔ (r.line level).isEmpty = false
  /-- The heap has every level at most once, the least one first. -/
  ascending : r.present.Pairwise (· < ·)

variable {r : Roster} {p : PropagatorId} {priority : Priority}

/-! ### Lines of a roster -/

/-- The line of a level after one line has been changed. -/
theorem line_modify {s : Roster} {k : Nat} {change : Fifo PropagatorId → Fifo PropagatorId}
    (hlines : s.lines = r.lines.modify k change) (hk : k < r.lines.size) (level : Nat) :
    s.line level = if level = k then change (r.line k) else r.line level := by
  simp only [line, hlines, Array.getD_eq_getD_getElem?, Array.getElem?_modify]
  by_cases hlevel : level = k
  · subst hlevel
    simp only [↓reduceIte, Array.getElem?_eq_getElem hk, Option.map_some, Option.getD_some]
  · rw [if_neg fun h => hlevel h.symm, if_neg hlevel]

/-- A line with a member has a place among the lines. -/
theorem lt_size_of_line {level : Nat} (h : (r.line level).isEmpty = false) :
    level < r.lines.size := by
  apply Decidable.byContradiction
  intro hge
  rw [line, Array.getD_eq_getD_getElem?, Array.getElem?_eq_none (by omega)] at h
  cases h

/-- The members of a roster of which one line has been changed. -/
theorem perm_flatMap_modify {l : List (Fifo PropagatorId)} {k : Nat} (h : k < l.length)
    (change : Fifo PropagatorId → Fifo PropagatorId) (before after : List PropagatorId)
    (hperm : (l[k].toList ++ after).Perm ((change l[k]).toList ++ before)) :
    (l.flatMap Fifo.toList ++ after).Perm ((l.modify k change).flatMap Fifo.toList ++ before) := by
  induction l generalizing k with
  | nil => simp at h
  | cons a l ih =>
    cases k with
    | zero =>
      simp only [List.getElem_cons_zero] at hperm
      simp only [List.flatMap_cons, List.modify_zero_cons, List.append_assoc]
      have hleft : (a.toList ++ (l.flatMap Fifo.toList ++ after)).Perm _ :=
        List.perm_append_comm.append_left a.toList
      have hright : ((change a).toList ++ (before ++ l.flatMap Fifo.toList)).Perm _ :=
        List.perm_append_comm.append_left (change a).toList
      refine hleft.trans (List.Perm.trans ?_ hright)
      simpa only [List.append_assoc] using hperm.append_right (l.flatMap Fifo.toList)
    | succ k =>
      simp only [List.getElem_cons_succ] at hperm
      simp only [List.flatMap_cons, List.modify_succ_cons, List.append_assoc]
      exact (ih (by simpa using h) hperm).append_left a.toList

/-! ### Agreement -/

theorem Agrees.isWaiting_iff (h : r.Agrees) : r.isWaiting p = true ↔ p ∈ r.members := by
  rw [isWaiting, List.contains_iff_mem, h.raised.mem_iff]

theorem members_withLevels (levels : Nat) : (withLevels levels).members = [] := by
  simp only [withLevels, members, Array.toList_replicate, List.flatMap_eq_nil_iff,
    List.mem_replicate]
  rintro line ⟨-, rfl⟩
  rfl

theorem line_withLevels (levels level : Nat) : (withLevels levels).line level = Fifo.empty := by
  simp only [line, withLevels, Array.getD_eq_getD_getElem?, Array.getElem?_replicate]
  split <;> rfl

theorem agrees_withLevels (levels : Nat) : (withLevels levels).Agrees where
  nodup := by rw [members_withLevels]; exact List.nodup_nil
  raised := by rw [members_withLevels]; exact .refl _
  count := by rw [members_withLevels]; rfl
  present level := by
    rw [line_withLevels]
    exact iff_of_false (List.not_mem_nil) (by decide)
  ascending := List.Pairwise.nil

/-- A propagator that joins the roster. -/
theorem members_enqueue (hlevel : priority.level < r.lines.size) (hnew : r.isWaiting p = false) :
    (r.enqueue p priority).members.Perm (p :: r.members) := by
  rw [enqueue, hnew, Bool.false_or, decide_eq_false (by omega), if_neg Bool.false_ne_true]
  have hperm := perm_flatMap_modify (l := r.lines.toList) (k := priority.level)
    (by simpa using hlevel) (·.push p) [] [p] (by simp)
  simp only [members, Array.toList_modify]
  simp only [List.append_nil] at hperm
  exact hperm.symm.trans (List.perm_append_singleton p _)

theorem Agrees.enqueue (h : r.Agrees) (p : PropagatorId) (priority : Priority) :
    (r.enqueue p priority).Agrees := by
  -- a propagator that waits already, or a priority without a line, changes nothing
  by_cases hnew : r.isWaiting p = false ∧ priority.level < r.lines.size
  case neg =>
    have hsame : r.enqueue p priority = r := by
      refine if_pos ?_
      cases hwaits : r.isWaiting p with
      | true => rfl
      | false => simpa [hwaits] using hnew
    rwa [hsame]
  obtain ⟨hnew, hlevel⟩ := hnew
  have hmembers := members_enqueue hlevel hnew
  have hout : p ∉ r.members := fun hmem => by
    rw [h.isWaiting_iff.mpr hmem] at hnew
    cases hnew
  have hshape : r.enqueue p priority =
      { lines := r.lines.modify priority.level (·.push p), raised := p :: r.raised
        count := r.count + 1
        present := if (r.line priority.level).isEmpty then insertLevel priority.level r.present
          else r.present } := if_neg (by simp [hnew, hlevel])
  have hpushed : ((r.line priority.level).push p).isEmpty = false := by
    simp [Fifo.isEmpty, Fifo.push]
  refine ⟨hmembers.nodup_iff.mpr (List.nodup_cons.mpr ⟨hout, h.nodup⟩), ?_, ?_,
    fun level => ?_, ?_⟩
  · rw [hshape]
    exact (h.raised.cons p).trans (hshape ▸ hmembers.symm)
  · rw [hmembers.length_eq, List.length_cons, ← h.count, hshape]
  · rw [line_modify (by rw [hshape]) hlevel, hshape]
    dsimp only
    -- only the line that is entered can have been empty before
    by_cases hsame : level = priority.level
    · rw [if_pos hsame, hpushed, hsame]
      refine iff_of_true ?_ rfl
      split
      · exact mem_insertLevel.mpr (Or.inl rfl)
      next hline => exact (h.present _).mpr (Bool.eq_false_iff.mpr hline)
    · rw [if_neg hsame, ← h.present]
      split
      · rw [mem_insertLevel]
        exact or_iff_right hsame
      · exact Iff.rfl
  · rw [hshape]
    dsimp only
    split
    next hline =>
      refine pairwise_insertLevel (fun hmem => ?_) h.ascending
      rw [(h.present _).mp hmem] at hline
      cases hline
    · exact h.ascending

/-- What a roster from which a propagator is taken has at the head of its heap, and what is left
    of it. -/
theorem pop?_eq_some {rest : Roster} (h : r.pop? = some (p, rest)) :
    ∃ level levels line, r.present = level :: levels ∧ (r.line level).pop? = some (p, line)
      ∧ rest = { lines := r.lines.modify level fun _ => line, raised := r.raised.erase p
                 count := r.count - 1
                 present := if line.isEmpty then levels else level :: levels } := by
  unfold pop? at h
  cases hpresent : r.present with
  | nil => simp [hpresent] at h
  | cons level levels =>
    simp only [hpresent, List.head?_cons, List.tail_cons, Option.bind_eq_bind,
      Option.bind_some] at h
    cases hpop : (r.line level).pop? with
    | none => simp [hpop] at h
    | some popped =>
      obtain ⟨a, line⟩ := popped
      simp only [hpop, Option.bind_some, Option.pure_def, Option.some.injEq, Prod.mk.injEq] at h
      obtain ⟨rfl, rfl⟩ := h
      exact ⟨level, levels, line, rfl, hpop, rfl⟩

/-- Whoever is taken from the roster was a member; the others stay. -/
theorem Agrees.members_pop? (h : r.Agrees) {rest : Roster} (hpop : r.pop? = some (p, rest)) :
    r.members.Perm (p :: rest.members) := by
  obtain ⟨level, levels, line, hpresent, hline, rfl⟩ := pop?_eq_some hpop
  have hlevel := lt_size_of_line ((h.present level).mp (hpresent ▸ List.mem_cons_self))
  have hlt : level < r.lines.toList.length := by simpa using hlevel
  have hget : r.lines.toList[level] = r.line level := by
    simp [Roster.line, Array.getD_eq_getD_getElem?, Array.getElem?_eq_getElem hlevel]
  have hperm := perm_flatMap_modify hlt (fun _ => line) [p] []
    (by
      rw [hget, Fifo.toList_of_pop? hline, List.append_nil]
      exact (List.perm_append_singleton p _).symm)
  simp only [members, Array.toList_modify]
  simp only [List.append_nil] at hperm
  exact hperm.trans (List.perm_append_singleton p _)

theorem Agrees.pop? (h : r.Agrees) {rest : Roster} (hpop : r.pop? = some (p, rest)) :
    rest.Agrees := by
  have hmembers := h.members_pop? hpop
  obtain ⟨level, levels, line, hpresent, hline, hrest⟩ := pop?_eq_some hpop
  have hlevel := lt_size_of_line ((h.present level).mp (hpresent ▸ List.mem_cons_self))
  obtain ⟨hleast, hlevels⟩ := List.pairwise_cons.mp (hpresent ▸ h.ascending)
  have hraised : rest.raised = r.raised.erase p := by rw [hrest]
  refine ⟨(List.nodup_cons.mp (hmembers.nodup_iff.mp h.nodup)).2, ?_, ?_, fun l => ?_, ?_⟩
  · rw [hraised]
    have herase := (h.raised.trans hmembers).erase p
    rwa [List.erase_cons_head] at herase
  · have hcount : rest.count = r.count - 1 := by rw [hrest]
    rw [hcount, h.count, hmembers.length_eq, List.length_cons, Nat.add_sub_cancel]
  · rw [line_modify (by rw [hrest]) hlevel, hrest]
    dsimp only
    have hmem := h.present l
    rw [hpresent, List.mem_cons] at hmem
    by_cases hsame : l = level
    · rw [if_pos hsame]
      split
      next hempty =>
        rw [hempty, hsame]
        exact iff_of_false (fun hin => Nat.lt_irrefl _ (hleast _ hin)) (by decide)
      next hempty =>
        rw [hsame, Bool.eq_false_iff.mpr hempty]
        exact iff_of_true List.mem_cons_self rfl
    · rw [if_neg hsame, ← hmem]
      split
      · exact (or_iff_right hsame).symm
      · exact List.mem_cons
  · rw [hrest]
    dsimp only
    split
    · exact hlevels
    · exact hpresent ▸ h.ascending

/-- A level that is not in the heap has an empty line. -/
theorem Agrees.line_eq_empty (h : r.Agrees) {level : Nat} (hlevel : level ∉ r.present) :
    r.line level = Fifo.empty := by
  refine Fifo.eq_empty ?_
  cases hline : (r.line level).isEmpty with
  | true => rfl
  | false => exact absurd ((h.present level).mpr hline) hlevel

/-- A line after some lines have been emptied. -/
theorem line_foldl_empty (levels : List Nat) (lines : Array (Fifo PropagatorId)) :
    let cleared := levels.foldl (fun lines level => lines.modify level fun _ => Fifo.empty) lines
    cleared.size = lines.size ∧ ∀ level,
      cleared.getD level Fifo.empty
        = if level ∈ levels then Fifo.empty else lines.getD level Fifo.empty := by
  induction levels generalizing lines with
  | nil => exact ⟨rfl, fun level => (if_neg List.not_mem_nil).symm⟩
  | cons first levels ih =>
    obtain ⟨hsize, hline⟩ := ih (lines.modify first fun _ => Fifo.empty)
    refine ⟨hsize.trans (Array.size_modify ..), fun level => ?_⟩
    simp only [List.foldl_cons]
    rw [hline level]
    simp only [List.mem_cons, Array.getD_eq_getD_getElem?, Array.getElem?_modify]
    by_cases hfirst : first = level
    · subst hfirst
      cases hget : lines[first]? <;> simp
    · simp [hfirst, Ne.symm hfirst]

/-- Clearing the levels in the heap clears all lines. -/
theorem Agrees.clear_eq (h : r.Agrees) : r.clear = withLevels r.lines.size := by
  obtain ⟨hsize, hline⟩ := line_foldl_empty r.present r.lines
  simp only [clear, withLevels, mk.injEq, and_true]
  refine Array.ext (by simpa using hsize) fun i hi hreplicate => ?_
  have hat := hline i
  rw [Array.getD_eq_getD_getElem?, Array.getElem?_eq_getElem hi, Option.getD_some] at hat
  rw [hat, Array.getElem_replicate]
  split
  · rfl
  next hout => exact h.line_eq_empty hout

theorem Agrees.clear (h : r.Agrees) : r.clear.Agrees := h.clear_eq ▸ agrees_withLevels _

end Roster

/-! ### The queue -/

/-- Waiting propagators by priority level. -/
structure Queue extends Roster where
  /-- What is kept to find them agrees with the lines in which they stand. -/
  agrees : toRoster.Agrees

namespace Queue

/-- The empty queue with a number of levels. -/
def withLevels (levels : Nat) : Queue := ⟨.withLevels levels, Roster.agrees_withLevels levels⟩

/-- The empty queue with a level for each priority. -/
def empty : Queue := withLevels Priority.count

instance : Inhabited Queue := ⟨empty⟩

/-- The number of waiting propagators. -/
def length (q : Queue) : Nat := q.count

/-- The queue after the propagator joined the line of its priority, unless it waits already. -/
def enqueue (q : Queue) (p : PropagatorId) (priority : Priority) : Queue :=
  ⟨q.toRoster.enqueue p priority, q.agrees.enqueue p priority⟩

/-- Like `enqueue`; a priority without a level is a fault, unless the propagator waits. -/
def enqueueChecked (q : Queue) (p : PropagatorId) (priority : Priority) : Except Fault Queue :=
  if q.isWaiting p || priority.level < q.lines.size then .ok (q.enqueue p priority)
  else .error .indexOutOfBounds

/-- The head of the cheapest line that is not empty, and the queue without it. -/
def pop? (q : Queue) : Option (PropagatorId × Queue) :=
  match h : q.toRoster.pop? with
  | none => none
  | some (p, rest) => some (p, ⟨rest, q.agrees.pop? h⟩)

/-- The queue with all lines emptied. -/
def clear (q : Queue) : Queue := ⟨q.toRoster.clear, q.agrees.clear⟩

end Queue

end FiniteDomain
