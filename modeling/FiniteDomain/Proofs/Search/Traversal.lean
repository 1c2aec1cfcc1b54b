import FiniteDomain.Proofs.Search.Visits

/-! # The search tree

    A search leaves a log of what it does to its tree: the branches that the
    brancher hands out, the decisions that are applied, the contradictions and
    the solutions (`Search.marks`).  The log of a search that has come to its end
    is a depth-first traversal (`Explored`): below every branch the alternatives
    are applied one after the other, each exactly once, and each is followed by
    the traversal of what lies below it.

    Solutions, stops, cuts and changes of brancher or limit fall anywhere in
    between (`Solver.Searched`).  What carries over from one transition to the
    next is that the log leads to the current alternative of the innermost level
    (`Descends`), and that the counters are those of the log (`Tallied`). -/

namespace FiniteDomain

/-! ### Logs -/

/-- Something that a search does to its tree. -/
inductive Mark where
  /-- The brancher hands out a branch. -/
  | handed (branch : Branch)
  /-- A decision is applied. -/
  | applied (d : Decision)
  /-- A contradiction is met. -/
  | failed
  /-- A solution is reported. -/
  | solved

namespace Mark

/-- A branch is handed out. -/
@[simp] def isHanded : Mark → Bool
  | .handed _ => true
  | _ => false

/-- A decision is applied. -/
@[simp] def isApplied : Mark → Bool
  | .applied _ => true
  | _ => false

/-- A contradiction is met. -/
@[simp] def isFailed : Mark → Bool
  | .failed => true
  | _ => false

/-- A solution is reported. -/
@[simp] def isSolved : Mark → Bool
  | .solved => true
  | _ => false

end Mark

/-- The alternatives are applied in the given order, and what lies below each is traversed before
    the next. -/
inductive Tried : List Decision → List Mark → Prop where
  /-- There is no alternative left. -/
  | nil : Tried [] []
  /-- The first alternative leads to a contradiction or to a solution. -/
  | leaf {d : Decision} {m : Mark} {rest : List Decision} {log : List Mark}
      (hleaf : m = .failed ∨ m = .solved) (hrest : Tried rest log) :
      Tried (d :: rest) (.applied d :: m :: log)
  /-- Below the first alternative there is a branch. -/
  | branched {d : Decision} {b : Branch} {rest : List Decision} {below log : List Mark}
      (hbelow : Tried b.alternatives below) (hrest : Tried rest log) :
      Tried (d :: rest) (.applied d :: .handed b :: (below ++ log))

/-- The traversal of a tree: of a contradiction, of a solution or of all that lies below a branch. -/
inductive Explored : List Mark → Prop where
  /-- There is a contradiction or a solution. -/
  | leaf {m : Mark} (hleaf : m = .failed ∨ m = .solved) : Explored [m]
  /-- All alternatives of a branch are tried. -/
  | branched {b : Branch} {below : List Mark} (hbelow : Tried b.alternatives below) :
      Explored (.handed b :: below)

variable {decisions : List Decision} {log below : List Mark} {d : Decision}

theorem Tried.append {first second : List Decision} {log' : List Mark} (h : Tried first log)
    (h' : Tried second log') : Tried (first ++ second) (log ++ log') := by
  induction h with
  | nil => exact h'
  | leaf hleaf hrest ih => exact .leaf hleaf ih
  | branched hbelow hrest ihbelow ih =>
    rw [List.cons_append, List.cons_append, List.cons_append, List.append_assoc]
    exact .branched hbelow ih

/-- One more alternative has been tried when what lies below it has been traversed. -/
theorem Tried.then (h : Tried decisions log) (hbelow : Explored below) :
    Tried (decisions ++ [d]) (log ++ .applied d :: below) := by
  refine h.append ?_
  cases hbelow with
  | leaf hleaf => exact .leaf hleaf .nil
  | @branched b below hbelow =>
    have hlast := Tried.branched (d := d) hbelow .nil
    rwa [List.append_nil] at hlast

/-- Every decision leads to a contradiction, to a solution or to a branch. -/
theorem Tried.count (h : Tried decisions log) :
    log.countP Mark.isApplied
      = log.countP Mark.isFailed + log.countP Mark.isSolved + log.countP Mark.isHanded := by
  induction h with
  | nil => rfl
  | leaf hleaf hrest ih => rcases hleaf with rfl | rfl <;> simp [List.countP_cons, ih] <;> omega
  | branched hbelow hrest ihbelow ih => simp [List.countP_cons, ih, ihbelow]; omega

/-- The root leads there as well, without a decision. -/
theorem Explored.count (h : Explored log) :
    log.countP Mark.isApplied + 1
      = log.countP Mark.isFailed + log.countP Mark.isSolved + log.countP Mark.isHanded := by
  cases h with
  | leaf hleaf => rcases hleaf with rfl | rfl <;> rfl
  | branched hbelow => simp [List.countP_cons, hbelow.count]; omega

/-! ### The log of a search -/

namespace Search

variable {P B T : Type} [Propagator P] [Brancher B] [Termination T]

/-- What the next transition does to the search tree. -/
def marks (sr : Search P B T) : List Mark :=
  match sr.solver.stage with
  | .select =>
    if sr.poll.1 then []
    else
      match Brancher.next sr.brancher sr.solver.store sr.solver.random with
      | .ok (some b, _) => [.handed b]
      | _ => []
  | .propagate =>
    (sr.solver.decision?.map .applied).toList
      ++ match sr.solver.space.settle sr.solver.requests with
        | .ok (some _, _) => [.failed]
        | _ => []
  | .solution => [.solved]
  | .decide | .backtrack | .done => []

theorem marks_eq_nil {sr : Search P B T} (h : sr.solver.stage = .decide
    ∨ sr.solver.stage = .backtrack ∨ sr.solver.stage = .done) : sr.marks = [] := by
  rcases h with h | h | h <;> simp only [marks, h]

/-- What a run does to the search tree. -/
def runMarks : (fuel : Nat) → Search P B T → List Mark
  | 0, _ => []
  | fuel + 1, sr =>
    sr.marks ++
      match sr.step with
      | .ok (none, sr) => runMarks fuel sr
      | _ => []

/-- What a call of the solver does to the search tree. -/
def solveMarks (sr : Search P B T) : List Mark :=
  if sr.solver.infeasible then [] else (sr.update Solver.enter).runMarks sr.stepBound

end Search

/-- A search that started from the first solver has led to the second, with the given log; how its
    latest call has ended.  Every call has a brancher and a limit of its own, and cuts may be set
    before the search goes back.  A model that is known to have no solution is not searched. -/
inductive Solver.Searched (start : Solver Filter) :
    Option Verdict → Solver Filter → List Mark → Prop where
  /-- No call has been made. -/
  | start (feasible : start.infeasible = false) : Searched start none start []
  /-- The solver is called. -/
  | call {B T : Type} [Brancher B] [Termination T] {verdict? : Option Verdict} {verdict : Verdict}
      {sv : Solver Filter} {log : List Mark} {sr : Search Filter B T}
      (before : Searched start verdict? sv log) (brancher : B) (limit : T)
      (called : (Search.mk sv brancher limit).solve = .ok (verdict, sr)) :
      Searched start (some verdict) sr.solver (log ++ (Search.mk sv brancher limit).solveMarks)
  /-- A cut is set. -/
  | cut {verdict? : Option Verdict} {sv : Solver Filter} {log : List Mark}
      (before : Searched start verdict? sv log) (searching : sv.isSearching = true)
      (stage : sv.stage = .backtrack) (p : Predicate) :
      Searched start verdict? (sv.setCut p) log

/-! ### Where a search is in its tree -/

/-- The log leads to the node below the current alternative of the innermost level, and has nothing
    about that node yet. -/
inductive Descends : List Level → List Mark → Prop where
  /-- The root is such a node. -/
  | root : Descends [] []
  /-- The alternatives before the current one have been tried. -/
  | level {level : Level} {outer : List Level} {b : Branch} {d : Decision}
      {earlier : List Decision} {before tried : List Mark} (houter : Descends outer before)
      (halternatives : level.taken.reverse ++ level.remaining = b.alternatives)
      (htaken : level.taken = d :: earlier) (htried : Tried earlier.reverse tried) :
      Descends (level :: outer) (before ++ .handed b :: (tried ++ [.applied d]))

/-- The log of a search at each of its stages. -/
def Logged (log : List Mark) {P : Type} (sv : Solver P) : Prop :=
  match sv.stage with
  | .select | .solution => Descends sv.levels log
  | .decide =>
    ∃ level outer b before, sv.levels = level :: outer ∧ Descends outer before
      ∧ level.taken = [] ∧ level.remaining = b.alternatives ∧ log = before ++ [.handed b]
  | .propagate => Descends sv.levels (log ++ (sv.decision?.map .applied).toList)
  | .backtrack => ∃ before below, Descends sv.levels before ∧ Explored below ∧ log = before ++ below
  | .done => Explored log

/-- What the counters have come to since the start. -/
structure Tallied {P : Type} (start : Measures) (log : List Mark) (sv : Solver P) : Prop where
  nodes : sv.measures.nodes = start.nodes + log.countP Mark.isApplied
  fails : sv.measures.fails = start.fails + log.countP Mark.isFailed
  solutions : sv.measures.solutions = start.solutions + log.countP Mark.isSolved
  /-- One backtrack is still to come where the search is about to go back. -/
  backtracks : sv.measures.backtracks + (if sv.stage = .backtrack then 1 else 0)
    = start.backtracks + log.countP Mark.isFailed + log.countP Mark.isSolved

namespace Search

variable {P B T : Type} {sr sr' : Search P B T}

/-- What the brancher answers is what is logged. -/
theorem logged_select [Propagator P] [Brancher B] [Termination T] (hstage : sr.solver.stage = .select)
    (hpoll : sr.poll.1 = false) (h : Logged log sr.solver) (hselect : sr.poll.2.select = .ok sr') :
    Logged (log ++ sr.marks) sr'.solver := by
  simp only [Logged, hstage] at h
  have hask : Brancher.next sr.poll.2.brancher sr.poll.2.solver.store sr.poll.2.solver.random
      = Brancher.next sr.brancher sr.solver.store sr.solver.random := rfl
  simp only [select, hask, bind, Except.bind] at hselect
  simp only [marks, hstage, hpoll, Bool.false_eq_true, if_false]
  cases hnext : Brancher.next sr.brancher sr.solver.store sr.solver.random with
  | error f =>
    rw [hnext] at hselect
    cases hselect
  | ok answer =>
    obtain ⟨branch?, brancher, random⟩ := answer
    rw [hnext] at hselect
    cases branch? with
    | some b =>
      cases hselect
      exact ⟨_, _, b, log, rfl, h, rfl, rfl, rfl⟩
    | none =>
      cases hselect
      simp only [List.append_nil]
      exact h

/-- The first alternative becomes the current one. -/
theorem logged_decide (hstage : sr.solver.stage = .decide) (h : Logged log sr.solver) :
    Logged log sr.decide.solver := by
  simp only [Logged, hstage] at h
  obtain ⟨level, outer, b, before, hlevels, hdescends, htaken, hremaining, rfl⟩ := h
  have hne : b.alternatives ≠ [] := by
    intro hnil
    have hlength := b.two_le_length
    simp [hnil] at hlength
  obtain ⟨d, rest, hrest⟩ := List.exists_cons_of_ne_nil hne
  simp only [decide, update, hlevels, Level.advance?, hremaining, hrest, htaken]
  show Descends _ ((before ++ [.handed b]) ++ [.applied d])
  rw [List.append_assoc]
  exact .level hdescends hrest.symm rfl .nil

theorem announce_keeps [Termination T] (sr : Search P B T) :
    sr.announce.solver.space = sr.solver.space ∧ sr.announce.solver.levels = sr.solver.levels
      ∧ sr.announce.solver.requests = sr.solver.requests := by
  unfold announce
  split <;> exact ⟨rfl, rfl, rfl⟩

theorem logged_propagate [Propagator P] [Termination T] [Brancher B]
    (hstage : sr.solver.stage = .propagate) (h : Logged log sr.solver)
    (hpropagate : sr.propagate = .ok sr') : Logged (log ++ sr.marks) sr'.solver := by
  simp only [Logged, hstage] at h
  obtain ⟨hspace, hlevels, hrequests⟩ := announce_keeps sr
  simp only [propagate, hspace, hrequests, bind, Except.bind] at hpropagate
  simp only [marks, hstage, ← List.append_assoc]
  cases hsettle : sr.solver.space.settle sr.solver.requests with
  | error f =>
    rw [hsettle] at hpropagate
    cases hpropagate
  | ok answer =>
    obtain ⟨contradiction?, space⟩ := answer
    rw [hsettle] at hpropagate
    cases contradiction? with
    | none =>
      cases hpropagate
      simp only [List.append_nil]
      show Descends sr.announce.solver.levels _
      rwa [hlevels]
    | some c =>
      cases hpropagate
      refine ⟨_, [.failed], ?_, .leaf (Or.inl rfl), rfl⟩
      show Descends sr.announce.solver.levels _
      rwa [hlevels]

/-- Levels without an alternative left have been traversed, one after the other. -/
theorem logged_retreat [Propagator P] [Brancher B] {levels : List Level} {before : List Mark}
    (hdescends : Descends levels before) (hbelow : Explored below)
    (hretreat : sr.retreat levels = .ok sr') : Logged (before ++ below) sr'.solver := by
  induction levels generalizing sr before below with
  | nil =>
    cases hretreat
    cases hdescends
    exact hbelow
  | cons level outer ih =>
    cases hdescends with
    | @level _ _ b d earlier before tried houter halternatives htaken htried =>
      -- the current alternative has been tried now, too
      have htried' : Tried level.taken.reverse (tried ++ .applied d :: below) := by
        rw [htaken, List.reverse_cons]
        exact htried.then hbelow
      have hlog : (before ++ .handed b :: (tried ++ [.applied d])) ++ below
          = before ++ .handed b :: (tried ++ .applied d :: below) := by
        simp
      rw [hlog]
      simp only [retreat, bind, Except.bind] at hretreat
      split at hretreat
      · cases hretreat
      cases hremaining : level.remaining with
      | nil =>
        have hadvance : level.advance? = none := by simp only [Level.advance?, hremaining]
        simp only [hadvance] at hretreat
        rw [hremaining, List.append_nil] at halternatives
        exact ih houter (.branched (halternatives ▸ htried')) hretreat
      | cons next rest =>
        have hadvance : level.advance?
            = some (next, { level with taken := next :: level.taken, remaining := rest }) := by
          simp only [Level.advance?, hremaining]
        simp only [hadvance] at hretreat
        cases hretreat
        have hsame : (next :: level.taken).reverse ++ rest = b.alternatives := by
          rw [List.reverse_cons, List.append_assoc, ← halternatives, hremaining]
          rfl
        show Descends _ ((before ++ .handed b :: (tried ++ .applied d :: below)) ++ [.applied next])
        rw [List.append_assoc]
        exact .level houter hsame rfl htried'

/-! ### The counters -/

variable {start : Measures}

theorem counters_select [Brancher B] (hselect : sr.select = .ok sr') :
    sr'.solver.measures = sr.solver.measures
      ∧ (sr'.solver.stage = .decide ∨ sr'.solver.stage = .solution) := by
  simp only [select, bind, Except.bind] at hselect
  split at hselect
  · cases hselect
  · split at hselect <;> cases hselect
    · exact ⟨rfl, Or.inl rfl⟩
    · exact ⟨rfl, Or.inr rfl⟩

theorem counters_decide (sr : Search P B T) :
    sr.decide.solver.measures
        = { sr.solver.measures with
            peakDepth := max sr.solver.measures.peakDepth sr.solver.levels.length }
      ∧ sr.decide.solver.stage = .propagate := by
  simp only [decide, update]
  split
  · exact ⟨rfl, rfl⟩
  · split <;> exact ⟨rfl, rfl⟩

/-- Going back changes no counter, and leads to a decision or to the end. -/
theorem counters_retreat [Propagator P] [Brancher B] {levels : List Level}
    (hretreat : sr.retreat levels = .ok sr') :
    sr'.solver.measures = sr.solver.measures ∧ sr'.solver.stage ≠ .backtrack := by
  induction levels generalizing sr with
  | nil =>
    cases hretreat
    exact ⟨rfl, fun heq => by cases heq⟩
  | cons level outer ih =>
    simp only [retreat, bind, Except.bind] at hretreat
    split at hretreat
    · cases hretreat
    · split at hretreat
      · cases hretreat
        exact ⟨rfl, fun heq => by cases heq⟩
      · obtain ⟨hmeasures, hstage⟩ := ih hretreat
        exact ⟨hmeasures, hstage⟩

theorem tallied_propagate [Propagator P] [Termination T] [Brancher B]
    (hstage : sr.solver.stage = .propagate) (h : Tallied start log sr.solver)
    (hpropagate : sr.propagate = .ok sr') : Tallied start (log ++ sr.marks) sr'.solver := by
  obtain ⟨hnodes, hfails, hsolutions, hbacktracks⟩ := h
  simp only [hstage, reduceCtorEq, if_false] at hbacktracks
  obtain ⟨hspace, -, hrequests⟩ := announce_keeps sr
  -- a decision is counted as a node when it is announced, before it is carried out
  have hcounted : sr.announce.solver.measures
      = { sr.solver.measures with
          nodes := sr.solver.measures.nodes
            + (sr.solver.decision?.map Mark.applied).toList.length } := by
    unfold announce
    cases sr.solver.decision? <;> rfl
  simp only [propagate, hspace, hrequests, bind, Except.bind] at hpropagate
  simp only [marks, hstage]
  cases hsettle : sr.solver.space.settle sr.solver.requests with
  | error f =>
    rw [hsettle] at hpropagate
    cases hpropagate
  | ok answer =>
    obtain ⟨contradiction?, space⟩ := answer
    rw [hsettle] at hpropagate
    cases contradiction? with
    | none =>
      cases hpropagate
      cases hdecision : sr.solver.decision? <;>
        constructor <;> simp [hcounted, hdecision, List.countP_cons] <;> omega
    | some c =>
      cases hpropagate
      cases hdecision : sr.solver.decision? <;>
        constructor <;> simp [Solver.observe, hcounted, hdecision, List.countP_cons] <;> omega

/-- A branch that is handed out is not counted. -/
theorem tallied_select [Propagator P] [Brancher B] [Termination T]
    (hstage : sr.solver.stage = .select) (h : Tallied start log sr.solver)
    (hselect : sr.poll.2.select = .ok sr') : Tallied start (log ++ sr.marks) sr'.solver := by
  have hmarks : sr.marks = [] ∨ ∃ b, sr.marks = [.handed b] := by
    simp only [marks, hstage]
    split
    · exact Or.inl rfl
    · split
      · exact Or.inr ⟨_, rfl⟩
      · exact Or.inl rfl
  obtain ⟨hmeasures, hnext⟩ := counters_select hselect
  have hafter : sr'.solver.measures = sr.solver.measures ∧ sr'.solver.stage ≠ .backtrack := by
    refine ⟨hmeasures, ?_⟩
    rcases hnext with hnext | hnext <;> rw [hnext] <;> nofun
  obtain ⟨hnodes, hfails, hsolutions, hbacktracks⟩ := h
  simp only [hstage, reduceCtorEq, if_false] at hbacktracks
  rcases hmarks with hmarks | ⟨b, hmarks⟩ <;>
    constructor <;> simp [hmarks, hafter, hnodes, hfails, hsolutions, hbacktracks]

theorem tallied_decide (hstage : sr.solver.stage = .decide) (h : Tallied start log sr.solver) :
    Tallied start log sr.decide.solver := by
  obtain ⟨hnodes, hfails, hsolutions, hbacktracks⟩ := h
  simp only [hstage, reduceCtorEq, if_false] at hbacktracks
  constructor <;> simp [counters_decide, hnodes, hfails, hsolutions, hbacktracks]

/-- Going back is counted, and makes up for the contradiction or the solution before it. -/
theorem tallied_backtrack [Propagator P] [Brancher B] [Termination T]
    (hstage : sr.solver.stage = .backtrack) (h : Tallied start log sr.solver)
    (hbacktrack : sr.poll.2.backtrack = .ok sr') : Tallied start log sr'.solver := by
  unfold backtrack at hbacktrack
  obtain ⟨hmeasures, hstage'⟩ := counters_retreat hbacktrack
  obtain ⟨hnodes, hfails, hsolutions, hbacktracks⟩ := h
  simp only [hstage, if_true] at hbacktracks
  have hafter : sr'.solver.measures
      = { sr.solver.measures with backtracks := sr.solver.measures.backtracks + 1 } := hmeasures
  constructor <;> simp [hafter, hstage', hnodes, hfails, hsolutions, hbacktracks]

theorem tallied_report [Propagator P] [Brancher B] [Termination T]
    (hstage : sr.solver.stage = .solution) (h : Tallied start log sr.solver) :
    Tallied start (log ++ [.solved]) sr.report.solver := by
  obtain ⟨hnodes, hfails, hsolutions, hbacktracks⟩ := h
  simp only [hstage, reduceCtorEq, if_false] at hbacktracks
  constructor <;> simp [report, Solver.observe] <;> omega

/-! ### The way home -/

/-- With no level open, a space to go back from is that of the root; so is the one at the end. -/
def Home (root : Space Filter) (sv : Solver Filter) : Prop :=
  sv.stage = .done ∨ sv.stage = .backtrack ∧ sv.levels = [] → root.Alike sv.space

variable {cuts : Option Predicate → Prop} {root : Space Filter} {sr sr' : Search Filter B T}

theorem home_propagate [Termination T] (hstage : sr.solver.stage = .propagate)
    (hroot : root.Settled) (h : Tracks cuts root sr.solver) (hpropagate : sr.propagate = .ok sr') :
    Home root sr'.solver := by
  simp only [Tracks, hstage] at h
  obtain ⟨hspace, hlevels, hrequests⟩ := announce_keeps sr
  simp only [propagate, hspace, hrequests, bind, Except.bind] at hpropagate
  split at hpropagate
  · cases hpropagate
  next answer hsettle =>
    obtain ⟨contradiction?, space⟩ := answer
    rcases h with ⟨-, hidle, hnocut, halike⟩ | ⟨level, outer, base, d, hcons, -⟩
    · -- there is no contradiction at the root
      rw [Solver.requests, hidle, hnocut] at hsettle
      obtain ⟨rfl, -⟩ := settle_root hroot halike hsettle
      cases hpropagate
      rintro (hdone | ⟨hback, -⟩) <;> contradiction
    · have hopen : sr.announce.solver.levels ≠ [] := by
        rw [hlevels, hcons]
        exact List.cons_ne_nil level outer
      cases contradiction? with
      | none =>
        cases hpropagate
        rintro (hdone | ⟨hback, -⟩) <;> contradiction
      | some c =>
        cases hpropagate
        rintro (hdone | ⟨-, hnil⟩)
        · contradiction
        · exact absurd hnil hopen

/-- The checkpoint of the outermost level is that of the root. -/
theorem home_retreat [Brancher B] {levels : List Level} (hretreat : sr.retreat levels = .ok sr')
    (hdone : sr'.solver.stage = .done) (hroot : root.Settled) (hwf : root.store.Wf)
    (h : Within cuts root levels sr.solver.space)
    (hhome : levels = [] → root.Alike sr.solver.space) : root.Alike sr'.solver.space := by
  induction levels generalizing sr with
  | nil =>
    cases hretreat
    exact hhome rfl
  | cons level outer ih =>
    cases h with
    | @level _ _ base _ hopened hcheckpoint hleads =>
      obtain ⟨hsettled, hbase⟩ := hopened.settled hroot hwf
      obtain ⟨t', ht', halike⟩ := Space.backtrackTo_leads hsettled hbase hleads
      simp only [retreat, bind, Except.bind, hcheckpoint, ht'] at hretreat
      split at hretreat
      · cases hretreat
        contradiction
      · refine ih hretreat (hopened.within hroot hwf halike.leads) ?_
        rintro rfl
        cases hopened
        exact halike

theorem home_found (hstage : sr.solver.stage = .solution) (h : Tracks cuts root sr.solver) :
    sr.solver.levels = [] → root.Alike sr.solver.space := by
  intro hnil
  simp only [Tracks, hstage, hnil] at h
  obtain ⟨sp, hopened, halike⟩ := h
  cases hopened
  exact halike

/-! ### Transitions, runs and calls -/

/-- Where a search is in its tree, together with its counters and its space. -/
structure Follows (start : Solver Filter) (log : List Mark) (sv : Solver Filter) : Prop where
  midway : start.Midway sv
  logged : Logged log sv
  tallied : Tallied start.measures log sv
  home : Home start.space sv

variable {source : Solver Filter} [Brancher B] [Termination T]

/-- One transition adds to the log what it does to the search tree. -/
theorem Follows.step {verdict? : Option Verdict} (h : Follows source log sr.solver)
    (hstep : sr.step = .ok (verdict?, sr')) : Follows source (log ++ sr.marks) sr'.solver := by
  suffices Logged (log ++ sr.marks) sr'.solver ∧ Tallied source.measures (log ++ sr.marks) sr'.solver
      ∧ Home source.space sr'.solver from ⟨h.midway.step hstep, this.1, this.2.1, this.2.2⟩
  obtain ⟨hmidway, hlogged, htallied, hhome⟩ := h
  have hsettled := hmidway.settled
  have hwf := hmidway.resting.wf
  have hbefore := hmidway.tracks
  cases transition_of_step hstep with
  | stopped hstop hstage =>
    have hquiet : sr.marks = [] := by
      rcases hstage with hstage | hstage <;> simp only [marks, hstage, hstop, if_true]
    rw [hquiet, List.append_nil]
    exact ⟨hlogged, ⟨htallied.nodes, htallied.fails, htallied.solutions, htallied.backtracks⟩, hhome⟩
  | selected hstage hselect =>
    have hpoll := poll_of_step hstep (Or.inl hstage)
    -- neither the last stage nor the way back is entered, so nothing is to be said of the root
    refine ⟨logged_select hstage hpoll hlogged hselect, tallied_select hstage htallied hselect, ?_⟩
    rintro (hdone | ⟨hback, -⟩)
    · rcases (counters_select hselect).2 with hnext | hnext <;>
        exact absurd (hnext.symm.trans hdone) (by decide)
    · rcases (counters_select hselect).2 with hnext | hnext <;>
        exact absurd (hnext.symm.trans hback) (by decide)
  | decided hstage =>
    rw [marks_eq_nil (Or.inl hstage), List.append_nil]
    refine ⟨logged_decide hstage hlogged, tallied_decide hstage htallied, ?_⟩
    rintro (hdone | ⟨hback, -⟩)
    · exact absurd ((counters_decide sr).2.symm.trans hdone) (by decide)
    · exact absurd ((counters_decide sr).2.symm.trans hback) (by decide)
  | propagated hstage hpropagate =>
    exact ⟨logged_propagate hstage hlogged hpropagate, tallied_propagate hstage htallied hpropagate,
      home_propagate hstage hsettled hbefore hpropagate⟩
  | wentBack hstage hbacktrack =>
    rw [marks_eq_nil (Or.inr (Or.inl hstage)), List.append_nil]
    refine ⟨?_, tallied_backtrack hstage htallied hbacktrack, ?_⟩
    · simp only [Logged, hstage] at hlogged
      -- the marks were made when the level was left; going back only closes the subtree
      obtain ⟨before, below, hdescends, hbelow, rfl⟩ := hlogged
      exact logged_retreat (by exact hdescends) hbelow hbacktrack
    · rintro (hdone | ⟨hback, -⟩)
      · simp only [Tracks, hstage] at hbefore
        unfold backtrack at hbacktrack
        refine home_retreat hbacktrack hdone hsettled hwf hbefore ?_
        intro hnil
        exact hhome (Or.inr ⟨hstage, hnil⟩)
      · exact absurd hback (counters_retreat hbacktrack).2
  | found hstage =>
    simp only [marks, hstage]
    simp only [Logged, hstage] at hlogged
    refine ⟨⟨log, [.solved], hlogged, .leaf (Or.inr rfl), rfl⟩, tallied_report hstage htallied, ?_⟩
    rintro (hdone | ⟨-, hnil⟩)
    · contradiction
    · have hback := home_found hstage hbefore hnil
      exact hback
  | exhausted hstage =>
    rw [marks_eq_nil (Or.inr (Or.inr hstage)), List.append_nil]
    exact ⟨hlogged, htallied, hhome⟩

/-- A run adds its marks to the log; it ends with the search space exhausted only at the last
    stage. -/
theorem Follows.run {fuel : Nat} {verdict : Verdict} (h : Follows source log sr.solver)
    (hrun : sr.run fuel = .ok (verdict, sr')) :
    Follows source (log ++ sr.runMarks fuel) sr'.solver
      ∧ (verdict = .exhausted → sr'.solver.stage = .done) := by
  induction fuel generalizing sr log with
  | zero => cases hrun
  | succ fuel ih =>
    simp only [Search.run, bind, Except.bind] at hrun
    split at hrun
    · cases hrun
    next answer hstep =>
      obtain ⟨verdict?, next⟩ := answer
      have hnext := h.step hstep
      simp only [runMarks, hstep, ← List.append_assoc]
      cases verdict? with
      | none => exact ih hnext hrun
      | some v =>
        cases hrun
        rw [List.append_nil]
        refine ⟨hnext, ?_⟩
        rintro rfl
        cases transition_of_step hstep with
        | exhausted hstage => exact hstage

/-- The first call enters the search at its root. -/
theorem Follows.enter (hresting : source.Resting) (hfeasible : source.infeasible = false) :
    Follows source [] source.enter := by
  have henter : source.enter
      = { source with root? := some ⟨source.store.checkpoint, source.store.contents⟩
                      stage := .propagate } := by
    simp only [Solver.enter, hresting.root]
  refine ⟨.enter hresting hfeasible, ?_, ?_, ?_⟩ <;> rw [henter]
  · simp only [Logged, hresting.levels, hresting.decision]
    exact .root
  · exact ⟨rfl, rfl, rfl, rfl⟩
  · rintro (hdone | ⟨hback, -⟩) <;> contradiction

/-- A call adds its marks to the log. -/
theorem Follows.solve {verdict : Verdict} (hfeasible : sr.solver.infeasible = false)
    (h : Follows source log sr.solver.enter) (hsolve : sr.solve = .ok (verdict, sr')) :
    Follows source (log ++ sr.solveMarks) sr'.solver
      ∧ (verdict = .exhausted → sr'.solver.stage = .done) := by
  simp only [Search.solve, hfeasible, Bool.false_eq_true, if_false] at hsolve
  simp only [solveMarks, hfeasible, Bool.false_eq_true, if_false]
  exact Follows.run (by exact h) hsolve

end Search

namespace Solver

variable {start last : Solver Filter} {verdict? : Option Verdict}

theorem Searched.follows (h : start.Searched verdict? last log) (hresting : start.Resting) :
    (verdict? = none ∧ last = start ∧ log = [] ∨ Search.Follows start log last)
      ∧ start.infeasible = false
      ∧ (verdict? = some .exhausted → last.stage = .done) := by
  -- on the calls and cuts of the search
  induction h with
  | start feasible => exact ⟨Or.inl ⟨rfl, rfl, rfl⟩, feasible, nofun⟩
  | @call B T _ _ verdict? verdict sv log sr before brancher limit called ih =>
    obtain ⟨hbefore, hfeasible, -⟩ := ih
    have hentered : sv.infeasible = false ∧ Search.Follows start log sv.enter := by
      rcases hbefore with ⟨-, rfl, rfl⟩ | h
      · exact ⟨hfeasible, .enter hresting hfeasible⟩
      · rw [h.midway.enter_eq]
        exact ⟨h.midway.feasible, h⟩
    obtain ⟨hfollows, hdone⟩ := Search.Follows.solve hentered.1 hentered.2 called
    exact ⟨Or.inr hfollows, hfeasible, fun hverdict => hdone (Option.some.inj hverdict)⟩
  | @cut verdict? sv log before searching stage p ih =>
    obtain ⟨hbefore, hfeasible, hdone⟩ := ih
    refine ⟨?_, hfeasible, hdone⟩
    rcases hbefore with ⟨-, rfl, -⟩ | h
    · rw [isSearching, hresting.root] at searching
      cases searching
    · obtain ⟨hnodes, hfails, hsolutions, hbacktracks⟩ := h.tallied
      exact Or.inr ⟨h.midway.cut stage p, h.logged, ⟨hnodes, hfails, hsolutions, hbacktracks⟩, h.home⟩

/-- The counters describe the search tree.  When a search has come to its end, whatever calls it took
    and whatever cuts were set on the way, its log is the traversal of a tree: the alternatives of
    every branch that was handed out were applied exactly once and in order.  The counters have grown
    by what the log has, there were as many backtracks as contradictions and solutions, one node less
    than contradictions, solutions and branches, and the trail is as long as it was at the start. -/
theorem tally_of_exhausted (hprepared : start.Prepared)
    (hsearched : start.Searched (some .exhausted) last log) :
    Explored log
      ∧ last.measures.nodes = start.measures.nodes + log.countP Mark.isApplied
      ∧ last.measures.fails = start.measures.fails + log.countP Mark.isFailed
      ∧ last.measures.solutions = start.measures.solutions + log.countP Mark.isSolved
      ∧ last.measures.backtracks
        = start.measures.backtracks + log.countP Mark.isFailed + log.countP Mark.isSolved
      ∧ log.countP Mark.isApplied + 1
        = log.countP Mark.isFailed + log.countP Mark.isSolved + log.countP Mark.isHanded
      ∧ last.store.trail.length = start.store.trail.length := by
  obtain ⟨hfollows, -, hdone⟩ := hsearched.follows hprepared.resting
  have hstage := hdone rfl
  rcases hfollows with ⟨hnone, -⟩ | h
  · cases hnone
  · have hexplored : Explored log := by
      have hlogged := h.logged
      simpa only [Logged, hstage] using hlogged
    obtain ⟨hnodes, hfails, hsolutions, hbacktracks⟩ := h.tallied
    simp only [hstage, reduceCtorEq, if_false, Nat.add_zero] at hbacktracks
    have hstore : last.store = start.store := (h.home (Or.inl hstage)).store
    exact ⟨hexplored, hnodes, hfails, hsolutions, hbacktracks, hexplored.count,
      congrArg (fun s : Store => s.trail.length) hstore⟩

/-- The search of a solver for all variables in order, under a limit. -/
def inOrderWithin (sv : Solver Filter) (limit : Limit) : Search Filter Strategy Limit :=
  ⟨sv, .covering sv.store .inputOrder .min .minimum .lexicographic, limit⟩

/-- Three variables that differ pairwise and a graph: the search is stopped after two decisions, finds
    a solution, and comes to its end under a cut. -/
theorem tally_of_exhausted_trio :
    ∃ (sv last : Solver Filter) (log : List Mark), sv.Prepared
      ∧ sv.Searched (some .exhausted) last log ∧ Explored log
      ∧ last.measures = ⟨8, 4, 5, 1, 4, 0⟩
      ∧ log.countP Mark.isHanded = 4 ∧ last.store.trail.length = sv.store.trail.length := by
  have hrun : (((Solver.empty (.ofSeed 0)).state Search.trio).bind fun sv =>
      (inOrderWithin sv (.ofNodes 2)).solve.bind fun stopped =>
      (inOrderWithin stopped.2.solver .indefinite).solve.bind fun found =>
      (inOrderWithin (found.2.solver.setCut (.atMost ⟨0⟩ 1)) .indefinite).solve.map fun ended =>
        ((sv.infeasible, sv.measures), (found.2.solver.isSearching, found.2.solver.stage),
          (stopped.1, found.1, ended.1), ended.2.solver.measures)).toOption
      = some ((false, .zero), (true, .backtrack), (.stopped, .found, .exhausted),
        ⟨8, 4, 5, 1, 4, 0⟩) := by
    decide +kernel
  obtain ⟨sv, hstate, hrun⟩ := exists_of_toOption_bind hrun
  obtain ⟨⟨v₁, sr₁⟩, hstopped, hrun⟩ := exists_of_toOption_bind hrun
  obtain ⟨⟨v₂, sr₂⟩, hfound, hrun⟩ := exists_of_toOption_bind hrun
  obtain ⟨⟨v₃, sr₃⟩, hended, hrun⟩ := exists_of_toOption_map hrun
  simp only [Prod.mk.injEq] at hrun
  obtain ⟨⟨hfeasible, hzero⟩, ⟨hsearching, hstage⟩, ⟨rfl, rfl, rfl⟩, hmeasures⟩ := hrun
  have hprepared := (Solver.Prepared.empty (.ofSeed 0)).state hstate
  obtain ⟨log, hsearched⟩ : ∃ log, sv.Searched (some .exhausted) sr₃.solver log :=
    ⟨_, ((((Searched.start hfeasible).call _ _ hstopped).call _ _ hfound).cut hsearching hstage
      (.atMost ⟨0⟩ 1)).call _ _ hended⟩
  obtain ⟨hexplored, hnodes, hfails, hsolutions, -, hcount, htrail⟩ :=
    tally_of_exhausted hprepared hsearched
  simp only [hmeasures, hzero, Measures.zero] at hnodes hfails hsolutions
  exact ⟨sv, sr₃.solver, log, hprepared, hsearched, hexplored, hmeasures, by omega, htrail⟩

end Solver

end FiniteDomain
