import FiniteDomain.Proofs.Search.Enumeration

/-! # What a stream deals out

    A stream that has said that there is no further solution can still be asked.
    Its search has gone back to the root by then, and all that the stream remembers is
    whether it has handed out a solution, so it begins anew.  What it hands out comes in
    rounds, therefore (`SolutionStream.rounds`), each ended by the answer that there is
    no further solution.

    The account of the search says what belongs to a round: an answer strikes off what it
    hands out, and the end of a round opens a new account, over the same root
    (`SolutionStream.Deals`, `SolutionStream.take_deals`).  So no round repeats a
    solution, however often a limit has stopped the search, and a round that has come to
    its end is complete (`SolutionStream.Deals.rounds_spec`). -/

namespace FiniteDomain

/-- Once everything is fixed, what is left in spaces at rest that come from the root satisfies the
    condition, which need not be that of the constraints (`Space.Conclusive`). -/
def Space.Yields (k : Concern) (root : Space Filter) (most : Valuation → Prop) : Prop :=
  ∀ sp, root.Leads sp → sp.AtRest k → sp.store.Fixed → ∀ a, sp.store.Admits a → most a

namespace Search

variable {k : Concern} {B T : Type} [Brancher B] [Termination T] {root : Space Filter}
  {fits : Store → B → Prop} {final : Store → Prop} {sr sr' : Search Filter B T} {acc : Account}

omit [Termination T] in
/-- A search that is given up can begin anew, with all that it owed in the beginning. -/
theorem Underway.restore (cov : Serving root.store fits final) (hroot : root.AtRest k)
    (h : Underway k root fits final sr acc) (hsame : SameTask sr.solver.enter sr'.solver)
    (hleads : root.Leads sr'.solver.space) {s : Store} (hfits : fits s sr'.brancher) :
    ∃ last, sr'.restore = .ok last ∧ last.solver.cut? = none
      ∧ Underway k root fits final last
        ⟨[], root.store.Admits, 7 * root.store.contents - 3⟩ := by
  have hstart := hsame.root.trans h.start
  have hfeasible : sr'.solver.infeasible = false := by
    rw [hsame.infeasible, infeasible_enter]
    exact h.feasible
  obtain ⟨space, hback, halike⟩ := Space.backtrackTo_leads hroot.settled hroot.wf hleads
  simp only [Search.restore, hstart, hback, bind, Except.bind]
  exact ⟨_, rfl, rfl, underway_of_alike halike rfl rfl rfl rfl hfeasible
    (cov.back (.refl hroot.wf) hfits)⟩

end Search

namespace SolutionStream

open Search

/-! ### Rounds -/

/-- The solutions that the answers hand out, cut where it is said that there is no further one.  The
    last round has not come to its end. -/
def rounds : List StreamAnswer → List (List Solution)
  | [] => [[]]
  | .solution sol :: rest => (rounds rest).modifyHead (sol :: ·)
  | .unknown :: rest => rounds rest
  | .finished :: rest | .unsatisfiable :: rest => [] :: rounds rest

theorem rounds_ne_nil (answers : List StreamAnswer) : rounds answers ≠ [] := by
  induction answers with
  | nil => exact List.cons_ne_nil _ _
  | cons answer rest ih =>
    cases answer with
    | solution sol => exact fun hnil => ih (List.modifyHead_eq_nil_iff.mp hnil)
    | unknown => exact ih
    | finished => exact List.cons_ne_nil _ _
    | unsatisfiable => exact List.cons_ne_nil _ _

theorem rounds_lastAnswer (told : Bool) (rest : List StreamAnswer) :
    rounds (lastAnswer told :: rest) = [] :: rounds rest := by
  cases told <;> rfl

/-- The solutions read as valuations, one by one and without repetition; none of `least` is missing,
    and there is none but of `most`. -/
def ListsBetween (least most : Valuation → Prop) (sols : List Solution) : Prop :=
  ∃ condition, Lists sols condition ∧ (∀ a, least a → condition a) ∧ ∀ a, condition a → most a

section

variable {sols : List Solution} {least most least' most' : Valuation → Prop}

theorem ListsBetween.mono (h : ListsBetween least most sols) (hleast : ∀ a, least' a → least a)
    (hmost : ∀ a, most a → most' a) : ListsBetween least' most' sols := by
  obtain ⟨condition, hlists, hall, honly⟩ := h
  exact ⟨condition, hlists, fun a ha => hall a (hleast a ha), fun a ha => hmost a (honly a ha)⟩

/-- Nothing is missing and there is nothing else. -/
theorem ListsBetween.lists (h : ListsBetween least most sols) (hmost : ∀ a, most a → least a) :
    Lists sols least := by
  obtain ⟨condition, hlists, hall, honly⟩ := h
  exact hlists.congr fun a => ⟨fun ha => hmost a (honly a ha), hall a⟩

end

/-! ### Dealing out -/

/-- The answers of a stream that has the valuations of `due` left in this round, and those of `all`
    in every round that follows.  A solution is struck off; those of `sat` are given up in no
    other way.  `told` says whether a solution has been handed out. -/
inductive Deals (sat all : Valuation → Prop) :
    (due : Valuation → Prop) → (told : Bool) → List StreamAnswer → Prop where
  /-- The stream is not asked any more. -/
  | nil {due : Valuation → Prop} {told : Bool} : Deals sat all due told []
  /-- A solution is handed out. -/
  | solution {due left : Valuation → Prop} {told : Bool} {sol : Solution} {a : Valuation}
      {rest : List StreamAnswer} (reads : sol.Reads a) (owed : due a) (struck : ¬ left a)
      (kept : ∀ b, due b → sat b → b = a ∨ left b) (added : ∀ b, left b → due b)
      (later : Deals sat all left true rest) : Deals sat all due told (.solution sol :: rest)
  /-- The limit has stopped the search. -/
  | unknown {due left : Valuation → Prop} {told : Bool} {rest : List StreamAnswer}
      (kept : ∀ b, due b → sat b → left b) (added : ∀ b, left b → due b)
      (later : Deals sat all left told rest) : Deals sat all due told (.unknown :: rest)
  /-- The round has come to its end. -/
  | ended {due : Valuation → Prop} {told : Bool} {rest : List StreamAnswer}
      (nothing : ∀ b, due b → ¬ sat b) (later : Deals sat all all told rest) :
      Deals sat all due told (lastAnswer told :: rest)

namespace Deals

variable {sat all due : Valuation → Prop} {told : Bool} {answers before after : List StreamAnswer}

/-- The first round lists what is due, and every further round lists what belongs to all of them;
    rounds that have come to their end leave out nothing that satisfies the condition. -/
theorem rounds_cons (h : Deals sat all due told answers) :
    ∃ first later, rounds answers = first :: later
      ∧ ListsBetween (fun a => later ≠ [] ∧ due a ∧ sat a) due first
      ∧ (∀ round ∈ later, ListsBetween (fun _ => False) all round)
      ∧ ∀ round ∈ later.dropLast, ListsBetween (fun a => all a ∧ sat a) all round := by
  -- on the answers: each is put before the first round, until the end of a round opens a new one
  induction h with
  | nil =>
    refine ⟨[], [], rfl, ⟨fun _ => False, .nil nofun, ?_, nofun⟩, nofun, nofun⟩
    exact fun a ha => ha.1 rfl
  | @solution due left told sol a rest reads owed struck kept added later ih =>
    obtain ⟨first, others, hrounds, ⟨condition, hlists, hall, honly⟩, hothers⟩ := ih
    refine ⟨sol :: first, others, by rw [rounds, hrounds]; rfl, ?_, hothers⟩
    refine ⟨fun b => b = a ∨ condition b, ?_, fun b hb => ?_, fun b hb => ?_⟩
    · exact hlists.cons reads (Or.inl rfl) (fun ha => struck (honly a ha)) (fun _ hb => hb)
        fun _ hb => Or.inr hb
    · exact (kept b hb.2.1 hb.2.2).imp_right fun hleft => hall b ⟨hb.1, hleft, hb.2.2⟩
    · rcases hb with rfl | hb
      · exact owed
      · exact added b (honly b hb)
  | unknown kept added later ih =>
    obtain ⟨first, others, hrounds, hfirst, hothers⟩ := ih
    exact ⟨first, others, hrounds,
      hfirst.mono (fun a ha => ⟨ha.1, kept a ha.2.1 ha.2.2, ha.2.2⟩) added, hothers⟩
  | ended nothing later ih =>
    obtain ⟨first, others, hrounds, hfirst, hsome, hdone⟩ := ih
    refine ⟨[], first :: others, by rw [rounds_lastAnswer, hrounds], ?_, ?_, ?_⟩
    · exact ⟨fun _ => False, .nil nofun, fun a ha => nothing a ha.2.1 ha.2.2, nofun⟩
    · exact List.forall_mem_cons.mpr ⟨hfirst.mono nofun fun _ ha => ha, hsome⟩
    · -- the round that was the first has come to its end if there is another behind it
      cases others with
      | nil => exact nofun
      | cons second rest =>
        rw [List.dropLast_cons_of_ne_nil (List.cons_ne_nil second rest)]
        exact List.forall_mem_cons.mpr
          ⟨hfirst.mono (fun _ ha => ⟨List.cons_ne_nil second rest, ha⟩) fun _ ha => ha, hdone⟩

/-- What a stream hands out from the beginning: no round repeats a solution, and those that have
    come to their end leave out nothing that satisfies the condition. -/
theorem rounds_spec (h : Deals sat all all told answers) :
    (∀ round ∈ rounds answers, ListsBetween (fun _ => False) all round)
      ∧ ∀ round ∈ (rounds answers).dropLast, ListsBetween (fun a => all a ∧ sat a) all round := by
  -- the beginning is where a round without any solution has come to its end
  have hended : Deals sat all (fun _ => False) told (lastAnswer told :: answers) := .ended nofun h
  obtain ⟨first, later, hrounds, -, hall⟩ := hended.rounds_cons
  rw [rounds_lastAnswer] at hrounds
  obtain ⟨-, rfl⟩ := List.cons.inj hrounds
  exact hall

/-- That there is no further solution is said after a solution; that there is none is said before
    any. -/
theorem told_of_ended (h : Deals sat all due told answers) {answer : StreamAnswer}
    (hsplit : answers = before ++ answer :: after) :
    (answer = .finished → told = true ∨ ∃ sol, .solution sol ∈ before)
      ∧ (answer = .unsatisfiable → told = false ∧ ∀ sol, .solution sol ∉ before) := by
  -- the split lies at the first answer or in what follows it
  induction h generalizing before with
  | nil => exact absurd hsplit.symm (List.append_ne_nil_of_right_ne_nil _ (List.cons_ne_nil _ _))
  | @solution due left told sol a rest reads owed struck kept added later ih =>
    cases before with
    | nil =>
      obtain ⟨rfl, -⟩ := List.cons.inj hsplit
      exact ⟨nofun, nofun⟩
    | cons first before =>
      obtain ⟨rfl, hrest⟩ := List.cons.inj hsplit
      refine ⟨fun _ => Or.inr ⟨sol, List.mem_cons_self⟩, fun hnone => ?_⟩
      cases ((ih hrest).2 hnone).1
  | @unknown due left told rest kept added later ih =>
    cases before with
    | nil =>
      obtain ⟨rfl, -⟩ := List.cons.inj hsplit
      exact ⟨nofun, nofun⟩
    | cons first before =>
      obtain ⟨rfl, hrest⟩ := List.cons.inj hsplit
      simpa using ih hrest
  | @ended due told rest nothing later ih =>
    cases before with
    | nil =>
      obtain ⟨rfl, -⟩ := List.cons.inj hsplit
      cases told <;> simp [lastAnswer]
    | cons first before =>
      obtain ⟨rfl, hrest⟩ := List.cons.inj hsplit
      cases told <;> simpa [lastAnswer] using ih hrest

/-- A stream that never has a solution. -/
theorem of_nothing (h : ∀ a, ¬ sat a) (count : Nat) :
    Deals sat all due false (List.replicate count .unsatisfiable) := by
  induction count generalizing due with
  | zero => exact .nil
  | succ count ih => exact .ended (fun a _ => h a) ih

end Deals

section

variable {k : Concern} {B T : Type} [Brancher B] [Termination T] {root : Space Filter}
  {fits : Store → B → Prop} {acc : Account} {sat most : Valuation → Prop}

/-- A stream that is underway deals out what is owed, and what the root has after each round. -/
theorem take_deals (cov : Serving root.store fits Store.Fixed) (hroot : root.AtRest k)
    (hsat : ∀ a, sat a → root.Satisfies a) (hmost : root.Yields k most)
    {st : SolutionStream Filter B T} (h : Underway k root fits Store.Fixed st.search acc)
    (hcut : st.search.solver.cut? = none) (count : Nat) :
    ∃ answers last, st.take count = .ok (answers, last)
      ∧ Deals sat (fun a => root.store.Admits a ∧ most a) (fun a => acc.Owes a ∧ most a)
          st.hasSolution answers := by
  -- on the questions: what is owed changes with every answer, the root does not
  induction count generalizing st acc with
  | zero => exact ⟨[], st, rfl, .nil⟩
  | succ count ih =>
    obtain ⟨verdict, sr', hsolve, hstops, hsame⟩ := h.solve cov hroot
    rw [hcut] at hstops
    have hcut' : sr'.solver.cut? = none := by
      rw [hsame.cut, cut?_enter]
      exact hcut
    simp only [take, next, hsolve, bind, Except.bind]
    cases hstops with
    | @found _ acc' pursues reported shorter owed kept added struck =>
      obtain ⟨a, hreads, honly⟩ := reported.reads
      have ha : sr'.solver.store.Admits a := (honly a).mpr rfl
      have hmosta : most a := hmost _ reported.leads reported.rest reported.decided a ha
      obtain ⟨answers, last, htake, hdeals⟩ :=
        @ih _ ⟨sr', true⟩ (h.next hsame pursues shorter.le) hcut'
      simp only [pure, Except.pure, htake]
      refine ⟨_, _, rfl, .solution hreads ⟨owed a ha, hmosta⟩ (fun hleft => struck a ha hleft.1)
        (fun b hb hsatb => ?_) (fun b hb => ⟨added b hb.1, hb.2⟩) hdeals⟩
      rcases kept b (hsat b hsatb) hb.1 (meets_none b) with hadmits | howes
      · exact Or.inl ((honly b).mp hadmits)
      · exact Or.inr ⟨howes, hb.2⟩
    | @stopped _ acc' pursues le kept added =>
      obtain ⟨answers, last, htake, hdeals⟩ :=
        @ih _ ⟨sr', st.hasSolution⟩ (h.next hsame pursues le) hcut'
      simp only [pure, Except.pure, htake]
      exact ⟨_, _, rfl, .unknown
        (fun b hb hsatb => ⟨kept b (hsat b hsatb) hb.1 (meets_none b), hb.2⟩)
        (fun b hb => ⟨added b hb.1, hb.2⟩) hdeals⟩
    | exhausted nothing leads brancher =>
      -- the stream goes on with a search that owes all that the root has
      obtain ⟨anew, hrestore, hnone, hunderway⟩ := h.restore cov hroot hsame leads brancher
      obtain ⟨answers, last, htake, hdeals⟩ := @ih _ ⟨anew, st.hasSolution⟩ hunderway hnone
      simp only [pure, Except.pure, hrestore, htake]
      simp only [Account.owes_nil] at hdeals
      exact ⟨_, _, rfl,
        .ended (fun b hb hsatb => nothing b (hsat b hsatb) hb.1 (meets_none b)) hdeals⟩

end

/-! ### Complete enumerations -/

/-- The solutions that the answers hand out before it is said that there is no further one;
    answers of a limit that stops the search stand between them. -/
def completed? : List StreamAnswer → Option (List Solution)
  | [] => none
  | .solution sol :: rest => (completed? rest).map (sol :: ·)
  | .unknown :: rest => completed? rest
  | .finished :: _ | .unsatisfiable :: _ => some []

/-- The stream, asked often enough, hands out these solutions and says that there is no further
    one. -/
def Completes {B : Type} [Brancher B] {T : Type} [Termination T] (st : SolutionStream Filter B T)
    (sols : List Solution) : Prop :=
  ∃ count answers last, st.take count = .ok (answers, last) ∧ completed? answers = some sols

/-- They are the first round, which is not the last. -/
theorem rounds_of_completed {answers : List StreamAnswer} {sols : List Solution}
    (h : completed? answers = some sols) :
    ∃ later, rounds answers = sols :: later ∧ later ≠ [] := by
  induction answers generalizing sols with
  | nil => cases h
  | cons answer rest ih =>
    cases answer with
    | solution sol =>
      obtain ⟨others, hothers, rfl⟩ := Option.map_eq_some_iff.mp h
      obtain ⟨later, hrounds, hlater⟩ := ih hothers
      exact ⟨later, by rw [rounds, hrounds]; rfl, hlater⟩
    | unknown => exact ih h
    | finished =>
      cases h
      exact ⟨rounds rest, rfl, rounds_ne_nil rest⟩
    | unsatisfiable =>
      cases h
      exact ⟨rounds rest, rfl, rounds_ne_nil rest⟩

/-- What a stream has handed out when there is no further one is what was due, however often it was
    stopped. -/
theorem take_spec {k : Concern} {B T : Type} [Brancher B] [Termination T] {root : Space Filter}
    {fits : Store → B → Prop} {acc : Account} (cov : Serving root.store fits Store.Fixed)
    (hrest : root.AtRest k) (hroot : root.Conclusive k) {count : Nat}
    {st last : SolutionStream Filter B T} {answers : List StreamAnswer} {sols : List Solution}
    (h : Underway k root fits Store.Fixed st.search acc) (hcut : st.search.solver.cut? = none)
    (htake : st.take count = .ok (answers, last)) (hcomplete : completed? answers = some sols) :
    Lists sols (Due root acc) := by
  obtain ⟨answers', last', htake', hdeals⟩ :=
    take_deals cov hrest (fun _ hsat => hsat) hroot h hcut count
  obtain ⟨rfl, -⟩ := Prod.mk.inj (Except.ok.inj (htake'.symm.trans htake))
  obtain ⟨later, hrounds, hlater⟩ := rounds_of_completed hcomplete
  obtain ⟨first, others, hrounds', hfirst, -⟩ := hdeals.rounds_cons
  obtain ⟨rfl, rfl⟩ := List.cons.inj (hrounds.symm.trans hrounds')
  exact (hfirst.mono (fun a ha => ⟨hlater, ha, ha.2⟩) fun _ ha => ha).lists fun _ ha => ha

end SolutionStream

end FiniteDomain
