import FiniteDomain.Proofs.Branching.Strategy
import FiniteDomain.Proofs.Filter.Lossless
import FiniteDomain.Proofs.Propagation.Fixpoint
import FiniteDomain.Proofs.Search.Replay

/-! # What a search still owes

    At every stage a search owes the valuations of the part of the tree it is in,
    and those of the alternatives that its open levels have not taken yet
    (`Account.Owes`).  A transition gives up none that satisfies the constraints
    and adds none, and those of a store that is reported are struck off; the parts
    do not overlap, so they do not come back.

    The account also says how many transitions can follow.  A part of the tree
    with `n` contents takes fewer than `7 * n` of them: the alternatives of a
    branch, of which there are at least two, share out the contents, so there is
    room for the transitions that open, enter and leave a level.

    What is reported is at rest for the concern that propagation sees to
    (`Space.AtRest`), and its brancher has nothing left to decide. -/

namespace FiniteDomain

/-! ### What is left when everything is fixed -/

namespace Store

variable {s : Store} {a b : Valuation}

/-- A variable that does not exist has one content. -/
theorem settles_of_unknown {v : VariableId} (h : s.knows v = false) : s.Settles v := by
  cases v with
  | int x =>
    have hx : s.ints.size ≤ x.index := Nat.not_lt.mp (of_decide_eq_false h)
    show (s.ints.getD x.index default).isFixed = true
    rw [Table.getD_of_size_le hx]
    rfl
  | set y =>
    have hy : s.sets.size ≤ y.index := Nat.not_lt.mp (of_decide_eq_false h)
    show (s.sets.getD y.index default).isFixed = true
    rw [Table.getD_of_size_le hy]
    rfl
  | graph g =>
    have hg : s.graphs.size ≤ g.index := Nat.not_lt.mp (of_decide_eq_false h)
    show (s.graphs.getD g.index default).isFixed = true
    rw [Table.getD_of_size_le hg]
    rfl

/-- What a fixed variable can be given is determined. -/
theorem sameAt_of_settles (hs : s.Wf) (ha : s.Admits a) (hb : s.Admits b) {v : VariableId}
    (hv : s.Settles v) : a.SameAt b v := by
  cases v with
  | int x =>
    have hvalue := (isFixed_iff_contains (hs.int x)).mp hv
    exact (hvalue _ (ha.int x)).trans (hvalue _ (hb.int x)).symm
  | set y =>
    exact (SetDomain.admits_unique (hs.set y) hv (ha.set y)).trans
      (SetDomain.admits_unique (hs.set y) hv (hb.set y)).symm
  | graph g =>
    exact (GraphDomain.admits_unique (hs.graph g) hv (ha.graph g)).trans
      (GraphDomain.admits_unique (hs.graph g) hv (hb.graph g)).symm

/-- Valuations that the store admits are equal if they give the same to its variables. -/
theorem Admits.ext (hs : s.Wf) (ha : s.Admits a) (hb : s.Admits b)
    (hsame : ∀ v, s.knows v = true → a.SameAt b v) : a = b := by
  have hall : ∀ v, a.SameAt b v := fun v => by
    cases hv : s.knows v with
    | true => exact hsame v hv
    | false => exact sameAt_of_settles hs ha hb (settles_of_unknown hv)
  exact Valuation.ext (funext fun x => hall (.int x)) (funext fun y => hall (.set y))
    (funext fun g => hall (.graph g))

/-- Once everything is fixed one valuation is left. -/
theorem admits_unique (hs : s.Wf) (hall : ∀ v, s.knows v = true → s.Settles v)
    (ha : s.Admits a) (hb : s.Admits b) : a = b :=
  ha.ext hs hb fun v hv => sameAt_of_settles hs ha hb (hall v hv)

end Store

/-! ### Cuts -/

/-- The valuation meets the demand of an optimisation, if there is one. -/
def Meets (cut? : Option Predicate) (a : Valuation) : Prop := ∀ p, cut? = some p → p.Holds a.int

/-- The variable of the demand exists. -/
def CutKnown (s : Store) (cut? : Option Predicate) : Prop :=
  ∀ p, cut? = some p → (Decision.impose p).Known s

/-- The demand takes no value out of the middle of a domain. -/
def CutSharp (cut? : Option Predicate) : Prop :=
  ∀ p, cut? = some p → ∀ t, (Decision.impose p).Sharp t

theorem meets_none (a : Valuation) : Meets none a := nofun

theorem cutKnown_none (s : Store) : CutKnown s none := nofun

theorem cutSharp_none : CutSharp none := nofun

theorem Decision.Known.narrower {d : Decision} {s t : Store} (h : d.Known s)
    (hst : s.Narrower t) : d.Known t :=
  (check_congr d.request hst.knows hst.order).trans h

theorem CutKnown.narrower {cut? : Option Predicate} {s t : Store} (h : CutKnown s cut?)
    (hst : s.Narrower t) : CutKnown t cut? :=
  fun p hp => (h p hp).narrower hst

/-! ### Spaces at rest -/

namespace Space

variable {k : Concern} {root base sp sp' t : Space Filter} {d : Decision} {a : Valuation}

/-- Propagation has come to rest and nothing is amiss. -/
structure AtRest (k : Concern) (sp : Space Filter) : Prop where
  /-- Nothing amiss goes unnoticed. -/
  watchful : sp.Watchful k fun _ _ => False
  /-- Propagation has come to rest. -/
  settled : sp.Settled

theorem AtRest.wf (h : sp.AtRest k) : sp.store.Wf := h.watchful.wf

theorem AtRest.alike (h : sp.AtRest k) (halike : sp.Alike sp') : sp'.AtRest k :=
  ⟨h.watchful.alike halike, h.settled.alike halike⟩

/-- Propagation has come to rest and no clash goes unnoticed. -/
structure Calm (sp : Space Filter) : Prop where
  /-- No clash goes unnoticed. -/
  watchful : sp.Watchful .clashes fun _ _ => False
  /-- Propagation has come to rest. -/
  settled : sp.Settled

theorem Calm.atRest (h : sp.Calm) : sp.AtRest .clashes := ⟨h.watchful, h.settled⟩

theorem AtRest.calm (h : sp.AtRest .clashes) : sp.Calm := ⟨h.watchful, h.settled⟩

theorem Calm.alike (h : sp.Calm) (halike : sp.Alike sp') : sp'.Calm :=
  ⟨h.watchful.alike halike, h.settled.alike halike⟩

theorem Alike.solves (h : sp.Alike sp') (a : Valuation) : sp'.Solves a ↔ sp.Solves a := by
  unfold Solves Satisfies filterAt?
  rw [h.store, h.posted]

/-- What is posted is the same wherever the space leads. -/
theorem Leads.satisfies (h : base.Leads t) (a : Valuation) : t.Satisfies a ↔ base.Satisfies a := by
  unfold Satisfies
  simp only [h.filterAt]

/-- Requests that are carried out after a decision are carried out on the store that the decision
    leaves. -/
theorem settle_of_cons {requests : List Narrowing} (hd : d.Known sp.store)
    (hrun : sp.settle (d.request :: requests) = .ok (none, sp')) :
    (d.apply sp.store).changed? ≠ none
      ∧ settle requests { sp with store := (d.apply sp.store).store } = .ok (none, sp') := by
  rw [settle_cons hd] at hrun
  split at hrun
  · cases hrun
  next hne => exact ⟨hne, hrun⟩

/-- A decision that was carried out could be. -/
theorem known_of_settle {requests : List Narrowing} {out : Option Contradiction × Space Filter}
    (hrun : sp.settle (d.request :: requests) = .ok out) : d.Known sp.store := by
  unfold Decision.Known
  cases hcheck : d.request.check sp.store with
  | ok _ => rfl
  | error e =>
    simp only [settle, Narrowing.run, hcheck, bind, Except.bind] at hrun
    cases hrun

/-- Decisions that are carried out without a contradiction leave the space at rest. -/
theorem AtRest.settle {ds : List Decision} (h : sp.AtRest k)
    (hrun : sp.settle (ds.map Decision.request) = .ok (none, sp')) : sp'.AtRest k := by
  refine ⟨?_, settled_settle h.settled.alert hrun⟩
  have hwatchful := h.watchful
  clear h
  induction ds generalizing sp with
  | nil =>
    -- whatever propagation loses, no valuation has to be kept
    have hspares : sp.Spares fun _ => False := hwatchful.spares_of_satisfies fun _ hno => hno.elim
    obtain ⟨c?, last, hpropagate, -, hrest⟩ := propagate_spec hwatchful hspares
    cases hpropagate.symm.trans hrun
    exact (hrest rfl).1
  | cons d rest ih =>
    obtain ⟨-, hrest⟩ := settle_of_cons (known_of_settle hrun) hrun
    exact ih hrest (hwatchful.steps (.of_narrowed (d.apply_obeys hwatchful.wf).toSteps))

/-- What is left after a decision obeys it. -/
theorem holds_of_settle {requests : List Narrowing} (hs : sp.store.Wf) (hd : d.Known sp.store)
    (hkeeps : (d.apply sp.store).Keeps sp.store d.Holds)
    (hrun : sp.settle (d.request :: requests) = .ok (none, sp')) :
    (∀ a, sp'.store.Admits a → d.Holds a)
      ∧ sp'.store.contents ≤ (d.apply sp.store).store.contents := by
  obtain ⟨hne, hrest⟩ := settle_of_cons hd hrun
  have hsteps : sp.store.Steps (d.apply sp.store).store := .of_narrowed hkeeps.toSteps
  have hleads : Leads { sp with store := (d.apply sp.store).store } sp' :=
    leads_settle (hsteps.wf hs) hrest
  exact ⟨fun a ha => hkeeps.exactly hne a (hleads.store.admits (hsteps.wf hs) ha),
    hleads.store.contents_le (hsteps.wf hs)⟩

theorem meets_of_settle {cut? : Option Predicate} (hs : sp.store.Wf)
    (hknown : CutKnown sp.store cut?) (hsharp : CutSharp cut?)
    (hrun : sp.settle (cut?.map Narrowing.impose).toList = .ok (none, sp'))
    (ha : sp'.store.Admits a) : Meets cut? a := by
  rintro p rfl
  exact (holds_of_settle (d := .impose p) hs (hknown p rfl)
    (Decision.apply_keeps hs (hsharp p rfl _)) hrun).1 a ha

/-- What carrying out an alternative together with the cut comes to. -/
structure Enters (k : Concern) (d : Decision) (cut? : Option Predicate) (base : Space Filter)
    (c? : Option Contradiction) (sp : Space Filter) : Prop where
  /-- The space comes from the one in which the level was opened. -/
  leads : base.Leads sp
  /-- Without a contradiction the space is at rest. -/
  rest : c? = none → sp.AtRest k
  /-- What is left obeys the decision, and the cut if that can be carried out exactly. -/
  obeys : c? = none → ∀ a, sp.store.Admits a → d.Holds a ∧ (CutSharp cut? → Meets cut? a)
  /-- The space has no more contents than the decision leaves. -/
  contents : c? = none → sp.store.contents ≤ (d.apply base.store).store.contents
  /-- A solution that obeys both excludes a contradiction and is not lost. -/
  kept : ∀ a, base.store.Admits a → base.Satisfies a → d.Holds a → Meets cut? a →
    c? = none ∧ sp.store.Admits a

theorem AtRest.enters (h : base.AtRest k) {cut? : Option Predicate} (hd : d.Known base.store)
    (hkeeps : (d.apply base.store).Keeps base.store d.Holds) (hcut : CutKnown base.store cut?) :
    ∃ c? sp, base.settle (d.request :: (cut?.map Narrowing.impose).toList) = .ok (c?, sp)
      ∧ Enters k d cut? base c? sp := by
  -- the cut is carried out as one more decision
  have hrequests : d.request :: (cut?.map Narrowing.impose).toList
      = (d :: (cut?.map Decision.impose).toList).map Decision.request := by
    cases cut? <;> rfl
  have hmem : ∀ d' ∈ (cut?.map Decision.impose).toList, ∃ p, cut? = some p ∧ d' = .impose p := by
    intro d' hd'
    cases cut? with
    | none => cases hd'
    | some p => exact ⟨p, rfl, List.mem_singleton.mp hd'⟩
  have hknown : ∀ d' ∈ d :: (cut?.map Decision.impose).toList, d'.Known base.store := by
    intro d' hd'
    rcases List.mem_cons.mp hd' with rfl | hd'
    · exact hd
    · obtain ⟨p, hp, rfl⟩ := hmem d' hd'
      exact hcut p hp
  have hspares : base.Spares fun a => base.Satisfies a
      ∧ ∀ d' ∈ d :: (cut?.map Decision.impose).toList, d'.Holds a :=
    h.watchful.spares_of_satisfies fun _ hsat => hsat.1
  obtain ⟨c?, sp, hrun, hconclude, hend⟩ :=
    settle_spec h.watchful hspares (fun _ hsat => hsat.2) hknown
  rw [← hrequests] at hrun
  refine ⟨c?, sp, hrun, hconclude.leads, fun hnone => ⟨(hend hnone).1, (hend hnone).2⟩, ?_, ?_,
    fun a ha hsat hholds hmeets => ?_⟩
  · rintro rfl a ha
    refine ⟨(holds_of_settle h.wf hd hkeeps hrun).1 a ha, fun hsharp => ?_⟩
    have hsteps : base.store.Steps (d.apply base.store).store := .of_narrowed hkeeps.toSteps
    exact meets_of_settle (hsteps.wf h.wf) (hcut.narrower (hsteps.narrower h.wf)) hsharp
      (settle_of_cons hd hrun).2 ha
  · rintro rfl
    exact (holds_of_settle h.wf hd hkeeps hrun).2
  · have hall : ∀ d' ∈ d :: (cut?.map Decision.impose).toList, d'.Holds a := by
      intro d' hd'
      rcases List.mem_cons.mp hd' with rfl | hd'
      · exact hholds
      · obtain ⟨p, hp, rfl⟩ := hmem d' hd'
        exact hmeets p hp
    refine ⟨?_, hconclude.kept a ha ⟨hsat, hall⟩⟩
    cases c? with
    | none => rfl
    | some c => exact absurd ⟨hsat, hall⟩ (hconclude.refuted c rfl a ha)

end Space

namespace Search

/-! ### Accounts -/

/-- An open level with the space in which it was opened. -/
structure Frame where
  /-- The level. -/
  level : Level
  /-- The space in which every alternative starts. -/
  base : Space Filter

namespace Frame

/-- The valuation belongs to an alternative that has not been taken yet. -/
def Owes (fr : Frame) (a : Valuation) : Prop :=
  fr.base.store.Admits a ∧ ∃ d ∈ fr.level.remaining, d.Holds a

/-- A bound on the transitions that an alternative takes. -/
def price (base : Space Filter) (d : Decision) : Nat := 7 * (d.apply base.store).store.contents - 3

/-- A bound on the transitions that the remaining alternatives take. -/
def cost (fr : Frame) : Nat := (fr.level.remaining.map (price fr.base)).sum

end Frame

/-- What a search has still to do. -/
structure Account where
  /-- The open levels, the innermost first. -/
  frames : List Frame
  /-- The valuations of the part of the tree that the search is in. -/
  region : Valuation → Prop
  /-- A bound on the transitions in that part. -/
  here : Nat

namespace Account

/-- The valuation has not been struck off yet. -/
def Owes (acc : Account) (a : Valuation) : Prop := acc.region a ∨ ∃ fr ∈ acc.frames, fr.Owes a

theorem owes_nil {region : Valuation → Prop} {here : Nat} (a : Valuation) :
    (⟨[], region, here⟩ : Account).Owes a ↔ region a :=
  or_iff_left fun ⟨_, hfr, _⟩ => List.not_mem_nil hfr

/-- A bound on the transitions that are left. -/
def cost (acc : Account) : Nat := acc.here + (acc.frames.map Frame.cost).sum

end Account

/-- Each level was opened in an alternative of the next one, and the space is in an alternative of
    the innermost; the region belongs to that alternative. -/
inductive Stacked (k : Concern) (root : Space Filter) :
    List Frame → Space Filter → (Valuation → Prop) → Prop where
  /-- No level is open. -/
  | root {t : Space Filter} {region : Valuation → Prop} (leads : root.Leads t) :
      Stacked k root [] t region
  /-- The innermost level. -/
  | frame {fr : Frame} {outer : List Frame} {t : Space Filter} {region : Valuation → Prop}
      (rest : fr.base.AtRest k) (checkpoint : fr.level.checkpoint = fr.base.store.checkpoint)
      (divides : Divides fr.base.store fr.level.remaining) (leads : fr.base.Leads t)
      (inside : ∀ a, region a → fr.base.store.Admits a) (apart : ∀ a, region a → ¬ fr.Owes a)
      (opened : Stacked k root outer fr.base fr.base.store.Admits) :
      Stacked k root (fr :: outer) t region

variable {k : Concern} {root t t' sp : Space Filter} {frames outer : List Frame} {fr : Frame}
  {region region' sat : Valuation → Prop} {a : Valuation} {d : Decision}

namespace Stacked

theorem leads (h : Stacked k root frames t region) : root.Leads t := by
  induction h with
  | root leads => exact leads
  | frame rest checkpoint divides leads inside apart opened ih => exact ih.trans leads

/-- Further inside the same alternative. -/
theorem mono (h : Stacked k root frames t region) (ht : t.Leads t')
    (hregion : ∀ a, region' a → region a) : Stacked k root frames t' region' := by
  cases h with
  | root leads => exact .root (leads.trans ht)
  | frame rest checkpoint divides leads inside apart opened =>
    exact .frame rest checkpoint divides (leads.trans ht)
      (fun a ha => inside a (hregion a ha)) (fun a ha => apart a (hregion a ha)) opened

/-- What belongs to the present alternative belongs to no other. -/
theorem not_owes (h : Stacked k root frames t region) (ha : region a) :
    ¬ ∃ fr ∈ frames, fr.Owes a := by
  induction h with
  | root leads => simp
  | frame rest checkpoint divides leads inside apart opened ih =>
    rintro ⟨fr', hmem, howes⟩
    rcases List.mem_cons.mp hmem with rfl | hmem
    · exact apart a ha howes
    · exact ih (inside a ha) ⟨fr', hmem, howes⟩

end Stacked

/-! ### The account of a search -/

section

variable {B T : Type} [Brancher B] [Termination T] {fits : Store → B → Prop}
  {final : Store → Prop} {sr sr' : Search Filter B T} {acc : Account}

/-- The account of a search at each of its stages. -/
inductive Pursues (k : Concern) (root : Space Filter) (fits : Store → B → Prop)
    (final : Store → Prop) (sr : Search Filter B T) :
    Account → Prop where
  /-- A branch is to be chosen. -/
  | select {frames : List Frame} {sp : Space Filter} (stage : sr.solver.stage = .select)
      (levels : sr.solver.levels = frames.map Frame.level) (rest : sp.AtRest k)
      (alike : sp.Alike sr.solver.space) (stacked : Stacked k root frames sp sp.store.Admits)
      (brancher : fits sp.store sr.brancher) (cut : CutSharp sr.solver.cut? → ∀ a, sp.store.Admits a → Meets sr.solver.cut? a) :
      Pursues k root fits final sr ⟨frames, sp.store.Admits, 7 * sp.store.contents - 4⟩
  /-- A level was opened. -/
  | decide {fr : Frame} {outer : List Frame} (stage : sr.solver.stage = .decide)
      (levels : sr.solver.levels = (fr :: outer).map Frame.level)
      (remaining : fr.level.remaining ≠ []) (alike : fr.base.Alike sr.solver.space)
      (stacked : Stacked k root (fr :: outer) fr.base fun _ => False)
      (brancher : fits fr.base.store sr.brancher) :
      Pursues k root fits final sr ⟨fr :: outer, fun _ => False, 1⟩
  /-- The search begins. -/
  | root (stage : sr.solver.stage = .propagate) (levels : sr.solver.levels = [])
      (decision : sr.solver.decision? = none) (cut : sr.solver.cut? = none)
      (alike : root.Alike sr.solver.space) (brancher : fits root.store sr.brancher) :
      Pursues k root fits final sr ⟨[], root.store.Admits, 7 * root.store.contents - 3⟩
  /-- An alternative is to be carried out. -/
  | alternative {fr : Frame} {outer : List Frame} {d : Decision}
      (stage : sr.solver.stage = .propagate)
      (levels : sr.solver.levels = (fr :: outer).map Frame.level)
      (decision : sr.solver.decision? = some d) (known : d.Known fr.base.store)
      (keeps : (d.apply fr.base.store).Keeps fr.base.store d.Holds)
      (alike : fr.base.Alike sr.solver.space)
      (stacked : Stacked k root (fr :: outer) fr.base fun a => fr.base.store.Admits a ∧ d.Holds a)
      (brancher : fits fr.base.store sr.brancher) :
      Pursues k root fits final sr
        ⟨fr :: outer, fun a => fr.base.store.Admits a ∧ d.Holds a, Frame.price fr.base d⟩
  /-- The search goes back. -/
  | backtrack {frames : List Frame} {s : Store} (stage : sr.solver.stage = .backtrack)
      (levels : sr.solver.levels = frames.map Frame.level)
      (stacked : Stacked k root frames sr.solver.space fun _ => False)
      (brancher : fits s sr.brancher) :
      Pursues k root fits final sr ⟨frames, fun _ => False, 1⟩
  /-- There is nothing left to decide. -/
  | solution {frames : List Frame} {sp : Space Filter} (stage : sr.solver.stage = .solution)
      (levels : sr.solver.levels = frames.map Frame.level) (rest : sp.AtRest k)
      (alike : sp.Alike sr.solver.space) (stacked : Stacked k root frames sp sp.store.Admits)
      (brancher : fits sp.store sr.brancher)
      (decided : final sp.store) (cut : CutSharp sr.solver.cut? → ∀ a, sp.store.Admits a → Meets sr.solver.cut? a) :
      Pursues k root fits final sr ⟨frames, sp.store.Admits, 2⟩
  /-- Nothing is left. -/
  | done {s : Store} (stage : sr.solver.stage = .done) (leads : root.Leads sr.solver.space)
      (brancher : fits s sr.brancher) : Pursues k root fits final sr ⟨[], fun _ => False, 0⟩

omit [Brancher B] in
/-- Asking the limit changes nothing. -/
theorem Pursues.poll (h : Pursues k root fits final sr acc) : Pursues k root fits final sr.poll.2 acc := by
  cases h with
  | select stage levels rest alike stacked brancher cut =>
    exact .select stage levels rest alike stacked brancher cut
  | decide stage levels remaining alike stacked brancher =>
    exact .decide stage levels remaining alike stacked brancher
  | root stage levels decision cut alike brancher =>
    exact .root stage levels decision cut alike brancher
  | alternative stage levels decision known keeps alike stacked brancher =>
    exact .alternative stage levels decision known keeps alike stacked brancher
  | backtrack stage levels stacked brancher => exact .backtrack stage levels stacked brancher
  | solution stage levels rest alike stacked brancher settles cut =>
    exact .solution stage levels rest alike stacked brancher settles cut
  | done stage leads brancher => exact .done stage leads brancher

omit [Brancher B] [Termination T] in
/-- The space of a search comes from the one that it started from. -/
theorem Pursues.leads (h : Pursues k root fits final sr acc) : root.Leads sr.solver.space := by
  cases h with
  | select stage levels rest alike stacked => exact stacked.leads.trans alike.leads
  | decide stage levels remaining alike stacked => exact stacked.leads.trans alike.leads
  | root stage levels decision cut alike => exact alike.leads
  | alternative stage levels decision known keeps alike stacked =>
    exact stacked.leads.trans alike.leads
  | backtrack stage levels stacked => exact stacked.leads
  | solution stage levels rest alike stacked => exact stacked.leads.trans alike.leads
  | done stage leads => exact leads

omit [Brancher B] [Termination T] in
/-- The brancher fits a store, at the end as well. -/
theorem Pursues.exists_fits (h : Pursues k root fits final sr acc) : ∃ s, fits s sr.brancher := by
  cases h with
  | select stage levels rest alike stacked brancher => exact ⟨_, brancher⟩
  | decide stage levels remaining alike stacked brancher => exact ⟨_, brancher⟩
  | root stage levels decision cut alike brancher => exact ⟨_, brancher⟩
  | alternative stage levels decision known keeps alike stacked brancher => exact ⟨_, brancher⟩
  | backtrack stage levels stacked brancher => exact ⟨_, brancher⟩
  | solution stage levels rest alike stacked brancher => exact ⟨_, brancher⟩
  | done stage leads brancher => exact ⟨_, brancher⟩

/-- A transition takes an account to a shorter one; what satisfies the constraints is given up only
    if it does not meet the cut. -/
structure Advances (sat : Valuation → Prop) (cut? : Option Predicate) (before after : Account) :
    Prop where
  /-- Fewer transitions are left. -/
  shorter : after.cost < before.cost
  /-- A solution that meets the cut is still owed. -/
  kept : ∀ a, sat a → before.Owes a → Meets cut? a → after.Owes a
  /-- Nothing is owed anew. -/
  added : ∀ a, after.Owes a → before.Owes a

/-- Only the part of the tree that the search is in has changed. -/
theorem advances_here {cut? : Option Predicate} {here here' : Nat} (hshorter : here' < here)
    (hkept : ∀ a, sat a → region a → Meets cut? a → region' a)
    (hadded : ∀ a, region' a → region a) :
    Advances sat cut? ⟨frames, region, here⟩ ⟨frames, region', here'⟩ where
  shorter := Nat.add_lt_add_right hshorter _
  kept := fun a hsat ha hcut => ha.imp_left fun h => hkept a hsat h hcut
  added := fun a ha => ha.imp_left (hadded a)

/-! ### Opening levels -/

theorem contents_apply_pos (hs : sp.store.Wf)
    (hkeeps : (d.apply sp.store).Keeps sp.store d.Holds) :
    0 < (d.apply sp.store).store.contents :=
  have hsteps : sp.store.Steps (d.apply sp.store).store := .of_narrowed hkeeps.toSteps
  Store.contents_pos (hsteps.wf hs)

/-- At least two alternatives that share out the contents leave room for three transitions each. -/
theorem sum_price_le (hs : sp.store.Wf) {ds : List Decision}
    (hkeeps : ∀ d ∈ ds, (d.apply sp.store).Keeps sp.store d.Holds) :
    (ds.map (Frame.price sp)).sum + 3 * ds.length
      ≤ 7 * (ds.map fun d => (d.apply sp.store).store.contents).sum := by
  induction ds with
  | nil => exact Nat.le_refl 0
  | cons d rest ih =>
    have hrest := ih fun d' hd' => hkeeps d' (List.mem_cons_of_mem d hd')
    have hpos := contents_apply_pos hs (hkeeps d List.mem_cons_self)
    simp only [List.map_cons, List.sum_cons, List.length_cons, Frame.price] at hrest ⊢
    omega

/-- The frame of a level that a branch opens. -/
def Frame.ofBranch (sp : Space Filter) (branch : Branch) : Frame :=
  ⟨.ofBranch sp.store.checkpoint branch, sp⟩

theorem Frame.owes_ofBranch {branch : Branch} (hcovers : Covers sp.store branch.alternatives) :
    (Frame.ofBranch sp branch).Owes a ↔ sp.store.Admits a :=
  ⟨And.left, fun ha => ⟨ha, hcovers a ha⟩⟩

/-- Opening a level passes on what is owed to its alternatives. -/
theorem advances_open (hs : sp.store.Wf) (cut? : Option Predicate) {branch : Branch}
    (hdivides : Divides sp.store branch.alternatives)
    (hcovers : Covers sp.store branch.alternatives) :
    Advances sat cut? ⟨frames, sp.store.Admits, 7 * sp.store.contents - 4⟩
      ⟨Frame.ofBranch sp branch :: frames, fun _ => False, 1⟩ where
  shorter := by
    have hsum := sum_price_le hs hdivides.keeps
    have hshares := hdivides.shares
    have hlength := branch.two_le_length
    have hpos := Store.contents_pos hs
    show 1 + ((branch.alternatives.map (Frame.price sp)).sum + (frames.map Frame.cost).sum)
      < 7 * sp.store.contents - 4 + (frames.map Frame.cost).sum
    omega
  kept := fun a _ ha _ => by
    rcases ha with ha | ⟨fr, hfr, howes⟩
    · exact Or.inr ⟨_, List.mem_cons_self, (Frame.owes_ofBranch hcovers).mpr ha⟩
    · exact Or.inr ⟨fr, List.mem_cons_of_mem _ hfr, howes⟩
  added := fun a ha => by
    rcases ha with hfalse | ⟨fr, hfr, howes⟩
    · exact hfalse.elim
    · rcases List.mem_cons.mp hfr with rfl | hfr
      · exact Or.inl ((Frame.owes_ofBranch hcovers).mp howes)
      · exact Or.inr ⟨fr, hfr, howes⟩

theorem stacked_open (hrest : sp.AtRest k) {branch : Branch}
    (hdivides : Divides sp.store branch.alternatives)
    (hstacked : Stacked k root frames sp sp.store.Admits) :
    Stacked k root (Frame.ofBranch sp branch :: frames) sp fun _ => False :=
  .frame hrest rfl hdivides (.refl sp) (fun _ hfalse => hfalse.elim)
    (fun _ hfalse => hfalse.elim) hstacked

/-! ### Taking alternatives -/

/-- The frame after its next alternative was taken. -/
def Frame.advanced (fr : Frame) (d : Decision) (rest : List Decision) : Frame :=
  ⟨{ fr.level with taken := d :: fr.level.taken, remaining := rest }, fr.base⟩

variable {rest : List Decision}

theorem Frame.owes_of_remaining (hremaining : fr.level.remaining = d :: rest) :
    fr.Owes a ↔ (fr.base.store.Admits a ∧ d.Holds a) ∨ (fr.advanced d rest).Owes a := by
  unfold Frame.Owes
  rw [hremaining]
  constructor
  · rintro ⟨ha, d', hd', hholds⟩
    rcases List.mem_cons.mp hd' with rfl | hd'
    · exact Or.inl ⟨ha, hholds⟩
    · exact Or.inr ⟨ha, d', hd', hholds⟩
  · rintro (⟨ha, hholds⟩ | ⟨ha, d', hd', hholds⟩)
    · exact ⟨ha, d, List.mem_cons_self, hholds⟩
    · exact ⟨ha, d', List.mem_cons_of_mem d hd', hholds⟩

/-- Taking an alternative moves what it owes from the level to the part that the search is in. -/
theorem advances_take (hremaining : fr.level.remaining = d :: rest) (cut? : Option Predicate) :
    Advances sat cut? ⟨fr :: outer, fun _ => False, 1⟩
      ⟨fr.advanced d rest :: outer, fun a => fr.base.store.Admits a ∧ d.Holds a,
        Frame.price fr.base d⟩ where
  shorter := by
    -- the price of the alternative moves to the part at hand, and the way back to it is paid
    show Frame.price fr.base d
        + ((rest.map (Frame.price fr.base)).sum + (outer.map Frame.cost).sum)
      < 1 + ((fr.level.remaining.map (Frame.price fr.base)).sum + (outer.map Frame.cost).sum)
    rw [hremaining, List.map_cons, List.sum_cons]
    omega
  kept := fun a _ ha _ => by
    rcases ha with hfalse | ⟨fr', hfr', howes⟩
    · exact hfalse.elim
    · rcases List.mem_cons.mp hfr' with rfl | hfr'
      · rcases (Frame.owes_of_remaining hremaining).mp howes with h | h
        · exact Or.inl h
        · exact Or.inr ⟨_, List.mem_cons_self, h⟩
      · exact Or.inr ⟨fr', List.mem_cons_of_mem _ hfr', howes⟩
  added := fun a ha => by
    rcases ha with h | ⟨fr', hfr', howes⟩
    · exact Or.inr ⟨fr, List.mem_cons_self, (Frame.owes_of_remaining hremaining).mpr (Or.inl h)⟩
    · rcases List.mem_cons.mp hfr' with rfl | hfr'
      · exact Or.inr ⟨fr, List.mem_cons_self,
          (Frame.owes_of_remaining hremaining).mpr (Or.inr howes)⟩
      · exact Or.inr ⟨fr', List.mem_cons_of_mem _ hfr', howes⟩

/-- The alternatives that remain have nothing in common with the one that is taken. -/
theorem stacked_take (hremaining : fr.level.remaining = d :: rest) (hrest : fr.base.AtRest k)
    (hcheckpoint : fr.level.checkpoint = fr.base.store.checkpoint)
    (hdivides : Divides fr.base.store fr.level.remaining)
    (hopened : Stacked k root outer fr.base fr.base.store.Admits) :
    Stacked k root (fr.advanced d rest :: outer) fr.base fun a => fr.base.store.Admits a ∧ d.Holds a := by
  rw [hremaining] at hdivides
  refine .frame hrest hcheckpoint hdivides.tail (.refl _) (fun a ha => ha.1) ?_ hopened
  rintro a ⟨ha, hholds⟩ ⟨-, d', hd', hholds'⟩
  exact (List.pairwise_cons.mp hdivides.disjoint).1 d' hd' a ha hholds hholds'

/-! ### Transitions -/

variable (cov : Serving root.store fits final) (hroot : root.AtRest k)

include cov hroot

omit [Termination T] in
/-- A branch opens a level; if there is none, there is nothing left to decide. -/
theorem select_spec (hlevels : sr.solver.levels = frames.map Frame.level)
    (hrest : sp.AtRest k) (halike : sp.Alike sr.solver.space)
    (hstacked : Stacked k root frames sp sp.store.Admits) (hbrancher : fits sp.store sr.brancher)
    (hcut : CutSharp sr.solver.cut? → ∀ a, sp.store.Admits a → Meets sr.solver.cut? a) :
    ∃ sr' acc', sr.select = .ok sr' ∧ Pursues k root fits final sr' acc'
      ∧ Advances root.Satisfies sr.solver.cut? ⟨frames, sp.store.Admits, 7 * sp.store.contents - 4⟩ acc' := by
  obtain ⟨branch?, b, r, hnext, hfits, hserves, hfinal⟩ :=
    cov.next sr.solver.random (hstacked.leads.narrower hroot.wf) hbrancher
  have hstore : sr.solver.store = sp.store := halike.store
  rw [← hstore] at hnext
  simp only [select, hnext, bind, Except.bind]
  cases branch? with
  | some branch =>
    obtain ⟨hdivides, hcovers⟩ := hserves branch rfl
    refine ⟨_, _, rfl, ?_, advances_open hrest.wf _ hdivides hcovers⟩
    refine .decide rfl ?_ ?_ halike (stacked_open hrest hdivides hstacked) hfits
    · show Level.ofBranch sr.solver.store.checkpoint branch :: sr.solver.levels = _
      rw [hstore, hlevels]
      rfl
    · intro hnil
      have hlength := branch.two_le_length
      rw [show branch.alternatives = [] from hnil] at hlength
      cases hlength
  | none =>
    refine ⟨_, _, rfl, .solution rfl hlevels hrest halike hstacked hfits (hfinal rfl) hcut, ?_⟩
    -- there is a valuation left, whose share of the account covers the report
    have hpos := Store.contents_pos hrest.wf
    exact advances_here (by omega) (fun _ _ ha _ => ha) fun _ ha => ha

omit [Brancher B] [Termination T] cov hroot in
/-- The first alternative of a new level is taken. -/
theorem decide_spec (hlevels : sr.solver.levels = (fr :: outer).map Frame.level)
    (hremaining : fr.level.remaining ≠ []) (halike : fr.base.Alike sr.solver.space)
    (hstacked : Stacked k root (fr :: outer) fr.base fun _ => False)
    (hbrancher : fits fr.base.store sr.brancher) (cut? : Option Predicate) :
    ∃ acc', Pursues k root fits final sr.decide acc'
      ∧ Advances sat cut? ⟨fr :: outer, fun _ => False, 1⟩ acc' := by
  obtain ⟨d, rest, hcons⟩ := List.exists_cons_of_ne_nil hremaining
  refine ⟨_, ?_, advances_take hcons _⟩
  cases hstacked with
  | frame rest checkpoint divides leads inside apart opened =>
    have hstacked := stacked_take hcons rest checkpoint divides opened
    have hlevels' : sr.solver.levels = fr.level :: outer.map Frame.level := hlevels
    have hmem : d ∈ fr.level.remaining := hcons ▸ List.mem_cons_self
    simp only [Search.decide, update, hlevels', Level.advance?, hcons]
    exact .alternative rfl rfl rfl (divides.known d hmem) (divides.keeps d hmem) halike hstacked
      hbrancher

omit [Termination T] in
/-- Going back leads to the innermost level with an alternative left, or there is nothing left. -/
theorem retreat_spec {s : Store} (hstacked : Stacked k root frames sr.solver.space fun _ => False)
    (hbrancher : fits s sr.brancher) (cut? : Option Predicate) :
    ∃ sr' acc', sr.retreat (frames.map Frame.level) = .ok sr' ∧ Pursues k root fits final sr' acc'
      ∧ Advances sat cut? ⟨frames, fun _ => False, 1⟩ acc' := by
  -- on the frames: a level that is used up hands the search on to the level outside
  induction frames generalizing sr s with
  | nil =>
    cases hstacked with
    | root leads =>
      exact ⟨_, _, rfl, .done rfl leads hbrancher,
        advances_here Nat.zero_lt_one (fun _ _ ha _ => ha) fun _ ha => ha⟩
  | cons fr outer ih =>
    cases hstacked with
    | frame hrest checkpoint divides leads inside apart opened =>
      obtain ⟨t, hback, halike⟩ := Space.backtrackTo_leads hrest.settled hrest.wf leads
      have hfits : fits fr.base.store (Brancher.onBacktrack sr.brancher) :=
        cov.back (opened.leads.narrower hroot.wf) hbrancher
      simp only [List.map_cons, retreat, bind, Except.bind, checkpoint, hback]
      cases hremaining : fr.level.remaining with
      | cons d rest =>
        have hmem : d ∈ fr.level.remaining := hremaining ▸ List.mem_cons_self
        simp only [Level.advance?, hremaining]
        refine ⟨_, _, rfl, ?_, advances_take hremaining _⟩
        exact .alternative rfl rfl rfl (divides.known d hmem) (divides.keeps d hmem) halike
          (stacked_take hremaining hrest checkpoint divides opened) hfits
      | nil =>
        simp only [Level.advance?, hremaining]
        obtain ⟨next, hnext⟩ : ∃ next : Search Filter B T, next = ⟨{ sr.solver with space := t }.observe
          .wentBack, Brancher.onBacktrack sr.brancher, sr.limit⟩ := ⟨_, rfl⟩
        have hopened : Stacked k root outer next.solver.space fun _ => False := by
          rw [hnext]
          exact opened.mono halike.leads fun _ hfalse => hfalse.elim
        have hbrancher' : fits fr.base.store next.brancher := hnext ▸ hfits
        obtain ⟨sr', acc', hrun, hpursues, hadvances⟩ := ih hopened hbrancher'
        rw [hnext] at hrun
        refine ⟨sr', acc', hrun, hpursues, ?_⟩
        -- a frame without alternatives owes nothing, so that it can be dropped
        have hnothing : ∀ a, ¬ fr.Owes a := fun a ha => by
          obtain ⟨-, d, hd, -⟩ := ha
          rw [hremaining] at hd
          cases hd
        refine ⟨hadvances.shorter.trans_le ?_, fun a hsat ha hcut => hadvances.kept a hsat ?_ hcut,
          fun a ha => ?_⟩
        · show 1 + (outer.map Frame.cost).sum ≤ 1 + (fr.cost + (outer.map Frame.cost).sum)
          omega
        · refine ha.imp_right ?_
          rintro ⟨fr', hfr', howes⟩
          rcases List.mem_cons.mp hfr' with rfl | hfr'
          · exact absurd howes (hnothing a)
          · exact ⟨fr', hfr', howes⟩
        · refine (hadvances.added a ha).imp_right ?_
          rintro ⟨fr', hfr', howes⟩
          exact ⟨fr', List.mem_cons_of_mem _ hfr', howes⟩

omit [Brancher B] cov in
/-- At the root propagation has nothing to do. -/
theorem propagate_root_spec (hlevels : sr.solver.levels = []) (hdecision : sr.solver.decision? = none)
    (hcut : sr.solver.cut? = none) (halike : root.Alike sr.solver.space)
    (hbrancher : fits root.store sr.brancher) :
    ∃ sr' acc', sr.propagate = .ok sr' ∧ Pursues k root fits final sr' acc'
      ∧ Advances root.Satisfies sr.solver.cut?
        ⟨[], root.store.Admits, 7 * root.store.contents - 3⟩ acc' := by
  obtain ⟨t, hrun, halike'⟩ := halike.propagate (Space.propagate_settled hroot.settled)
  have hannounce : sr.announce = sr := by
    unfold announce
    rw [hdecision]
  have hsettle : sr.solver.space.settle sr.solver.requests = .ok (none, t) := by
    rw [Solver.requests, hdecision, hcut]
    exact hrun
  have hidle : root.Alike { root with phase := .idle } := ⟨rfl, rfl, rfl, rfl⟩
  simp only [propagate, hannounce, hsettle, bind, Except.bind]
  have hlevels' : sr.solver.levels = [].map Frame.level := hlevels
  refine ⟨_, _, rfl, .select rfl hlevels' hroot (hidle.trans halike')
    (.root (.refl root)) hbrancher fun _ a _ => ?_, ?_⟩
  · show Meets sr.solver.cut? a
    rw [hcut]
    exact meets_none a
  · have hpos := Store.contents_pos hroot.wf
    exact advances_here (by omega) (fun _ _ ha _ => ha) fun _ ha => ha

/-- An alternative is carried out together with the cut. -/
theorem propagate_spec (hlevels : sr.solver.levels = (fr :: outer).map Frame.level)
    (hdecision : sr.solver.decision? = some d) (hknown : d.Known fr.base.store)
    (hkeeps : (d.apply fr.base.store).Keeps fr.base.store d.Holds)
    (halike : fr.base.Alike sr.solver.space)
    (hstacked : Stacked k root (fr :: outer) fr.base fun a => fr.base.store.Admits a ∧ d.Holds a)
    (hbrancher : fits fr.base.store sr.brancher) (hcut : CutKnown root.store sr.solver.cut?) :
    ∃ sr' acc', sr.propagate = .ok sr' ∧ Pursues k root fits final sr' acc'
      ∧ Advances root.Satisfies sr.solver.cut?
        ⟨fr :: outer, fun a => fr.base.store.Admits a ∧ d.Holds a, Frame.price fr.base d⟩ acc' := by
  have hrest : fr.base.AtRest k := by
    cases hstacked with
    | frame rest => exact rest
  have hnarrower := hstacked.leads.narrower hroot.wf
  have hsatisfies := hstacked.leads.satisfies
  obtain ⟨c?, sp, hrun, henters⟩ := hrest.enters hknown hkeeps (hcut.narrower hnarrower)
  obtain ⟨t, hrun', halike'⟩ := halike.settle hrun
  obtain ⟨hspace, hlevels', hdecision', hcut'⟩ := announce_solver sr
  have hbrancher' : sr.announce.brancher = sr.brancher := by
    unfold announce
    split <;> rfl
  have hsettle : sr.announce.solver.space.settle sr.announce.solver.requests = .ok (c?, t) := by
    rw [hspace, Solver.requests, hdecision', hcut', hdecision]
    exact hrun'
  have hpos := contents_apply_pos hrest.wf hkeeps
  simp only [propagate, hsettle, bind, Except.bind]
  cases c? with
  | none =>
    -- what is left lies in the alternative, and what lies there and meets the cut is left
    have hinside : ∀ a, sp.store.Admits a → fr.base.store.Admits a ∧ d.Holds a := fun a ha =>
      ⟨henters.leads.store.admits hrest.wf ha, (henters.obeys rfl a ha).1⟩
    refine ⟨_, _, rfl, .select rfl (hlevels'.trans hlevels) (henters.rest rfl) halike'
      (hstacked.mono henters.leads hinside) ?_ fun hsharp a ha => ?_, ?_⟩
    · show fits sp.store sr.announce.brancher
      rw [hbrancher']
      exact cov.narrower hnarrower (henters.leads.narrower hrest.wf) hbrancher
    · have hsharp' : CutSharp sr.solver.cut? := hcut' ▸ hsharp
      show Meets sr.announce.solver.cut? a
      rw [hcut']
      exact (henters.obeys rfl a ha).2 hsharp'
    · have hle := henters.contents rfl
      refine advances_here ?_ (fun a hsat ha hmeets =>
        (henters.kept a ha.1 ((hsatisfies a).mpr hsat) ha.2 hmeets).2) hinside
      unfold Frame.price
      have hposition := Store.contents_pos (henters.rest rfl).wf
      omega
  | some c =>
    refine ⟨_, _, rfl, .backtrack (s := fr.base.store) rfl (hlevels'.trans hlevels)
      (hstacked.mono (henters.leads.trans halike'.leads) fun _ hfalse => hfalse.elim) ?_, ?_⟩
    · show fits fr.base.store sr.announce.brancher
      rw [hbrancher']
      exact hbrancher
    · refine advances_here ?_ (fun a hsat ha hmeets => ?_) fun _ hfalse => hfalse.elim
      · unfold Frame.price
        omega
      · have hkept := henters.kept a ha.1 ((hsatisfies a).mpr hsat) ha.2 hmeets
        exact Option.some_ne_none c hkept.1

/-- The store is reported: nothing is left to decide in it, and it is at rest. -/
structure Reported (k : Concern) (root : Space Filter) (final : Store → Prop)
    (cut? : Option Predicate) (sr : Search Filter B T) : Prop where
  /-- The search goes back next. -/
  stage : sr.solver.stage = .backtrack
  /-- Nothing is left to decide. -/
  decided : final sr.solver.store
  /-- Propagation has come to rest. -/
  rest : sr.solver.space.AtRest k
  /-- What is left meets a cut that can be carried out exactly. -/
  meets : CutSharp cut? → ∀ a, sr.solver.store.Admits a → Meets cut? a
  /-- The space comes from the one that the search started from. -/
  leads : root.Leads sr.solver.space

/-- What a transition of a search with an account comes to. -/
inductive Outcome (k : Concern) (root : Space Filter) (fits : Store → B → Prop)
    (final : Store → Prop) (sr : Search Filter B T) (acc : Account) :
    Option Verdict → Search Filter B T → Prop where
  /-- The limit stops the search. -/
  | stopped {sr' : Search Filter B T} (pursues : Pursues k root fits final sr' acc) :
      Outcome k root fits final sr acc (some .stopped) sr'
  /-- The search goes on. -/
  | moved {sr' : Search Filter B T} {acc' : Account} (pursues : Pursues k root fits final sr' acc')
      (advances : Advances root.Satisfies sr.solver.cut? acc acc') :
      Outcome k root fits final sr acc none sr'
  /-- A store is reported and struck off. -/
  | found {sr' : Search Filter B T} {acc' : Account}
      (pursues : Pursues k root fits final sr' acc')
      (reported : Reported k root final sr.solver.cut? sr') (shorter : acc'.cost < acc.cost)
      (owes : ∀ a, acc.Owes a ↔ sr'.solver.store.Admits a ∨ acc'.Owes a)
      (struck : ∀ a, sr'.solver.store.Admits a → ¬ acc'.Owes a) :
      Outcome k root fits final sr acc (some .found) sr'
  /-- Nothing is owed any more. -/
  | exhausted {s : Store} (nothing : ∀ a, ¬ acc.Owes a) (leads : root.Leads sr.solver.space)
      (brancher : fits s sr.brancher) : Outcome k root fits final sr acc (some .exhausted) sr

/-- A store that is reported is struck off. -/
theorem report_spec (hlevels : sr.solver.levels = frames.map Frame.level)
    (hrest : sp.AtRest k) (halike : sp.Alike sr.solver.space)
    (hstacked : Stacked k root frames sp sp.store.Admits) (hbrancher : fits sp.store sr.brancher)
    (hfinal : final sp.store)
    (hcut : CutSharp sr.solver.cut? → ∀ a, sp.store.Admits a → Meets sr.solver.cut? a) :
    Outcome k root fits final sr ⟨frames, sp.store.Admits, 2⟩ (some .found) sr.report := by
  have hstore : sr.report.solver.store = sp.store := halike.store
  have hfits : fits sp.store (Brancher.onSolution sr.brancher sr.solver.store) := by
    have hbefore : sr.solver.store = sp.store := halike.store
    rw [hbefore]
    exact cov.solution (hstacked.leads.narrower hroot.wf) hbrancher
  have hpursues : Pursues k root fits final sr.report ⟨frames, fun _ => False, 1⟩ :=
    .backtrack (s := sp.store) rfl hlevels
      (hstacked.mono halike.leads fun _ hfalse => hfalse.elim) hfits
  refine .found hpursues ⟨rfl, hstore ▸ hfinal, hrest.alike halike, fun hsharp a ha => ?_,
    hstacked.leads.trans halike.leads⟩ (Nat.add_lt_add_right Nat.one_lt_two _) (fun a => ?_)
    fun a ha => ?_
  · exact hcut hsharp a (hstore ▸ ha)
  · rw [hstore]
    show (sp.store.Admits a ∨ _) ↔ sp.store.Admits a ∨ (False ∨ _)
    rw [false_or]
  · rw [hstore] at ha
    show ¬ (False ∨ _)
    rw [false_or]
    exact hstacked.not_owes ha

/-- Every transition keeps an account, and the search never gets stuck. -/
theorem step_spec (hcut : CutKnown root.store sr.solver.cut?) (h : Pursues k root fits final sr acc) :
    ∃ verdict? sr', sr.step = .ok (verdict?, sr') ∧ Outcome k root fits final sr acc verdict? sr' := by
  have hpoll := h.poll
  cases h with
  | select stage levels rest alike stacked brancher cut =>
    -- where the limit is polled a stop leaves the account as it is
    unfold step
    rw [stage]
    cases hstop : sr.poll.1 with
    | true => exact ⟨_, _, by simp only [hstop]; rfl, .stopped hpoll⟩
    | false =>
      have hlevels : sr.poll.2.solver.levels = _ := levels
      obtain ⟨sr', acc', hrun, hpursues, hadvances⟩ :=
        select_spec cov hroot hlevels rest alike stacked brancher cut
      exact ⟨_, _, by simp only [hstop, hrun]; rfl, .moved hpursues hadvances⟩
  | decide stage levels remaining alike stacked brancher =>
    obtain ⟨acc', hpursues, hadvances⟩ := decide_spec levels remaining alike stacked brancher _
    exact ⟨_, _, by simp only [step, stage]; rfl, .moved hpursues hadvances⟩
  | root stage levels decision cut alike brancher =>
    obtain ⟨sr', acc', hrun, hpursues, hadvances⟩ :=
      propagate_root_spec hroot levels decision cut alike brancher
    exact ⟨_, _, by simp only [step, stage, hrun]; rfl, .moved hpursues hadvances⟩
  | alternative stage levels decision known keeps alike stacked brancher =>
    obtain ⟨sr', acc', hrun, hpursues, hadvances⟩ :=
      propagate_spec cov hroot levels decision known keeps alike stacked brancher hcut
    exact ⟨_, _, by simp only [step, stage, hrun]; rfl, .moved hpursues hadvances⟩
  | @backtrack frames s stage levels stacked brancher =>
    unfold step
    rw [stage]
    cases hstop : sr.poll.1 with
    | true => exact ⟨_, _, by simp only [hstop]; rfl, .stopped hpoll⟩
    | false =>
      obtain ⟨counted, hcounted⟩ : ∃ counted, counted = sr.poll.2.update fun sv =>
          { sv with measures := { sv.measures with backtracks := sv.measures.backtracks + 1 } } :=
        ⟨_, rfl⟩
      have hstacked : Stacked k root frames counted.solver.space fun _ => False := by
        rw [hcounted]
        exact stacked
      have hbrancher : fits s counted.brancher := by
        rw [hcounted]
        exact brancher
      obtain ⟨sr', acc', hrun, hpursues, hadvances⟩ :=
        retreat_spec cov hroot hstacked hbrancher sr.solver.cut?
      have hback : sr.poll.2.backtrack = .ok sr' := by
        unfold backtrack
        rw [← hrun, ← levels, hcounted]
        rfl
      exact ⟨_, _, by simp only [hstop, hback]; rfl, .moved hpursues hadvances⟩
  | solution stage levels rest alike stacked brancher decided cut =>
    exact ⟨_, _, by simp only [step, stage]; rfl,
      report_spec cov hroot levels rest alike stacked brancher decided cut⟩
  | done stage leads brancher =>
    refine ⟨_, _, by simp only [step, stage]; rfl, .exhausted ?_ leads brancher⟩
    rintro a (hfalse | ⟨fr, hfr, -⟩)
    · exact hfalse
    · cases hfr

/-! ### Runs -/

/-- What a run of a search with an account comes to; `cut?` is the demand of the optimisation. -/
inductive Stops (k : Concern) (root : Space Filter) (fits : Store → B → Prop)
    (final : Store → Prop) (cut? : Option Predicate) (acc : Account) :
    Verdict → Search Filter B T → Prop where
  /-- The limit stops the search. -/
  | stopped {sr' : Search Filter B T} {acc' : Account}
      (pursues : Pursues k root fits final sr' acc') (le : acc'.cost ≤ acc.cost)
      (kept : ∀ a, root.Satisfies a → acc.Owes a → Meets cut? a → acc'.Owes a)
      (added : ∀ a, acc'.Owes a → acc.Owes a) : Stops k root fits final cut? acc .stopped sr'
  /-- A store is reported and struck off. -/
  | found {sr' : Search Filter B T} {acc' : Account}
      (pursues : Pursues k root fits final sr' acc') (reported : Reported k root final cut? sr')
      (shorter : acc'.cost < acc.cost) (owed : ∀ a, sr'.solver.store.Admits a → acc.Owes a)
      (kept : ∀ a, root.Satisfies a → acc.Owes a → Meets cut? a →
        sr'.solver.store.Admits a ∨ acc'.Owes a)
      (added : ∀ a, acc'.Owes a → acc.Owes a)
      (struck : ∀ a, sr'.solver.store.Admits a → ¬ acc'.Owes a) :
      Stops k root fits final cut? acc .found sr'
  /-- No solution that meets the cut is owed. -/
  | exhausted {sr' : Search Filter B T} {s : Store}
      (nothing : ∀ a, root.Satisfies a → acc.Owes a → ¬ Meets cut? a)
      (leads : root.Leads sr'.solver.space) (brancher : fits s sr'.brancher) :
      Stops k root fits final cut? acc .exhausted sr'

omit [Brancher B] [Termination T] cov hroot in
/-- Transitions before a run do not change what it comes to. -/
theorem Stops.of_advances {cut? : Option Predicate} {acc' : Account} {verdict : Verdict}
    (h : Stops k root fits final cut? acc' verdict sr)
    (hadvances : Advances root.Satisfies cut? acc acc') :
    Stops k root fits final cut? acc verdict sr := by
  cases h with
  | stopped pursues le kept added =>
    exact .stopped pursues (le.trans hadvances.shorter.le)
      (fun a hsat ha hmeets => kept a hsat (hadvances.kept a hsat ha hmeets) hmeets)
      fun a ha => hadvances.added a (added a ha)
  | found pursues reported shorter owed kept added struck =>
    exact .found pursues reported (shorter.trans hadvances.shorter)
      (fun a ha => hadvances.added a (owed a ha))
      (fun a hsat ha hmeets => kept a hsat (hadvances.kept a hsat ha hmeets) hmeets)
      (fun a ha => hadvances.added a (added a ha)) struck
  | exhausted nothing leads brancher =>
    exact .exhausted (fun a hsat ha hmeets =>
      nothing a hsat (hadvances.kept a hsat ha hmeets) hmeets) leads brancher

/-- A run with enough fuel stops, and what it stops for is right. -/
theorem run_spec {fuel : Nat} (hcut : CutKnown root.store sr.solver.cut?)
    (h : Pursues k root fits final sr acc) (hfuel : acc.cost < fuel) :
    ∃ verdict sr', sr.run fuel = .ok (verdict, sr')
      ∧ Stops k root fits final sr.solver.cut? acc verdict sr'
      ∧ SameTask sr.solver sr'.solver := by
  induction fuel generalizing sr acc with
  | zero => exact absurd hfuel (Nat.not_lt_zero _)
  | succ fuel ih =>
    obtain ⟨verdict?, sr', hstep, houtcome⟩ := step_spec cov hroot hcut h
    have hsame := (transition_of_step hstep).sameTask
    simp only [run, hstep, bind, Except.bind]
    cases houtcome with
    | stopped pursues =>
      exact ⟨_, _, rfl, .stopped pursues (Nat.le_refl _) (fun _ _ ha _ => ha) fun _ ha => ha,
        hsame⟩
    | found pursues reported shorter owes struck =>
      exact ⟨_, _, rfl, .found pursues reported shorter (fun a ha => (owes a).mpr (Or.inl ha))
        (fun a _ ha _ => (owes a).mp ha) (fun a ha => (owes a).mpr (Or.inr ha)) struck, hsame⟩
    | exhausted nothing leads brancher =>
      exact ⟨_, _, rfl, .exhausted (fun a _ ha => absurd ha (nothing a)) leads brancher, hsame⟩
    | moved pursues advances =>
      have hcut' : CutKnown root.store sr'.solver.cut? := hsame.cut ▸ hcut
      -- the account has become smaller, so the fuel that is left is enough
      obtain ⟨verdict, last, hrun, hstops, hsame'⟩ :=
        ih hcut' pursues (by have hshorter := advances.shorter; omega)
      refine ⟨verdict, last, hrun, ?_, hsame.trans hsame'⟩
      rw [hsame.cut] at hstops
      exact hstops.of_advances advances

end

end Search

end FiniteDomain
