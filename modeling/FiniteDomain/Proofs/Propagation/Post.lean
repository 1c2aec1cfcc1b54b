import FiniteDomain.Proofs.Propagation.Space

/-! # Posting

    Posting enters a filter into the space, runs it for the first time and then
    propagates.  If that meets no contradiction the space has come to rest. -/

namespace FiniteDomain.Space

variable {P : Type} [Propagator P] {sp sp' : Space P} {f : P}

/-- The space in which a filter is entered, before it is run. -/
def entered (sp : Space P) (f : P) : Space P :=
  { sp with
    watchList := (Propagator.watches f).foldl
      (fun w watch => w.subscribe watch.target ⟨⟨⟨sp.posted.nextKey⟩, watch.position⟩, watch.events⟩)
      sp.watchList
    posted := sp.posted.push ⟨f, []⟩
    phase := .propagating }

theorem post_eq (sp : Space P) (f : P) :
    sp.post f = (Propagator.initial f sp.store).bind fun pass =>
      let ran := (sp.entered f).record ⟨sp.posted.nextKey⟩ pass
      pass.refusal?.elim
        ((ran.passivateIfEntailed ⟨sp.posted.nextKey⟩ pass.self).bind fun mid =>
          mid.propagate.bind fun out =>
            out.1.elim (.ok (.ok ⟨sp.posted.nextKey⟩, out.2)) fun c => .ok (.error c, out.2))
        fun refusal => .ok (.error (refusal.contradiction ⟨sp.posted.nextKey⟩), ran.fail) := by
  show (Propagator.initial f sp.store).bind _ = _
  refine congrArg _ (funext fun pass => ?_)
  cases hrefusal : pass.refusal? with
  | some refusal => rfl
  | none =>
    simp only [Option.elim]
    refine congrArg _ (funext fun mid => congrArg _ (funext fun out => ?_))
    cases out.1 <;> rfl

/-- How posting goes. -/
theorem post_cases {result : Except Contradiction PropagatorId}
    (h : sp.post f = .ok (result, sp')) :
    ∃ pass, Propagator.initial f sp.store = .ok pass
      ∧ ((∃ refusal c, pass.refusal? = some refusal ∧ result = .error c
            ∧ sp' = ((sp.entered f).record ⟨sp.posted.nextKey⟩ pass).fail)
        ∨ (pass.refusal? = none ∧ ∃ mid c?,
          ((sp.entered f).record ⟨sp.posted.nextKey⟩ pass).passivateIfEntailed
              ⟨sp.posted.nextKey⟩ pass.self = .ok mid
            ∧ mid.propagate = .ok (c?, sp')
            ∧ result = c?.elim (.ok ⟨sp.posted.nextKey⟩) .error)) := by
  simp only [post, bind, Except.bind] at h
  split at h
  · cases h
  next pass hpass =>
    refine ⟨pass, hpass, ?_⟩
    split at h
    next refusal hrefusal =>
      cases h
      exact Or.inl ⟨refusal, _, hrefusal, rfl, rfl⟩
    next hrefusal =>
      split at h
      · cases h
      next mid hmid =>
        split at h
        · cases h
        next out hout =>
          obtain ⟨c?, last⟩ := out
          refine Or.inr ⟨hrefusal, mid, c?, hmid, ?_⟩
          cases c? <;> cases h <;> exact ⟨hout, rfl⟩

/-- A filter has been entered and has been run for the first time, without refusing; it is passive if
    its constraint holds. -/
def Launched (sp : Space P) (f : P) (sp' : Space P) : Prop :=
  ∃ pass, Propagator.initial f sp.store = .ok pass ∧ pass.refusal? = none
    ∧ ((sp.entered f).record ⟨sp.posted.nextKey⟩ pass).passivateIfEntailed
        ⟨sp.posted.nextKey⟩ pass.self = .ok sp'

/-- Posting that succeeds launches the filter and propagates. -/
theorem exists_launched {id : PropagatorId} (h : sp.post f = .ok (.ok id, sp')) :
    id = ⟨sp.posted.nextKey⟩ ∧ ∃ mid, sp.Launched f mid ∧ mid.propagate = .ok (none, sp') := by
  obtain ⟨pass, hpass, hcase⟩ := post_cases h
  rcases hcase with ⟨refusal, c, -, hresult, -⟩ | ⟨hsuccess, mid, c?, hmid, hrun, hresult⟩
  · cases hresult
  · cases c? with
    | some c => cases hresult
    | none => exact ⟨Except.ok.inj hresult, mid, ⟨pass, hpass, hsuccess, hmid⟩, hrun⟩

theorem filterAt?_entered_self : (sp.entered f).filterAt? sp.posted.nextKey = some f := by
  simp [filterAt?, entered, Table.get?_push, Table.nextKey, Table.size]

theorem leads_launched {sp sp' : Space Filter} {f : Filter} (hs : sp.store.Wf)
    (h : sp.Launched f sp') : Leads (sp.entered f) sp' := by
  obtain ⟨pass, hpass, -, hpassivate⟩ := h
  have hlawful : f.Lawful (sp.entered f).store pass := Filter.lawful_initial hs hpass
  exact (leads_record filterAt?_entered_self hlawful).trans (leads_passivateIfEntailed hpassivate)

/-- The entered filter is run on the store as it is. -/
theorem leads_post {sp sp' : Space Filter} {f : Filter}
    {result : Except Contradiction PropagatorId} (hs : sp.store.Wf)
    (h : sp.post f = .ok (result, sp')) : Leads (sp.entered f) sp' := by
  obtain ⟨pass, hpass, hcase⟩ := post_cases h
  rcases hcase with ⟨refusal, c, -, -, rfl⟩ | ⟨hsuccess, mid, c?, hmid, hrun, -⟩
  · have hlawful : f.Lawful (sp.entered f).store pass := Filter.lawful_initial hs hpass
    exact (leads_record filterAt?_entered_self hlawful).trans (leads_fail _)
  · have hlaunched := leads_launched hs ⟨pass, hpass, hsuccess, hmid⟩
    exact hlaunched.trans (leads_propagate (hlaunched.wf hs) hrun)

theorem alert_entered (h : sp.Alert) : (sp.entered f).Alert := by
  refine ⟨h.lines, fun i p hp hne => ?_⟩
  simp only [entered, Table.get?_push] at hp
  split at hp
  next =>
    cases hp
    exact absurd rfl hne
  next => exact h.waits i p hp hne

theorem settled_post {id : PropagatorId} (h : sp.Settled) (hrun : sp.post f = .ok (.ok id, sp')) :
    sp'.Settled := by
  obtain ⟨-, mid, ⟨pass, -, -, hmid⟩, hpropagate⟩ := exists_launched hrun
  have hrecord := alert_record (alert_entered (f := f) h.alert) ⟨sp.posted.nextKey⟩ pass
  refine settled_propagate ?_ hpropagate
  rcases passivateIfEntailed_cases hmid with ⟨-, rfl⟩ | rfl
  · exact ⟨hrecord.lines, hrecord.waits⟩
  · exact hrecord

end FiniteDomain.Space
