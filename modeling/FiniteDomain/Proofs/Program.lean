import FiniteDomain.Fault

/-! # Programs that change a state

    Filters and the programs that build models are of one kind: they change a
    state, may give up with a reason and keep what they have done before, and may
    end in a fault.  A property of the state that every part of a program keeps is
    kept by the program (`Program.Keeps`), and the program ends in no other faults
    than its parts (`Program.Upholds`).  `Program.Runs` says besides what a program
    answers; that is needed where the steps of a loop are counted. -/

namespace FiniteDomain

/-! ### Faults -/

/-- The computation has a value or ends in one of the faults. -/
def RaisesOnly {α : Type} (faults : Fault → Prop) (result : Except Fault α) : Prop :=
  ∀ f, result = .error f → faults f

namespace RaisesOnly

variable {α β : Type} {faults : Fault → Prop} {result : Except Fault α}

theorem ok (a : α) : RaisesOnly faults (.ok a) := nofun

theorem error {f : Fault} (hf : faults f) : RaisesOnly faults (.error f : Except Fault α) := by
  intro g hg
  cases hg
  exact hf

theorem bind {next : α → Except Fault β} (h : RaisesOnly faults result)
    (hnext : ∀ a, result = .ok a → RaisesOnly faults (next a)) :
    RaisesOnly faults (result.bind next) := by
  cases result with
  | error f => exact error (h f rfl)
  | ok a => exact hnext a rfl

theorem map {g : α → β} (h : RaisesOnly faults result) : RaisesOnly faults (result.map g) := by
  cases result with
  | error f => exact error (h f rfl)
  | ok a => exact ok _

/-- A computation that ends in no fault has a value. -/
theorem exists_ok (h : RaisesOnly (fun _ => False) result) : ∃ a, result = .ok a := by
  cases result with
  | error f => exact (h f rfl).elim
  | ok a => exact ⟨a, rfl⟩

end RaisesOnly

/-- If a computation has a value, so have its parts. -/
theorem exists_of_toOption_bind {α β : Type} {result : Except Fault α} {next : α → Except Fault β}
    {b : β} (h : (result.bind next).toOption = some b) :
    ∃ a, result = .ok a ∧ (next a).toOption = some b := by
  cases result with
  | error f => cases h
  | ok a => exact ⟨a, rfl, h⟩

theorem exists_of_toOption_map {α β : Type} {result : Except Fault α} {g : α → β} {b : β}
    (h : (result.map g).toOption = some b) : ∃ a, result = .ok a ∧ g a = b := by
  cases result with
  | error f => cases h
  | ok a => exact ⟨a, rfl, Option.some.inj h⟩

theorem except_bind_eq_ok_iff {α β : Type} {result : Except Fault α} {next : α → Except Fault β}
    {b : β} : result.bind next = .ok b ↔ ∃ a, result = .ok a ∧ next a = .ok b := by
  cases result with
  | error f => exact ⟨nofun, fun ⟨_, h, _⟩ => nomatch h⟩
  | ok a => exact ⟨fun h => ⟨a, rfl, h⟩, fun ⟨_, ha, h⟩ => Except.ok.inj ha ▸ h⟩

theorem except_map_eq_ok_iff {α β : Type} {result : Except Fault α} {g : α → β} {b : β} :
    result.map g = .ok b ↔ ∃ a, result = .ok a ∧ g a = b := by
  cases result with
  | error f => exact ⟨nofun, fun ⟨_, h, _⟩ => nomatch h⟩
  | ok a => exact ⟨fun h => ⟨a, rfl, Except.ok.inj h⟩, fun ⟨_, ha, h⟩ => Except.ok.inj ha ▸ h ▸ rfl⟩

/-- A program over a state that may give up for a reason and may end in a fault. -/
abbrev Program (ε σ : Type) : Type → Type := ExceptT ε (StateT σ (Except Fault))

namespace Program

variable {ε σ α β : Type}

/-! ### Running -/

theorem run_pure (a : α) (s : σ) : (pure a : Program ε σ α).run.run s = .ok (.ok a, s) := rfl

theorem run_throw (reason : ε) (s : σ) :
    (throw reason : Program ε σ α).run.run s = .ok (.error reason, s) := rfl

theorem run_get (s : σ) : (get : Program ε σ σ).run.run s = .ok (.ok s, s) := rfl

theorem run_lift (result : Except Fault α) (s : σ) :
    (liftM (n := Program ε σ) result).run.run s = result.map fun a => (.ok a, s) := by
  cases result <;> rfl

theorem run_bind (p : Program ε σ α) (f : α → Program ε σ β) (s : σ) :
    (p >>= f).run.run s = (p.run.run s).bind fun r =>
      match r with
      | (.ok a, s') => (f a).run.run s'
      | (.error reason, s') => .ok (.error reason, s') := by
  rw [ExceptT.run_bind, StateT.run_bind]
  cases p.run.run s with
  | error f => rfl
  | ok r =>
    obtain ⟨verdict, s'⟩ := r
    cases verdict <;> rfl

/-- A sequence comes to an end if its first part does, which gives up or is followed by the second
    part. -/
theorem run_bind_cases {p : Program ε σ α} {f : α → Program ε σ β} {s s' : σ} {r : Except ε β}
    (h : (p >>= f).run.run s = .ok (r, s')) :
    ∃ first t, p.run.run s = .ok (first, t)
      ∧ ((∃ reason, first = .error reason ∧ r = .error reason ∧ s' = t)
        ∨ ∃ a, first = .ok a ∧ (f a).run.run t = .ok (r, s')) := by
  rw [run_bind] at h
  cases hrun : p.run.run s with
  | error e => rw [hrun] at h; cases h
  | ok out =>
    obtain ⟨first, t⟩ := out
    rw [hrun] at h
    refine ⟨first, t, rfl, ?_⟩
    cases first with
    | error reason =>
      cases h
      exact Or.inl ⟨reason, rfl, rfl, rfl⟩
    | ok a => exact Or.inr ⟨a, rfl, h⟩

/-! ### Keeping -/

/-- Whatever the outcome, a state that has the property is followed by one that has it. -/
def Keeps (I : σ → Prop) (p : Program ε σ α) : Prop :=
  ∀ s r s', I s → p.run.run s = .ok (r, s') → I s'

/-- Run in a state that has the property, the program leaves one that has it, and it ends in none
    but the given faults. -/
structure Upholds (faults : Fault → Prop) (I : σ → Prop) (p : Program ε σ α) : Prop where
  /-- The property is kept. -/
  keeps : Keeps I p
  /-- Other faults do not occur. -/
  raises : ∀ s, I s → RaisesOnly faults (p.run.run s)

variable {faults : Fault → Prop} {I : σ → Prop}

/-- A program that has a value in every state. -/
theorem upholds_of_run {p : Program ε σ α} (value : σ → Except ε α × σ)
    (hrun : ∀ s, p.run.run s = .ok (value s)) (hkeeps : ∀ s, I s → I (value s).2) :
    Upholds faults I p where
  keeps := by
    intro s r s' hs h
    rw [hrun] at h
    have heq : value s = (r, s') := Except.ok.inj h
    have hvalue := hkeeps s hs
    rwa [heq] at hvalue
  raises := by
    intro s _
    rw [hrun]
    exact .ok _

theorem upholds_pure (a : α) : Upholds faults I (pure a : Program ε σ α) :=
  upholds_of_run _ (run_pure a) fun _ hs => hs

theorem upholds_throw (reason : ε) : Upholds faults I (throw reason : Program ε σ α) :=
  upholds_of_run _ (run_throw reason) fun _ hs => hs

theorem upholds_get : Upholds faults I (get : Program ε σ σ) :=
  upholds_of_run _ run_get fun _ hs => hs

theorem upholds_modify {change : σ → σ} (hchange : ∀ s, I s → I (change s)) :
    Upholds faults I (modify change : Program ε σ PUnit) :=
  upholds_of_run (fun s => (.ok ⟨⟩, change s)) (fun _ => rfl) hchange

theorem upholds_lift {result : Except Fault α} (h : RaisesOnly faults result) :
    Upholds faults I (liftM (n := Program ε σ) result) where
  keeps := by
    intro s r s' hs hrun
    cases result with
    | error f => cases hrun
    | ok a =>
      cases hrun
      exact hs
  raises := by
    intro s _
    rw [run_lift]
    exact h.map

theorem Upholds.bind {p : Program ε σ α} {f : α → Program ε σ β} (hp : Upholds faults I p)
    (hf : ∀ a, Upholds faults I (f a)) : Upholds faults I (p >>= f) where
  keeps := by
    intro s r s' hs h
    obtain ⟨first, t, hrun, hrest⟩ := run_bind_cases h
    have ht := hp.keeps s first t hs hrun
    rcases hrest with ⟨reason, -, -, rfl⟩ | ⟨a, -, hrest⟩
    · exact ht
    · exact (hf a).keeps t r s' ht hrest
  raises := by
    intro s hs
    rw [run_bind]
    refine (hp.raises s hs).bind fun out hrun => ?_
    obtain ⟨verdict, s₁⟩ := out
    cases verdict with
    | ok a => exact (hf a).raises s₁ (hp.keeps s _ s₁ hs hrun)
    | error reason => exact .ok _

theorem upholds_ite {c : Prop} [Decidable c] {p q : Program ε σ α} (hp : Upholds faults I p)
    (hq : Upholds faults I q) : Upholds faults I (if c then p else q) := by
  split
  · exact hp
  · exact hq

/-- The rest of a program after a conditional is shared by its branches. -/
theorem upholds_join {f : α → Program ε σ β} {p : (α → Program ε σ β) → Program ε σ β}
    (hf : ∀ a, Upholds faults I (f a))
    (hp : ∀ g, (∀ a, Upholds faults I (g a)) → Upholds faults I (p g)) :
    Upholds faults I (have rest := f; p rest) :=
  hp f hf

/-- The rest of a program after a check is reached only if the check succeeds. -/
theorem upholds_guard {c : Prop} [Decidable c] {reason : ε} {rest : PUnit → Program ε σ α}
    (h : ¬c → Upholds faults I (rest ⟨⟩)) :
    Upholds faults I (if c then throw reason >>= rest else rest ⟨⟩) := by
  by_cases hc : c
  · rw [if_pos hc]
    exact upholds_throw reason
  · rw [if_neg hc]
    exact h hc

/-- The rest of a program after a computation is reached only if the computation has a value. -/
theorem upholds_lift_bind {result : Except Fault β} {rest : β → Program ε σ α}
    (hresult : RaisesOnly faults result)
    (h : ∀ b, result = .ok b → Upholds faults I (rest b)) :
    Upholds faults I (liftM (n := Program ε σ) result >>= rest) := by
  cases result with
  | error f => exact upholds_lift (.error (hresult f rfl))
  | ok b => exact h b rfl

theorem upholds_forM {γ : Type} {l : List γ} {f : γ → Program ε σ PUnit}
    (hf : ∀ a, Upholds faults I (f a)) : Upholds faults I (l.forM f) := by
  induction l with
  | nil => exact upholds_pure _
  | cons a rest ih => exact (hf a).bind fun _ => ih

theorem upholds_foldlM {γ : Type} {l : List γ} {f : β → γ → Program ε σ β}
    (hf : ∀ b a, Upholds faults I (f b a)) (b : β) : Upholds faults I (l.foldlM f b) := by
  induction l generalizing b with
  | nil => exact upholds_pure b
  | cons a rest ih => exact (hf b a).bind fun b' => ih b'

/-! ### Answers -/

/-- The program ends in none but the given faults, and unless it gives up its answer and the state
    that is left are as said. -/
structure Runs (faults : Fault → Prop) (p : Program ε σ α) (s : σ) (post : α → σ → Prop) :
    Prop where
  /-- Other faults do not occur. -/
  raises : RaisesOnly faults (p.run.run s)
  /-- The answer and the state that is left. -/
  answers : ∀ a s', p.run.run s = .ok (.ok a, s') → post a s'

variable {p : Program ε σ α} {s : σ} {post : α → σ → Prop}

theorem Upholds.runs (h : Upholds faults I p) (hs : I s) : Runs faults p s fun _ => I :=
  ⟨h.raises s hs, fun _ s' hrun => h.keeps s _ s' hs hrun⟩

theorem runs_pure {a : α} (h : post a s) : Runs faults (pure a : Program ε σ α) s post := by
  refine ⟨.ok _, fun b s' hrun => ?_⟩
  cases hrun
  exact h

theorem Runs.bind {f : α → Program ε σ β} {post : β → σ → Prop} {mid : α → σ → Prop}
    (hp : Runs faults p s mid) (hf : ∀ a t, mid a t → Runs faults (f a) t post) :
    Runs faults (p >>= f) s post where
  raises := by
    rw [run_bind]
    refine hp.raises.bind fun out hrun => ?_
    obtain ⟨verdict, t⟩ := out
    cases verdict with
    | ok a => exact (hf a t (hp.answers a t hrun)).raises
    | error reason => exact .ok _
  answers := by
    intro b s' h
    obtain ⟨first, t, hrun, hrest⟩ := run_bind_cases h
    rcases hrest with ⟨reason, -, hreason, -⟩ | ⟨a, rfl, hrest⟩
    · cases hreason
    · exact (hf a t (hp.answers a t hrun)).answers b s' hrest

theorem Runs.imp {post' : α → σ → Prop} (h : Runs faults p s post)
    (himp : ∀ a t, post a t → post' a t) : Runs faults p s post' :=
  ⟨h.raises, fun a t hrun => himp a t (h.answers a t hrun)⟩

/-- What is known of a program for different reasons. -/
theorem Runs.and {faults' : Fault → Prop} {post' : α → σ → Prop} (h : Runs faults p s post)
    (h' : Runs faults' p s post') : Runs faults p s fun a t => post a t ∧ post' a t :=
  ⟨h.raises, fun a t hrun => ⟨h.answers a t hrun, h'.answers a t hrun⟩⟩

/-- What holds along a loop may depend on the part of the list that has been worked on. -/
theorem runs_foldlM_done {γ : Type} {l : List γ} {f : β → γ → Program ε σ β}
    {inv : List γ → σ → Prop}
    (hf : ∀ done c rest, l = done ++ c :: rest → ∀ b t, inv done t →
      Runs faults (f b c) t fun _ => inv (done ++ [c])) (hs : inv [] s) {b : β} :
    Runs faults (l.foldlM f b) s fun _ => inv l := by
  have hrest : ∀ todo done b s, l = done ++ todo → inv done s →
      Runs faults (todo.foldlM f b) s fun _ => inv l := by
    intro todo
    induction todo with
    | nil =>
      intro done b s hl h
      rw [List.append_nil] at hl
      exact runs_pure (hl ▸ h)
    | cons c rest ih =>
      intro done b s hl h
      refine (hf done c rest hl b s h).bind fun b' t ht => ?_
      exact ih (done ++ [c]) b' t (by rw [hl, List.append_assoc]; rfl) ht
  exact hrest l [] b s rfl hs

/-- A loop that carries a value along keeps what each of its steps keeps. -/
theorem runs_foldlM {γ : Type} {l : List γ} {f : β → γ → Program ε σ β} {inv : β → σ → Prop}
    (hf : ∀ b, ∀ a ∈ l, ∀ t, inv b t → Runs faults (f b a) t inv) {b : β} (hb : inv b s) :
    Runs faults (l.foldlM f b) s inv := by
  induction l generalizing b s with
  | nil => exact runs_pure hb
  | cons a rest ih =>
    refine (hf b a List.mem_cons_self s hb).bind fun b' t hb' => ?_
    exact ih (fun b a ha => hf b a (List.mem_cons_of_mem _ ha)) hb'

end Program

end FiniteDomain
