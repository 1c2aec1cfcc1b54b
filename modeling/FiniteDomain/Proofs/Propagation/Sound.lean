import FiniteDomain.Proofs.Propagation.Keeps
import FiniteDomain.Proofs.Store.Exact
import FiniteDomain.Proofs.Store.Steps

/-! # Sound filtering

    `Sound sat p s post` says that the filtering program `p` is right for the
    relation `sat` when it is run on the store `s`: it ends without a fault, it
    gets from `s` to the store that it leaves by steps, it loses no valuation that
    satisfies the relation, and it refuses only if there is none.  If it succeeds,
    its answer and the store that it leaves satisfy `post`.

    There is one rule for each way to build a program.  In the rules for loops the
    body is run on stores that come from `s` by steps, so what only gets smaller
    along a run need not be carried through the loop. -/

namespace FiniteDomain.Filtering

variable {α β : Type}

/-- What a program for the relation may answer when it is run on a store. -/
structure Verdict (sat : Valuation → Prop) (s : Store) (post : α → Store → Prop)
    (r : Except Refusal α) (t : Store) : Prop where
  /-- The store that is left comes from the first by steps. -/
  steps : s.Steps t
  /-- No valuation that satisfies the relation is lost. -/
  kept : ∀ a, s.Admits a → sat a → t.Admits a
  /-- What is known after a success. -/
  accepted : ∀ x, r = .ok x → post x t
  /-- A refusal is right. -/
  refused : ∀ e, r = .error e → ∀ a, s.Admits a → ¬ sat a

/-- The program is right for the relation when it is run on the store. -/
def Sound (sat : Valuation → Prop) (p : Filtering α) (s : Store) (post : α → Store → Prop) :
    Prop :=
  ∃ r t, p.runOn s = .ok (r, t) ∧ Verdict sat s post r t

namespace Sound

variable {sat : Valuation → Prop} {s : Store} {post : α → Store → Prop}
  {post' : β → Store → Prop} {p : Filtering α} {f : α → Filtering β}

theorem pure {x : α} (h : post x s) : Sound sat (pure x) s post := by
  refine ⟨.ok x, s, rfl, .refl s, fun _ ha _ => ha, ?_, ?_⟩
  · intro y hy
    cases hy
    exact h
  · intro e he
    cases he

theorem refuse (h : ∀ a, s.Admits a → ¬ sat a) : Sound sat (refuse : Filtering α) s post := by
  refine ⟨.error .inconsistent, s, rfl, .refl s, fun _ ha _ => ha, ?_, fun _ _ => h⟩
  intro y hy
  cases hy

theorem bind_refuse {g : α → Filtering β} (h : ∀ a, s.Admits a → ¬ sat a) :
    Sound sat ((Filtering.refuse : Filtering α) >>= g) s post' := by
  refine ⟨.error .inconsistent, s, rfl, .refl s, fun _ ha _ => ha, ?_, fun _ _ => h⟩
  intro y hy
  cases hy

theorem checked {x : α} {result : Except Fault α} (hresult : result = .ok x) (h : post x s) :
    Sound sat (checked result) s post := by
  subst hresult
  exact pure h

/-- One program after another. -/
theorem bind (hp : Sound sat p s post)
    (hf : ∀ x t, s.Steps t → post x t → Sound sat (f x) t post') :
    Sound sat (p >>= f) s post' := by
  obtain ⟨r, t, hrun, hv⟩ := hp
  cases r with
  | error e =>
    refine ⟨.error e, t, ?_, hv.steps, hv.kept, ?_, fun _ _ => hv.refused e rfl⟩
    · rw [runOn_bind, hrun]
      rfl
    · intro y hy
      cases hy
  | ok x =>
    obtain ⟨r', u, hrun', hv'⟩ := hf x t hv.steps (hv.accepted x rfl)
    refine ⟨r', u, ?_, hv.steps.trans hv'.steps, ?_, hv'.accepted, ?_⟩
    · rw [runOn_bind, hrun]
      exact hrun'
    · intro a ha hsat
      exact hv'.kept a (hv.kept a ha hsat) hsat
    · intro e he a ha hsat
      exact hv'.refused e he a (hv.kept a ha hsat) hsat

theorem bind_read {view : Store → α} (h : Sound sat (f (view s)) s post') :
    Sound sat (Filtering.read view >>= f) s post' := by
  obtain ⟨r, t, hrun, hv⟩ := h
  exact ⟨r, t, hrun, hv⟩

theorem bind_get {f : Store → Filtering β} (h : Sound sat (f s) s post') :
    Sound sat (get >>= f) s post' := by
  obtain ⟨r, t, hrun, hv⟩ := h
  exact ⟨r, t, hrun, hv⟩

theorem bind_checked {x : α} {result : Except Fault α} (hresult : result = .ok x)
    (h : Sound sat (f x) s post') : Sound sat (Filtering.checked result >>= f) s post' := by
  subst hresult
  obtain ⟨r, t, hrun, hv⟩ := h
  exact ⟨r, t, hrun, hv⟩

/-- What is known afterwards can be weakened. -/
theorem imp {post' : α → Store → Prop} (hp : Sound sat p s post)
    (h : ∀ x t, s.Steps t → post x t → post' x t) : Sound sat p s post' := by
  obtain ⟨r, t, hrun, hv⟩ := hp
  exact ⟨r, t, hrun, hv.steps, hv.kept,
    fun x hx => h x t hv.steps (hv.accepted x hx), hv.refused⟩

/-- A narrowing to what the relation demands anyway; its answer is passed on. -/
theorem narrowOr {refusal : Refusal} {narrow : Store → Narrowed} {request : Valuation → Prop}
    (h : (narrow s).Obeys s request) (hsat : ∀ a, s.Admits a → sat a → request a) :
    Sound sat (narrowOr refusal narrow) s
      fun c t => (narrow s).changed? = some c ∧ t = (narrow s).store := by
  refine ⟨_, _, runOn_narrowOr refusal narrow s, .of_narrowed h.toSteps, ?_, ?_, ?_⟩
  · exact fun a ha hs => h.kept a ha (hsat a ha hs)
  · intro x hx
    cases hc : (narrow s).changed? with
    | none =>
      rw [hc] at hx
      cases hx
    | some c =>
      rw [hc] at hx
      cases hx
      exact ⟨rfl, rfl⟩
  · intro e he a ha hs
    cases hc : (narrow s).changed? with
    | none => exact h.empty hc a ha (hsat a ha hs)
    | some c =>
      rw [hc] at he
      cases he

theorem narrowing {narrow : Store → Narrowed} {request : Valuation → Prop}
    (h : (narrow s).Obeys s request) (hsat : ∀ a, s.Admits a → sat a → request a) :
    Sound sat (narrowing narrow) s
      fun _ t => (narrow s).changed? ≠ none ∧ t = (narrow s).store := by
  refine bind (narrowOr h hsat) fun c t _ hc => pure ⟨?_, hc.2⟩
  rw [hc.1]
  exact Option.some_ne_none c

/-- A loop with an invariant of accumulator and store; besides, the body achieves something for
    every member of the list that later steps do not undo as long as the invariant holds. -/
theorem foldlM_done {γ : Type} {I : β → Store → Prop} {D : γ → Store → Prop} {l : List γ}
    {f : β → γ → Filtering β} {b : β}
    (hstay : ∀ c b b' t u, s.Steps t → t.Steps u → I b t → I b' u → D c t → D c u)
    (hf : ∀ c ∈ l, ∀ b t, s.Steps t → I b t →
      Sound sat (f b c) t fun b' t' => I b' t' ∧ D c t')
    (hb : I b s) :
    Sound sat (l.foldlM f b) s fun b' t' => I b' t' ∧ ∀ c ∈ l, D c t' := by
  induction l generalizing b s with
  | nil => exact pure ⟨hb, fun c hc => absurd hc List.not_mem_nil⟩
  | cons c rest ih =>
    rw [List.foldlM_cons]
    refine bind (hf c List.mem_cons_self b s (.refl s) hb) fun b' t hsteps hfirst => ?_
    have hrest := ih (fun d b b' u v hu => hstay d b b' u v (hsteps.trans hu))
      (fun d hd b u hu hinv => hf d (List.mem_cons_of_mem c hd) b u (hsteps.trans hu) hinv) hfirst.1
    refine hrest.imp fun b'' u hlast h => ⟨h.1, fun d hd => ?_⟩
    rcases List.mem_cons.mp hd with rfl | hd
    · exact hstay d b' b'' t u hsteps hlast hfirst.1 h.1 hfirst.2
    · exact h.2 d hd

theorem forM_done {γ : Type} {I : Store → Prop} {D : γ → Store → Prop} {l : List γ}
    {f : γ → Filtering PUnit}
    (hstay : ∀ c t u, s.Steps t → t.Steps u → I t → I u → D c t → D c u)
    (hf : ∀ c ∈ l, ∀ t, s.Steps t → I t → Sound sat (f c) t fun _ t' => I t' ∧ D c t')
    (hs : I s) : Sound sat (l.forM f) s fun _ t' => I t' ∧ ∀ c ∈ l, D c t' := by
  induction l generalizing s with
  | nil => exact pure ⟨hs, fun c hc => absurd hc List.not_mem_nil⟩
  | cons c rest ih =>
    show Sound sat (f c >>= fun _ => rest.forM f) s _
    refine bind (hf c List.mem_cons_self s (.refl s) hs) fun _ t hsteps hfirst => ?_
    have hrest := ih (fun d u v hu => hstay d u v (hsteps.trans hu)) (fun d hd u hu hinv =>
      hf d (List.mem_cons_of_mem c hd) u (hsteps.trans hu) hinv) hfirst.1
    refine hrest.imp fun _ u hlast h => ⟨h.1, fun d hd => ?_⟩
    rcases List.mem_cons.mp hd with rfl | hd
    · exact hstay d t u hsteps hlast hfirst.1 h.1 hfirst.2
    · exact h.2 d hd

theorem forM {γ : Type} {I : Store → Prop} {F : γ → Prop} {l : List γ}
    {f : γ → Filtering PUnit}
    (hf : ∀ c ∈ l, ∀ t, s.Steps t → I t → Sound sat (f c) t fun _ t' => I t' ∧ F c)
    (hs : I s) : Sound sat (l.forM f) s fun _ t' => I t' ∧ ∀ c ∈ l, F c :=
  forM_done (D := fun c _ => F c) (fun _ _ _ _ _ _ _ h => h) hf hs

/-- A narrowing that keeps nothing else. -/
theorem narrowing_exactly {narrow : Store → Narrowed} {request : Valuation → Prop}
    (h : (narrow s).Keeps s request) (hsat : ∀ a, s.Admits a → sat a → request a) :
    Sound sat (Filtering.narrowing narrow) s fun _ t => ∀ a, t.Admits a → request a := by
  refine (narrowing h.toObeys hsat).imp fun _ t _ hpost => ?_
  obtain ⟨hne, rfl⟩ := hpost
  exact h.exactly hne

end Sound

/-! ### What is reached on the way -/

/-- The second store is reached from the first without losing a valuation of the relation. -/
structure Reaches (sat : Valuation → Prop) (s t : Store) : Prop where
  /-- The second store comes from the first by steps. -/
  steps : s.Steps t
  /-- No valuation that satisfies the relation is lost. -/
  kept : ∀ a, s.Admits a → sat a → t.Admits a

namespace Reaches

variable {sat : Valuation → Prop} {s t u : Store}

theorem refl (s : Store) : Reaches sat s s := ⟨.refl s, fun _ ha _ => ha⟩

theorem trans (h₁ : Reaches sat s t) (h₂ : Reaches sat t u) : Reaches sat s u :=
  ⟨h₁.steps.trans h₂.steps, fun a ha hsat => h₂.kept a (h₁.kept a ha hsat) hsat⟩

end Reaches

namespace Sound

variable {sat : Valuation → Prop} {s : Store} {post : α → Store → Prop}
  {post' : β → Store → Prop} {p : Filtering α} {f : α → Filtering β}

/-- A run leaves a store that is reached from the first. -/
theorem reaches (hp : Sound sat p s post) :
    Sound sat p s fun x t => post x t ∧ Reaches sat s t := by
  obtain ⟨r, t, hrun, hv⟩ := hp
  exact ⟨r, t, hrun, hv.steps, hv.kept,
    fun x hx => ⟨hv.accepted x hx, hv.steps, hv.kept⟩, hv.refused⟩

/-- What is known of one run for two relations. -/
theorem and {sat' : Valuation → Prop} {post' : α → Store → Prop} (hp : Sound sat p s post)
    (hp' : Sound sat' p s post') :
    Sound sat p s fun x t => post x t ∧ post' x t ∧ Reaches sat' s t := by
  obtain ⟨r, t, hrun, hv⟩ := hp
  obtain ⟨r', t', hrun', hv'⟩ := hp'
  obtain ⟨rfl, rfl⟩ := Prod.mk.inj (Except.ok.inj (hrun.symm.trans hrun'))
  exact ⟨r, t, hrun, hv.steps, hv.kept,
    fun x hx => ⟨hv.accepted x hx, hv'.accepted x hx, hv'.steps, hv'.kept⟩, hv.refused⟩

/-- What is known of the answers of every run. -/
theorem and_runs {faults : Fault → Prop} {post' : α → Store → Prop} (hp : Sound sat p s post)
    (hp' : Program.Runs faults p s post') : Sound sat p s fun x t => post x t ∧ post' x t := by
  obtain ⟨r, t, hrun, hv⟩ := hp
  refine ⟨r, t, hrun, hv.steps, hv.kept, fun x hx => ⟨hv.accepted x hx, ?_⟩, hv.refused⟩
  exact hp'.answers x t (hx ▸ hrun)

theorem bind_reaches (hp : Sound sat p s post)
    (hf : ∀ x t, Reaches sat s t → post x t → Sound sat (f x) t post') :
    Sound sat (p >>= f) s post' :=
  bind hp.reaches fun x t _ h => hf x t h.2 h.1

theorem foldlM_reaches {γ : Type} {I : β → Store → Prop} {D : γ → Store → Prop} {l : List γ}
    {f : β → γ → Filtering β} {b : β}
    (hstay : ∀ c b b' t u, s.Steps t → t.Steps u → I b t → I b' u → D c t → D c u)
    (hf : ∀ c ∈ l, ∀ b t, Reaches sat s t → I b t →
      Sound sat (f b c) t fun b' t' => I b' t' ∧ D c t')
    (hb : I b s) :
    Sound sat (l.foldlM f b) s fun b' t' => I b' t' ∧ ∀ c ∈ l, D c t' := by
  refine (foldlM_done (I := fun b t => I b t ∧ Reaches sat s t)
    (fun c b b' t u hst htu h h' => hstay c b b' t u hst htu h.1 h'.1) ?_ ⟨hb, .refl s⟩).imp
    fun _ _ _ h => ⟨h.1.1, h.2⟩
  intro c hc b t _ h
  exact (hf c hc b t h.2 h.1).reaches.imp fun b' u _ hpost =>
    ⟨⟨hpost.1.1, h.2.trans hpost.2⟩, hpost.1.2⟩

theorem forM_reaches_done {γ : Type} {I : Store → Prop} {D : γ → Store → Prop} {l : List γ}
    {f : γ → Filtering PUnit}
    (hstay : ∀ c t u, s.Steps t → t.Steps u → I t → I u → D c t → D c u)
    (hf : ∀ c ∈ l, ∀ t, Reaches sat s t → I t → Sound sat (f c) t fun _ t' => I t' ∧ D c t')
    (hs : I s) : Sound sat (l.forM f) s fun _ t' => I t' ∧ ∀ c ∈ l, D c t' := by
  refine (forM_done (I := fun t => I t ∧ Reaches sat s t)
    (fun c t u hst htu h h' => hstay c t u hst htu h.1 h'.1) ?_ ⟨hs, .refl s⟩).imp
    fun _ _ _ h => ⟨h.1.1, h.2⟩
  intro c hc t _ h
  exact (hf c hc t h.2 h.1).reaches.imp fun _ u _ hpost =>
    ⟨⟨hpost.1.1, h.2.trans hpost.2⟩, hpost.1.2⟩

theorem forM_reaches {γ : Type} {D : γ → Store → Prop} {l : List γ} {f : γ → Filtering PUnit}
    (hstay : ∀ c t u, s.Steps t → t.Steps u → D c t → D c u)
    (hf : ∀ c ∈ l, ∀ t, Reaches sat s t → Sound sat (f c) t fun _ t' => D c t') :
    Sound sat (l.forM f) s fun _ t' => ∀ c ∈ l, D c t' :=
  (forM_reaches_done (I := fun _ => True) (fun c t u hst htu _ _ => hstay c t u hst htu)
    (fun c hc t hst _ => (hf c hc t hst).imp fun _ _ _ h => ⟨trivial, h⟩) trivial).imp
    fun _ _ _ h => h.2

end Sound

/-! ### Programs that may end in a fault -/

/-- The program is right for the relation when it is run on the store, unless it ends in one of the
    faults. -/
def SoundUpTo (faults : Fault → Prop) (sat : Valuation → Prop) (p : Filtering α) (s : Store)
    (post : α → Store → Prop) : Prop :=
  (∃ f, p.runOn s = .error f ∧ faults f) ∨ Sound sat p s post

namespace SoundUpTo

variable {faults : Fault → Prop} {sat : Valuation → Prop} {s : Store} {post : α → Store → Prop}
  {post' : β → Store → Prop} {p : Filtering α} {f : α → Filtering β}

/-- One program after another. -/
theorem bind (hp : SoundUpTo faults sat p s post)
    (hf : ∀ x t, s.Steps t → post x t → SoundUpTo faults sat (f x) t post') :
    SoundUpTo faults sat (p >>= f) s post' := by
  rcases hp with ⟨e, hrun, he⟩ | hp
  · left
    refine ⟨e, ?_, he⟩
    rw [runOn_bind, hrun]
    rfl
  obtain ⟨r, t, hrun, hv⟩ := hp
  -- the rest is run only after a success, and then it may end in a fault of its own
  cases r with
  | error refusal =>
    right
    refine ⟨.error refusal, t, ?_, hv.steps, hv.kept, nofun, fun _ _ => hv.refused refusal rfl⟩
    rw [runOn_bind, hrun]
    rfl
  | ok x =>
    rcases hf x t hv.steps (hv.accepted x rfl) with ⟨e, hrun', he⟩ | hrest
    · left
      refine ⟨e, ?_, he⟩
      rw [runOn_bind, hrun]
      exact hrun'
    · right
      have hfirst : Sound sat p s fun y u => y = x ∧ u = t :=
        ⟨.ok x, t, hrun, hv.steps, hv.kept, fun y hy => ⟨(Except.ok.inj hy).symm, rfl⟩, nofun⟩
      refine hfirst.bind fun y u _ heq => ?_
      rw [heq.1, heq.2]
      exact hrest

theorem checked {result : Except Fault α} (hresult : RaisesOnly faults result)
    (h : ∀ x, result = .ok x → post x s) :
    SoundUpTo faults sat (Filtering.checked result) s post := by
  cases result with
  | error e => exact Or.inl ⟨e, rfl, hresult e rfl⟩
  | ok x => exact Or.inr (Sound.pure (h x rfl))

theorem bind_checked {result : Except Fault α} (hresult : RaisesOnly faults result)
    (h : ∀ x, result = .ok x → SoundUpTo faults sat (f x) s post') :
    SoundUpTo faults sat (Filtering.checked result >>= f) s post' := by
  cases result with
  | error e => exact Or.inl ⟨e, rfl, hresult e rfl⟩
  | ok x => exact h x rfl

theorem bind_get {f : Store → Filtering β} (h : SoundUpTo faults sat (f s) s post') :
    SoundUpTo faults sat (get >>= f) s post' :=
  h.imp_right Sound.bind_get

theorem bind_read {view : Store → α} (h : SoundUpTo faults sat (f (view s)) s post') :
    SoundUpTo faults sat (Filtering.read view >>= f) s post' :=
  h.imp_right Sound.bind_read

/-- What is known afterwards can be weakened. -/
theorem imp {post' : α → Store → Prop} (hp : SoundUpTo faults sat p s post)
    (h : ∀ x t, s.Steps t → post x t → post' x t) : SoundUpTo faults sat p s post' :=
  hp.imp_right fun hsound => hsound.imp h

/-- A loop whose passes do not depend on each other. -/
theorem forM {γ : Type} {l : List γ} {f : γ → Filtering PUnit}
    (hf : ∀ c ∈ l, ∀ t, s.Steps t → SoundUpTo faults sat (f c) t fun _ _ => True) :
    SoundUpTo faults sat (l.forM f) s fun _ _ => True := by
  induction l generalizing s with
  | nil => exact Or.inr (Sound.pure trivial)
  | cons c rest ih =>
    show SoundUpTo faults sat (f c >>= fun _ => rest.forM f) s _
    refine bind (hf c List.mem_cons_self s (.refl s)) fun _ t hst _ => ?_
    exact ih fun d hd u htu => hf d (List.mem_cons_of_mem c hd) u (hst.trans htu)

end SoundUpTo

end FiniteDomain.Filtering
