import FiniteDomain.Domain.Outcome

/-! # Chains of recorded changes

    A narrowing makes one or more elementary changes, each recorded by an entry.
    `Chain tick d entries d'` says that the entries, oldest first, lead from `d`
    to `d'`, where `tick` says what an elementary change is.

    What an elementary change does to the contents of a domain is the same for all
    kinds of domains (`Decreasing`), so every chain loses some content
    (`Chain.exists_loss`).

    `Outcome.Obeys` and `Outcome.Exact` say what an outcome means for the
    contents that the narrowing was asked to keep: no content that obeys the
    request is lost, and only those are left. -/

namespace FiniteDomain

variable {D E C : Type}

/-- Elementary changes one after the other. -/
inductive Chain (tick : D → E → D → Prop) : D → List E → D → Prop where
  /-- No change. -/
  | nil (d : D) : Chain tick d [] d
  /-- A change, and then others. -/
  | cons {d d₁ d' : D} {e : E} {entries : List E} (first : tick d e d₁)
      (rest : Chain tick d₁ entries d') : Chain tick d (e :: entries) d'

namespace Chain

variable {tick : D → E → D → Prop} {d d₁ d' : D} {entries more : List E}

theorem single {e : E} (h : tick d e d') : Chain tick d [e] d' := .cons h (.nil d')

theorem append (h₁ : Chain tick d entries d₁) (h₂ : Chain tick d₁ more d') :
    Chain tick d (entries ++ more) d' := by
  induction h₁ with
  | nil d => exact h₂
  | cons first _ ih => exact .cons first (ih h₂)

/-- What every elementary change keeps, a chain keeps. -/
theorem invariant {P : D → Prop} (h : Chain tick d entries d')
    (hstep : ∀ {d e d'}, tick d e d' → P d → P d') (hd : P d) : P d' := by
  induction h with
  | nil d => exact hd
  | cons first _ ih => exact ih (hstep first hd)

/-- What every elementary change lowers, a chain lowers by its length at least. -/
theorem measure_le {P : D → Prop} {m : D → Nat} (h : Chain tick d entries d')
    (hstep : ∀ {d e d'}, tick d e d' → P d → P d' ∧ m d' < m d) (hd : P d) :
    m d' + entries.length ≤ m d := by
  induction h with
  | nil d => exact Nat.le_refl _
  | cons first _ ih =>
    obtain ⟨hd₁, hlt⟩ := hstep first hd
    have hrest := ih hd₁
    rw [List.length_cons]
    omega

/-- A chain can be cut anywhere. -/
theorem split (h : Chain tick d entries d') (k : Nat) :
    ∃ mid, Chain tick d (entries.take k) mid ∧ Chain tick mid (entries.drop k) d' := by
  induction h generalizing k with
  | nil d => exact ⟨d, by simpa using .nil d, by simpa using .nil d⟩
  | cons first rest ih =>
    cases k with
    | zero => exact ⟨_, .nil _, .cons first rest⟩
    | succ k =>
      obtain ⟨mid, hbefore, hafter⟩ := ih k
      exact ⟨mid, .cons first hbefore, hafter⟩

/-- A chain within a larger system, which remembers the entries made. -/
theorem lift {S F : Type} {R : S → F → S → Prop} {f : D → List E → S} {c : E → F}
    (hstep : ∀ {d e d'} (made : List E), tick d e d' →
      R (f d made) (c e) (f d' (made ++ [e])))
    (h : Chain tick d entries d') (made : List E) :
    Chain R (f d made) (entries.map c) (f d' (made ++ entries)) := by
  induction h generalizing made with
  | nil d => simpa using Chain.nil (f d made)
  | @cons _ _ _ e _ first rest ih =>
    have hrest := ih (made ++ [e])
    rw [List.append_assoc] at hrest
    exact .cons (hstep made first) hrest

/-- A chain seen through a map that goes along with the ticks. -/
theorem map {S : Type} {R : S → E → S → Prop} {f : D → S}
    (hstep : ∀ {d e d'}, tick d e d' → R (f d) e (f d')) (h : Chain tick d entries d') :
    Chain R (f d) entries (f d') := by
  induction h with
  | nil d => exact .nil _
  | cons first _ ih => exact .cons (hstep first) ih

end Chain

/-! ### Contents -/

/-- An elementary change keeps a domain well-formed and takes some content away, but never the
    last one. -/
structure Decreasing (tick : D → E → D → Prop) (wf : D → Prop) (admits : D → C → Prop) :
    Prop where
  /-- The domain stays well-formed. -/
  sound : ∀ {d e d'}, tick d e d' → wf d → wf d'
  /-- No content is new. -/
  narrows : ∀ {d e d'}, tick d e d' → wf d → ∀ c, admits d' c → admits d c
  /-- Some content is lost. -/
  loses : ∀ {d e d'}, tick d e d' → wf d → ∃ c, admits d c ∧ ¬ admits d' c
  /-- Some content is left. -/
  inhabited : ∀ {d}, wf d → ∃ c, admits d c

section

variable {tick : D → E → D → Prop} {wf : D → Prop} {admits : D → C → Prop} {d d' : D}
  {entries : List E}

/-- A chain only takes contents away. -/
theorem Chain.narrows (h : Chain tick d entries d') (laws : Decreasing tick wf admits) (hd : wf d)
    {c : C} (hc : admits d' c) : admits d c := by
  induction h with
  | nil d => exact hc
  | cons first _ ih => exact laws.narrows first hd c (ih (laws.sound first hd) hc)

/-- A chain that is not empty loses what its first change loses. -/
theorem Chain.exists_loss (h : Chain tick d entries d') (laws : Decreasing tick wf admits)
    (hne : entries ≠ []) (hd : wf d) : ∃ c, admits d c ∧ ¬ admits d' c := by
  cases h with
  | nil => exact absurd rfl hne
  | cons first rest =>
    obtain ⟨c, hc, hlost⟩ := laws.loses first hd
    exact ⟨c, hc, fun hlast => hlost (rest.narrows laws (laws.sound first hd) hlast)⟩

/-- A domain with a single content is not changed any more. -/
theorem Chain.entries_eq_nil (h : Chain tick d entries d') (laws : Decreasing tick wf admits)
    (hd : wf d) (hone : ∀ c c', admits d c → admits d c' → c = c') : entries = [] := by
  cases entries with
  | nil => rfl
  | cons e rest =>
    obtain ⟨c, hc, hlost⟩ := h.exists_loss laws (List.cons_ne_nil e rest) hd
    obtain ⟨c', hc'⟩ := laws.inhabited (h.invariant laws.sound hd)
    exact absurd (hone c c' hc (h.narrows laws hd hc') ▸ hc') hlost

end

namespace Outcome

/-- No content that obeys the request is lost; a change is recorded. -/
def Obeys (tick : D → E → D → Prop) (admits : D → C → Prop) (d : D) (request : C → Prop) :
    Outcome D E → Prop
  | .empty => ∀ c, admits d c → ¬ request c
  | .unchanged => True
  | .changed d' entries _ =>
    Chain tick d entries d' ∧ entries ≠ [] ∧ ∀ c, admits d c → request c → admits d' c

/-- Only contents that obey the request are left. -/
def Exact (admits : D → C → Prop) (d : D) (request : C → Prop) : Outcome D E → Prop
  | .empty => True
  | .unchanged => ∀ c, admits d c → request c
  | .changed d' _ _ => ∀ c, admits d' c → request c

end Outcome

end FiniteDomain
