import FiniteDomain.Branching.VariableSelector
import FiniteDomain.Proofs.Branching.Values

/-! # Every choice of a variable finds an open one

    Whatever rule chooses among variables, and whatever is drawn: a variable that
    is not fixed is chosen, unless all are fixed (`VariableSelector.select_spec`).
    The same goes for sets (`selectSet?_spec`). -/

namespace FiniteDomain

variable {s : Store}

/-! ### The best candidate -/

namespace TieBreaker

variable {α : Type} {direction : Extremum}

theorem consider_spec (t : TieBreaker α) (c : α) (k : Int) :
    ∃ best, (t.consider c k).best?.map (·.1) = some best
      ∧ (best = c ∨ t.best?.map (·.1) = some best) := by
  unfold consider
  split
  · exact ⟨c, rfl, Or.inl rfl⟩
  next candidate best heq =>
    split
    · exact ⟨c, rfl, Or.inl rfl⟩
    · refine ⟨candidate, ?_, Or.inr ?_⟩ <;> rw [heq] <;> rfl

theorem foldl_spec (key : α → Int) (candidates : List α) (t : TieBreaker α) :
    ((candidates.foldl (fun t c => t.consider c (key c)) t).best?.map (·.1) = none
        → candidates = [] ∧ t.best?.map (·.1) = none)
      ∧ ∀ best, (candidates.foldl (fun t c => t.consider c (key c)) t).best?.map (·.1) = some best
        → best ∈ candidates ∨ t.best?.map (·.1) = some best := by
  induction candidates generalizing t with
  | nil => exact ⟨fun h => ⟨rfl, h⟩, fun best h => Or.inr h⟩
  | cons c rest ih =>
    obtain ⟨best, hbest, hfrom⟩ := consider_spec t c (key c)
    obtain ⟨hnone, hsome⟩ := ih (t.consider c (key c))
    refine ⟨fun h => ?_, fun last h => ?_⟩
    · rw [hbest] at hnone
      cases (hnone h).2
    · rcases hsome last h with hrest | hlast
      · exact Or.inl (List.mem_cons_of_mem c hrest)
      · obtain rfl : best = last := Option.some.inj (hbest.symm.trans hlast)
        rcases hfrom with rfl | hold
        · exact Or.inl List.mem_cons_self
        · exact Or.inr hold

/-- One of the candidates is chosen, unless there is none. -/
theorem choose_spec (direction : Extremum) (key : α → Int) (candidates : List α) :
    (choose direction key candidates = none → candidates = [])
      ∧ ∀ best, choose direction key candidates = some best → best ∈ candidates := by
  obtain ⟨hnone, hsome⟩ := foldl_spec key candidates (new direction)
  refine ⟨fun h => (hnone h).1, fun best h => (hsome best h).resolve_right fun hnew => ?_⟩
  cases hnew

end TieBreaker

/-! ### Variables -/

namespace VariableSelector

variable {vars : List IntVar}

/-- What a choice among variables comes to. -/
structure Chooses (vars : List IntVar) (s : Store) (x? : Option IntVar) : Prop where
  /-- Nothing is chosen if everything is fixed only. -/
  fixed : x? = none → ∀ x ∈ vars, x.isFixed s = true
  /-- What is chosen is open. -/
  opened : ∀ x, x? = some x → x ∈ vars ∧ x.isFixed s = false

theorem chooses_none (h : ∀ x ∈ vars, x.isFixed s = true) : Chooses vars s none :=
  ⟨fun _ => h, nofun⟩

theorem chooses_some {x : IntVar} (hx : x ∈ vars) (hopen : x.isFixed s = false) :
    Chooses vars s (some x) := by
  refine ⟨nofun, fun z h => ?_⟩
  cases h
  exact ⟨hx, hopen⟩

theorem forM_require (hknown : ∀ x ∈ vars, s.knows (.int x.base) = true) :
    vars.forM (fun x => s.require (.int x.base)) = .ok () := by
  induction vars with
  | nil => rfl
  | cons x rest ih =>
    show (s.require (.int x.base) >>= fun _ => rest.forM _) = _
    rw [Filter.require_eq (hknown x List.mem_cons_self)]
    exact ih fun z hz => hknown z (List.mem_cons_of_mem x hz)

theorem openVariables_eq (hknown : ∀ x ∈ vars, s.knows (.int x.base) = true) :
    openVariables vars s = .ok (vars.filter fun x => !x.isFixed s) := by
  unfold openVariables
  rw [forM_require hknown]
  rfl

theorem mem_open {x : IntVar} :
    x ∈ vars.filter (fun x => !x.isFixed s) ↔ x ∈ vars ∧ x.isFixed s = false := by
  rw [List.mem_filter, Bool.not_eq_true']

theorem fixed_of_open_nil (h : vars.filter (fun x => !x.isFixed s) = []) :
    ∀ x ∈ vars, x.isFixed s = true := by
  intro x hx
  have hout := List.filter_eq_nil_iff.mp h x hx
  rwa [Bool.not_eq_true', Bool.not_eq_false] at hout

/-- The best open variable. -/
theorem chooses_best (direction : Extremum) (key : IntVar → Int) :
    Chooses vars s (TieBreaker.choose direction key (vars.filter fun x => !x.isFixed s)) := by
  obtain ⟨hnone, hsome⟩ := TieBreaker.choose_spec direction key
    (vars.filter fun x => !x.isFixed s)
  exact ⟨fun h => fixed_of_open_nil (hnone h), fun x h => mem_open.mp (hsome x h)⟩

theorem firstOpen?_spec (hknown : ∀ x ∈ vars, s.knows (.int x.base) = true) :
    ∃ position?, firstOpen? s vars = .ok position?
      ∧ (position? = none → ∀ x ∈ vars, x.isFixed s = true)
      ∧ ∀ i, position? = some i → ∃ x, vars[i]? = some x ∧ x.isFixed s = false := by
  induction vars with
  | nil => exact ⟨none, rfl, fun _ x hx => absurd hx List.not_mem_nil, nofun⟩
  | cons x rest ih =>
    obtain ⟨position?, hrest, hnone, hsome⟩ := ih fun z hz => hknown z (List.mem_cons_of_mem x hz)
    have hrequire := Filter.require_eq (hknown x List.mem_cons_self)
    simp only [firstOpen?, hrequire, hrest, bind, Except.bind, pure, Except.pure]
    cases hx : x.isFixed s with
    | true =>
      refine ⟨position?.map (· + 1), rfl, fun h z hz => ?_, fun i h => ?_⟩
      · rcases List.mem_cons.mp hz with rfl | hz
        · exact hx
        · exact hnone (Option.map_eq_none_iff.mp h) z hz
      · obtain ⟨j, hj, rfl⟩ := Option.map_eq_some_iff.mp h
        exact hsome j hj
    | false =>
      refine ⟨some 0, rfl, nofun, fun i h => ?_⟩
      cases h
      exact ⟨x, rfl, hx⟩

/-- Every rule chooses an open variable, unless there is none. -/
theorem select_spec (selector : VariableSelector)
    (hknown : ∀ x ∈ vars, s.knows (.int x.base) = true) (r : Random) :
    ∃ x? selector' r', selector.select vars s r = .ok (x?, selector', r') ∧ Chooses vars s x? := by
  have hopen := openVariables_eq hknown
  cases selector with
  | inputOrder =>
    obtain ⟨position?, hfirst, hnone, hsome⟩ := firstOpen?_spec hknown
    simp only [select, hfirst, bind, Except.bind, pure, Except.pure]
    refine ⟨_, _, _, rfl, ?_⟩
    cases position? with
    | none => exact chooses_none (hnone rfl)
    | some i =>
      obtain ⟨x, hi, hx⟩ := hsome i rfl
      change Chooses vars s vars[i]?
      rw [hi]
      exact chooses_some (List.mem_of_getElem? hi) hx
  | cyclic position =>
    -- the list is searched from the position on and then from its beginning
    have hmem : ∀ x, x ∈ vars.drop position ++ vars.take position ↔ x ∈ vars := by
      intro x
      rw [List.mem_append, or_comm, ← List.mem_append, List.take_append_drop]
    obtain ⟨position?, hfirst, hnone, hsome⟩ :=
      firstOpen?_spec fun x hx => hknown x ((hmem x).mp hx)
    simp only [select, hfirst, bind, Except.bind, pure, Except.pure]
    cases position? with
    | none =>
      exact ⟨_, _, _, rfl, chooses_none fun x hx => hnone rfl x ((hmem x).mpr hx)⟩
    | some i =>
      obtain ⟨x, hi, hx⟩ := hsome i rfl
      refine ⟨_, _, _, rfl, ?_⟩
      rw [hi]
      exact chooses_some ((hmem x).mp (List.mem_of_getElem? hi)) hx
  | random =>
    simp only [select, hopen, bind, Except.bind, pure, Except.pure]
    by_cases hempty : (vars.filter fun x => !x.isFixed s) = []
    · rw [hempty]
      exact ⟨none, _, _, rfl, chooses_none (fixed_of_open_nil hempty)⟩
    · have hpos : 0 < (vars.filter fun x => !x.isFixed s).length :=
        List.length_pos_iff.mpr hempty
      have hlt := r.below_lt hpos
      rw [if_neg (by rwa [List.isEmpty_iff])]
      refine ⟨_, _, _, rfl, ?_⟩
      rw [List.getElem?_eq_getElem hlt]
      obtain ⟨hmem, hdrawn⟩ := mem_open.mp (List.getElem_mem hlt)
      exact chooses_some hmem hdrawn
  | firstFail =>
    simp only [select, hopen, bind, Except.bind, pure, Except.pure]
    exact ⟨_, _, _, rfl, chooses_best _ _⟩
  | antiFirstFail =>
    simp only [select, hopen, bind, Except.bind, pure, Except.pure]
    exact ⟨_, _, _, rfl, chooses_best _ _⟩
  | smallest =>
    simp only [select, hopen, bind, Except.bind, pure, Except.pure]
    exact ⟨_, _, _, rfl, chooses_best _ _⟩
  | largest =>
    simp only [select, hopen, bind, Except.bind, pure, Except.pure]
    exact ⟨_, _, _, rfl, chooses_best _ _⟩

end VariableSelector

/-! ### Sets -/

/-- An open set is chosen, unless there is none. -/
theorem selectSet?_spec (direction : Extremum) {ys : List SetId}
    (hknown : ∀ y ∈ ys, s.knows (.set y) = true) :
    ∃ y?, selectSet? direction ys s = .ok y?
      ∧ (y? = none → ∀ y ∈ ys, (s.set y).isFixed = true)
      ∧ ∀ y, y? = some y → y ∈ ys ∧ (s.set y).isFixed = false := by
  have hrequire : ys.forM (fun y => s.require (.set y)) = .ok () := by
    clear direction
    induction ys with
    | nil => rfl
    | cons y rest ih =>
      show (s.require (.set y) >>= fun _ => rest.forM _) = _
      rw [Filter.require_eq (hknown y List.mem_cons_self)]
      exact ih fun z hz => hknown z (List.mem_cons_of_mem y hz)
  -- the choice is made among those that are open
  have hmem : ∀ y, y ∈ ys.filter (fun y => !(s.set y).isFixed)
      ↔ y ∈ ys ∧ (s.set y).isFixed = false := by
    intro y
    rw [List.mem_filter, Bool.not_eq_true']
  unfold selectSet?
  rw [hrequire]
  obtain ⟨hnone, hsome⟩ := TieBreaker.choose_spec direction
    (fun y => ((s.set y).envelopeSize : Int) - (s.set y).kernelSize)
    (ys.filter fun y => !(s.set y).isFixed)
  refine ⟨_, rfl, fun h y hy => ?_, fun y h => (hmem y).mp (hsome y h)⟩
  have hout := List.filter_eq_nil_iff.mp (hnone h) y hy
  rwa [Bool.not_eq_true', Bool.not_eq_false] at hout

end FiniteDomain
