import FiniteDomain.Problem.Catalogue
import FiniteDomain.Proofs.Model.Refusal
import FiniteDomain.Proofs.Problem.Row

/-! # Chains and boards

    Two problems of the catalogue are about a row of variables.  The chain demands
    that the values ascend and differ, which only the positions themselves do
    (`Chain.ascends_iff`).  The board demands that columns, and the two kinds of
    diagonals, differ, which says that no two queens attack each other
    (`Queens.placement_iff`).

    Posting demands just this of the solver, at either strength, so what a search
    hands out are the rows that solve the problem, each of them once
    (`Solver.row_model`, `Solver.lists_solutions`). -/

namespace FiniteDomain

open Program Modelling

variable {count : Nat}

/-! ### Constraints on rows -/

theorem mem_targets_watchAll {vars : List IntVar} {events : EventSet} {v : VariableId}
    (hv : v ∈ (Filter.watchAll vars events).map (·.target)) : ∃ x ∈ vars, v = .int x.base := by
  obtain ⟨w, hw, rfl⟩ := List.mem_map.mp hv
  obtain ⟨⟨x, i⟩, hx, rfl⟩ := List.mem_map.mp hw
  exact ⟨x, List.mem_of_getElem? (List.mem_zipIdx_iff_getElem?.mp hx), rfl⟩

/-- The variable exists, and its values stay clear of the ends of the range. -/
structure IntVar.Interior (s : Store) (x : IntVar) : Prop where
  /-- The variable exists. -/
  known : s.knows (.int x.base) = true
  /-- It takes values inside the range only. -/
  ranges : x.Ranges Width.interior s

namespace Constraint

variable {s : Store}

/-- That variables differ can be posted at either strength. -/
theorem fits_allDifferent {vars : List IntVar} (h : ∀ x ∈ vars, x.Interior s) (strength : Strength) :
    (allDifferent vars strength).Fits s := by
  have hready : (strength.filter vars).Ready s := by
    cases strength with
    | instantiation =>
      refine ⟨fun v hv => ?_, fun x hx => (h x hx).ranges, nofun, nofun⟩
      obtain ⟨x, hx, rfl⟩ := mem_targets_watchAll hv
      exact (h x hx).known
    | bounds =>
      refine ⟨fun v hv => ?_, fun x hx => (h x hx).ranges, nofun, nofun⟩
      obtain ⟨x, hx, rfl⟩ := mem_targets_watchAll hv
      exact (h x hx).known
  refine ⟨trivial, nofun, _, rfl, fun _ f hf => ?_⟩
  rw [List.mem_singleton.mp hf]
  exact hready

theorem fits_atMost {x y : IntVar} (hx : x.Interior s) (hy : y.Interior s) : (atMost x y).Fits s := by
  refine ⟨trivial, nofun, _, rfl, fun _ f hf => ?_⟩
  rw [List.mem_singleton.mp hf]
  refine ⟨fun v hv => ?_, fun z hz => ?_, nofun, nofun⟩
  · have hcases : v = .int x.base ∨ v = .int y.base := by
      simpa [Filter.scope, Filter.watches, IntVar.watch] using hv
    rcases hcases with rfl | rfl
    · exact hx.known
    · exact hy.known
  · rcases List.mem_pair.mp hz with rfl | rfl
    · exact hx.ranges
    · exact hy.ranges

/-- A constraint that is accepted demands that it is satisfied. -/
theorem Fits.demands {c : Constraint} (hfits : c.Fits s) (haccepted : c.Accepted s) :
    Solver.Demands .clashes s (c.post (P := Filter)) c.Sat fun _ => True := by
  obtain ⟨fs, hfs, hready⟩ := hfits.ready
  have hdemands := Solver.demands_forM (k := .clashes) fun f hf =>
    Solver.demands_post (fun _ => decisive_of_exact hfits.exact hfs f hf) (hready haccepted f hf)
  intro sv before h
  rw [run_post hfits.exact hfs hfits.graph haccepted h.narrower]
  exact (hdemands.congr (fun a => (sat_iff hfits.exact hfs).symm) fun _ _ => trivial) h

end Constraint

/-! ### Boards -/

/-- The domain of the positions below the count. -/
def IntegerDomain.below (count : Nat) : IntegerDomain := .bounded 0 (count - 1)

theorem IntegerDomain.contains_below {v : Int} :
    (below count).contains v = true ↔ 0 ≤ v ∧ v < count := by
  rw [contains_iff]
  show 0 ≤ v ∧ v ≤ (count : Int) - 1 ∧ _ ↔ _
  constructor
  · rintro ⟨hlow, hhigh, -⟩
    exact ⟨hlow, by omega⟩
  · rintro ⟨hlow, hlt⟩
    exact ⟨hlow, by omega, rfl⟩

/-- There is room for sums and differences of positions. -/
def Roomy (count : Nat) : Prop := 0 < count ∧ count < 2 ^ 30

theorem Roomy.fits (h : Roomy count) :
    Width.value.Fits 0 ∧ Width.value.Fits ((count : Int) - 1) := by
  obtain ⟨hpos, hlt⟩ := h
  simp only [Width.Fits, Width.value]
  omega

theorem Roomy.nonneg (h : Roomy count) : 0 ≤ (count : Int) - 1 := by
  have hpos := h.1
  omega

theorem Roomy.interior (h : Roomy count) {v : Int}
    (hv : (IntegerDomain.below count).contains v = true) : Width.interior.Fits v := by
  obtain ⟨hpos, hlt⟩ := h
  obtain ⟨hlow, hhigh⟩ := IntegerDomain.contains_below.mp hv
  simp only [Width.Fits, Width.interior, Width.value, minValue, maxValue]
  omega

theorem Roomy.interior_rowVars (h : Roomy count) :
    ∀ x ∈ rowVars count, x.Interior (.ofRow (.below count) count) := by
  intro x hx
  obtain ⟨i, hi, rfl⟩ := mem_rowVars.mp hx
  refine ⟨Store.knows_ofRow.mpr ⟨i, hi, rfl⟩, fun v hv => ?_⟩
  rw [IntVar.base, Store.int_ofRow hi] at hv
  exact h.interior hv

/-! ### Chains -/

namespace Chain

/-- Each variable of a row with the next one. -/
theorem zip_rowVars_tail (count : Nat) :
    (rowVars count).zip (rowVars count).tail
      = (List.range (count - 1)).map fun i => (.plain ⟨i⟩, .plain ⟨i + 1⟩) := by
  refine List.ext_getElem ?_ fun i hi hi' => ?_
  · simp [rowVars]
  · simp [rowVars]

/-- Values below the count that ascend and differ are the positions. -/
theorem ascends_iff {a : Valuation} (ha : (Store.ofRow (.below count) count).Admits a) :
    a.row count = (List.range count).map Int.ofNat
      ↔ (∀ i < count - 1, a.int ⟨i⟩ ≤ a.int ⟨i + 1⟩) ∧ (a.row count).Nodup := by
  constructor
  · intro hrow
    have heq : ∀ i < count, a.int ⟨i⟩ = i := fun i hi =>
      List.map_inj_left.mp hrow i (List.mem_range.mpr hi)
    refine ⟨fun i hi => ?_, ?_⟩
    · rw [heq i (by omega), heq (i + 1) (by omega)]
      omega
    · rw [hrow]
      exact List.nodup_range.map fun i j h => Int.ofNat.inj h
  · rintro ⟨hascends, hnodup⟩
    rw [Valuation.row, List.nodup_map_iff_inj_on List.nodup_range] at hnodup
    have hstrict : ∀ i, i + 1 < count → a.int ⟨i⟩ + 1 ≤ a.int ⟨i + 1⟩ := by
      intro i hi
      have hle := hascends i (by omega)
      have hne : a.int ⟨i⟩ ≠ a.int ⟨i + 1⟩ := fun heq => by
        have hsame := hnodup i (List.mem_range.mpr (by omega)) (i + 1) (List.mem_range.mpr hi) heq
        omega
      omega
    have hinside : ∀ i < count, 0 ≤ a.int ⟨i⟩ ∧ a.int ⟨i⟩ < count := fun i hi =>
      IntegerDomain.contains_below.mp (Store.contains_of_mem_row ha
        (List.mem_map.mpr ⟨i, List.mem_range.mpr hi, rfl⟩))
    -- there is room below for the values before, and above for those that follow
    have hleast : ∀ i < count, (i : Int) ≤ a.int ⟨i⟩ := by
      intro i hi
      induction i with
      | zero => exact (hinside 0 hi).1
      | succ i ih =>
        have hstep := hstrict i hi
        have hbefore := ih (by omega)
        omega
    have hgreatest : ∀ k i, i + k + 1 = count → a.int ⟨i⟩ ≤ i := by
      intro k
      induction k with
      | zero =>
        intro i hi
        have hlast := (hinside i (by omega)).2
        omega
      | succ k ih =>
        intro i hi
        have hstep := hstrict i (by omega)
        have hnext := ih (i + 1) (by omega)
        omega
    refine List.map_inj_left.mpr fun i hi => ?_
    have hi' := List.mem_range.mp hi
    exact Int.le_antisymm (hgreatest (count - 1 - i) i (by omega)) (hleast i hi')

end Chain

/-! ### Queens -/

namespace Queens

/-- The variables of a row, each shifted by a multiple of its position. -/
def shiftedVars (slope : Int) (count : Nat) : List IntVar :=
  (List.range count).map fun i => .view (.plain ⟨i⟩) ⟨1, slope * i, Int.one_ne_zero⟩

theorem diagonal_rowVars (slope : Int) (count : Nat) :
    diagonal slope (rowVars count) = .ok (shiftedVars slope count) := by
  have hshifted : ∀ p ∈ (rowVars count).zipIdx,
      p.1.shifted (slope * p.2) = .ok (.view p.1 ⟨1, slope * p.2, Int.one_ne_zero⟩) := by
    intro p hp
    have hmem : p.1 ∈ rowVars count :=
      List.mem_of_getElem? (List.mem_zipIdx_iff_getElem?.mp hp)
    obtain ⟨i, -, hi⟩ := mem_rowVars.mp hmem
    rw [hi]
    rfl
  refine (mapM_eq_ok hshifted).trans (congrArg Except.ok (List.ext_getElem ?_ fun i hi hi' => ?_))
  · simp [rowVars, shiftedVars]
  · simp [rowVars, shiftedVars]

theorem exactValue_shiftedVars (slope : Int) (count : Nat) (a : Valuation) :
    (shiftedVars slope count).map (·.exactValue a.int)
      = (List.range count).map fun (i : Nat) => a.int ⟨i⟩ + slope * i := by
  rw [shiftedVars, List.map_map]
  refine List.map_congr_left fun i _ => ?_
  show 1 * a.int ⟨i⟩ + slope * i = a.int ⟨i⟩ + slope * i
  rw [Int.one_mul]

theorem shiftedVars_ne_nil (slope : Int) (h : 0 < count) : shiftedVars slope count ≠ [] :=
  List.ne_nil_of_mem (List.mem_map.mpr ⟨0, List.mem_range.mpr h, rfl⟩)

theorem nodup_shiftedVars (slope : Int) (count : Nat) : (shiftedVars slope count).Nodup :=
  List.nodup_range.map fun i j h => by
    simp only [IntVar.view.injEq, IntVar.plain.injEq, IntId.mk.injEq] at h
    exact h.1

theorem interior_shiftedVars (h : Roomy count) {slope : Int} (hslope : slope = 1 ∨ slope = -1) :
    ∀ x ∈ shiftedVars slope count, x.Interior (.ofRow (.below count) count) := by
  intro x hx
  obtain ⟨i, hi, rfl⟩ := List.mem_map.mp hx
  have hi' := List.mem_range.mp hi
  refine ⟨Store.knows_ofRow.mpr ⟨i, hi', rfl⟩, fun v hv => ?_⟩
  have hv' : (IntegerDomain.below count).contains v = true := by
    rwa [IntVar.base, IntVar.base, Store.int_ofRow hi'] at hv
  obtain ⟨hlow, hhigh⟩ := IntegerDomain.contains_below.mp hv'
  refine ⟨h.interior hv', ?_⟩
  obtain ⟨-, hlt⟩ := h
  simp only [IntVar.image, AffineMap.image, Width.Fits, Width.interior, Width.value, minValue,
    maxValue]
  rcases hslope with rfl | rfl <;> omega

/-- The columns of queens, one in each row of a square board, such that no queen attacks
    another. -/
structure Placement (size : Nat) (columns : List Int) : Prop where
  /-- There is a queen in each row. -/
  rows : columns.length = size
  /-- The queens are on the board. -/
  inside : ∀ c ∈ columns, 0 ≤ c ∧ c < size
  /-- Two queens share neither a column nor a diagonal. -/
  peaceful : ∀ (i j : Nat) (c c' : Int), columns[i]? = some c → columns[j]? = some c' → i ≠ j →
    c ≠ c' ∧ (c - c').natAbs ≠ ((i : Int) - j).natAbs

/-- The differences that are demanded say that there is no attack. -/
theorem placement_iff {a : Valuation} (ha : (Store.ofRow (.below count) count).Admits a) :
    Placement count (a.row count) ↔ (a.row count).Nodup
      ∧ ((List.range count).map fun (i : Nat) => a.int ⟨i⟩ + 1 * i).Nodup
      ∧ ((List.range count).map fun (i : Nat) => a.int ⟨i⟩ + -1 * i).Nodup := by
  have hget : ∀ {i : Nat} {c : Int}, (a.row count)[i]? = some c ↔ i < count ∧ a.int ⟨i⟩ = c := by
    intro i c
    rw [List.getElem?_eq_some_iff]
    simp [Valuation.row]
  simp only [Valuation.row, List.nodup_map_iff_inj_on List.nodup_range, List.mem_range]
  constructor
  · intro h
    refine ⟨fun i hi j hj heq => ?_, fun i hi j hj heq => ?_, fun i hi j hj heq => ?_⟩
    all_goals
      by_contra hne
      obtain ⟨hcolumn, hdiagonal⟩ := h.peaceful i j _ _ (hget.mpr ⟨hi, rfl⟩) (hget.mpr ⟨hj, rfl⟩) hne
      omega
  · rintro ⟨hcolumns, hascending, hdescending⟩
    refine ⟨a.length_row count, fun c hc => ?_, fun i j c c' hc hc' hne => ?_⟩
    · exact IntegerDomain.contains_below.mp (Store.contains_of_mem_row ha hc)
    · obtain ⟨hi, rfl⟩ := hget.mp hc
      obtain ⟨hj, rfl⟩ := hget.mp hc'
      refine ⟨fun heq => hne (hcolumns i hi j hj heq), fun heq => ?_⟩
      -- queens on a diagonal agree in the difference or in the sum of row and column
      rcases Int.natAbs_eq_natAbs_iff.mp heq with hsame | hopposite
      · exact hne (hdescending i hi j hj (by omega))
      · exact hne (hascending i hi j hj (by omega))

end Queens

namespace Solver

variable {sv : Solver Filter} {domains : Store} {before sat left : Valuation → Prop}

/-- What is posted on a model that may have solutions is refused, and then nothing satisfies it, or
    the solver stands for what satisfies it. -/
theorem Represents.posted {p : Modelling Filter Unit} (h : sv.Represents .clashes domains before)
    (hfeasible : sv.infeasible = false) (hdemands : Demands .clashes domains p sat left)
    (hposting : Posting Solver.Resting p) :
    (∃ sv', p.run.run sv = .ok (.error .infeasibleAddition, sv')
        ∧ ∀ a, domains.Admits a → before a → ¬ sat a)
      ∨ ∃ sv', p.run.run sv = .ok (.ok (), sv')
          ∧ sv'.Represents .clashes domains fun a => before a ∧ sat a := by
  obtain ⟨r, sv', hrun, hafter, -, -⟩ := hdemands h
  cases hposting.adds h.resting hrun with
  | latched known => cases hfeasible.symm.trans known
  | added _ _ => exact Or.inr ⟨sv', hrun, hafter⟩
  | failed _ hinfeasible =>
    exact Or.inl ⟨sv', hrun, fun a ha hbefore hsat =>
      hafter.refuted hinfeasible a ha ⟨hbefore, hsat⟩⟩

/-- That variables differ is posted, which demands just this. -/
theorem posting_allDifferent {vars : List IntVar} (hne : vars ≠ []) (hnodup : vars.Nodup)
    (strength : Strength) :
    Posting Solver.Resting ((Constraint.allDifferent vars strength).post (P := Filter)) := by
  rw [post_allDifferent hne hnodup]
  exact posting_filter kept_resting _

/-- A row of which nothing is demanded has values. -/
theorem Represents.feasible {d : IntegerDomain}
    (h : sv.Represents .clashes (.ofRow d count) fun _ => True) : sv.infeasible = false := by
  obtain ⟨a, ha⟩ := h.wf.exists_admits
  exact Bool.eq_false_iff.mpr fun hinfeasible => h.refuted hinfeasible a ha trivial

end Solver

/-- The searches of the instance list the rows that satisfy the condition, and a solution is written
    as its row. -/
structure Instance.Tells (inst : Instance) (sv : Solver Filter) (name : String) (count : Nat)
    (condition : List Int → Prop) : Prop where
  /-- The strategy of the instance decides all variables. -/
  suits : inst.strategy.Suits sv.store
  /-- So does every other strategy that suits, and with each of them the rows are listed. -/
  lists : ∀ b : Strategy, b.Suits sv.store → ∃ sols rows st',
    (SolutionStream.ofSearch ⟨sv, b, Limit.indefinite⟩).toList
        = .ok (sols, SolutionStream.lastAnswer (!sols.isEmpty), st')
      ∧ ListsRows count condition sols rows
      ∧ List.Forall₂ (fun sol row => inst.lines sol = .ok [Output.listing name row]) sols rows

namespace Solver

variable {sv : Solver Filter}

/-- A model that makes a row and then posts what a condition on rows says: either posting finds that
    no row satisfies it, or these rows are listed. -/
theorem row_model (random : Random) (program : Modelling Filter Instance) (posts : Modelling Filter Unit)
    (inst : Instance) (name : String) {selection : VariableSelector} {sat left : Valuation → Prop}
    {condition : List Int → Prop} (h : Roomy count)
    (hprogram : ∀ mid, (newRow name 0 (count - 1) count 0).run.run (Solver.empty random)
      = .ok (.ok (rowVars count), mid) →
        runOn program (Solver.empty random) = (posts >>= fun _ => pure inst).run.run mid)
    (houtputs : inst.outputs = [.values name (rowVars count)])
    (hstrategy : inst.strategy = .sequence [.variables selection (rowVars count) .min] 0)
    (hdemands : Demands .clashes (.ofRow (.below count) count) posts sat left)
    (hposting : Posting Solver.Resting posts)
    (hinside : ∀ row, condition row → row.length = count ∧ ∀ v ∈ row, 0 ≤ v ∧ v < count)
    (hiff : ∀ a, (Store.ofRow (.below count) count).Admits a →
      (sat a ↔ condition (a.row count))) :
    (∃ sv, runOn program (Solver.empty random) = .ok (.error .infeasibleAddition, sv)
        ∧ ∀ row, ¬ condition row)
      ∨ ∃ sv, runOn program (Solver.empty random) = .ok (.ok inst, sv)
          ∧ inst.Tells sv name count condition := by
  obtain ⟨mid, hrow, hmid⟩ := represents_newRow random h.fits h.nonneg name count
  have hrun {r : Except ModelError Unit} {sv : Solver Filter}
      (hposts : posts.run.run mid = .ok (r, sv)) :
      runOn program (Solver.empty random) = .ok (r.map fun _ => inst, sv) := by
    rw [hprogram mid hrow, run_bind, hposts]
    cases r <;> rfl
  have hd : (IntegerDomain.below count).Wf := IntegerDomain.wf_of_fits h.fits h.nonneg
  -- a row that satisfies the condition can be drawn from the domains
  have hcontains : ∀ row, condition row →
      row.length = count ∧ ∀ v ∈ row, (IntegerDomain.below count).contains v = true :=
    fun row hcondition => ⟨(hinside row hcondition).1, fun v hv =>
      IntegerDomain.contains_below.mpr ((hinside row hcondition).2 v hv)⟩
  rcases hmid.posted hmid.feasible hdemands hposting with
    ⟨sv, hposts, hnone⟩ | ⟨sv, hposts, hafter⟩
  · refine Or.inl ⟨sv, hrun hposts, fun row hcondition => ?_⟩
    obtain ⟨hlength, hall⟩ := hcontains row hcondition
    obtain ⟨a, ha, rfl⟩ := Store.exists_row hd hlength hall
    exact hnone a ha trivial ((hiff a ha).mpr hcondition)
  · refine Or.inr ⟨sv, hrun hposts, ?_, fun b hb => ?_⟩
    · rw [hstrategy]
      exact Strategy.suits_row hafter.narrower (fun v hv => h.interior hv) selection .min
    · obtain ⟨sols, rows, st', hlist, hrows⟩ := hafter.toList_rows hd (fun v hv => h.interior hv)
        hcontains (fun a ha => (and_iff_right trivial).trans (hiff a ha)) hb
      exact ⟨sols, rows, st', hlist, hrows, hrows.lines houtputs⟩

/-! ### The two models -/

/-- Placements are listed by searches of the model of a board, unless posting finds that there is
    none. -/
theorem queens_model (h : Roomy count) (strength : Strength) (random : Random) :
    (∃ sv, runOn (Queens.model count (count - 1) strength) (Solver.empty random : Solver Filter)
          = .ok (.error .infeasibleAddition, sv)
        ∧ ∀ columns, ¬ Queens.Placement count columns)
      ∨ ∃ inst sv, runOn (Queens.model count (count - 1) strength)
            (Solver.empty random : Solver Filter) = .ok (.ok inst, sv)
          ∧ inst.Tells sv "q" count (Queens.Placement count) := by
  -- the rows and the two kinds of diagonals are posted in the same way
  have hposts : ∀ vars : List IntVar, vars ≠ [] → vars.Nodup →
      (∀ x ∈ vars, x.Interior (.ofRow (.below count) count)) →
      Demands .clashes (.ofRow (.below count) count)
          ((Constraint.allDifferent vars strength).post (P := Filter))
          (fun a => (vars.map (·.exactValue a.int)).Nodup) (fun _ => True)
        ∧ Posting Solver.Resting ((Constraint.allDifferent vars strength).post (P := Filter)) :=
    fun vars hne hnodup hinterior =>
      ⟨(Constraint.fits_allDifferent hinterior strength).demands ⟨hne, hnodup⟩,
        posting_allDifferent hne hnodup strength⟩
  obtain ⟨hdemands, hposting⟩ := hposts _ (rowVars_ne_nil h.1) (nodup_rowVars count) h.interior_rowVars
  obtain ⟨hdemands₁, hposting₁⟩ := hposts _ (Queens.shiftedVars_ne_nil 1 h.1)
    (Queens.nodup_shiftedVars 1 count) (Queens.interior_shiftedVars h (Or.inl rfl))
  obtain ⟨hdemands₂, hposting₂⟩ := hposts _ (Queens.shiftedVars_ne_nil (-1) h.1)
    (Queens.nodup_shiftedVars (-1) count) (Queens.interior_shiftedVars h (Or.inr rfl))
  have hinside : ∀ columns, Queens.Placement count columns →
      columns.length = count ∧ ∀ c ∈ columns, 0 ≤ c ∧ c < count :=
    fun columns hplaced => ⟨hplaced.rows, hplaced.inside⟩
  refine (row_model random (Queens.model count (count - 1) strength) (do
      Constraint.post (.allDifferent (rowVars count) strength)
      Constraint.post (.allDifferent (Queens.shiftedVars 1 count) strength)
      Constraint.post (.allDifferent (Queens.shiftedVars (-1) count) strength))
    { outputs := [.values "q" (rowVars count)]
      strategy := .sequence [.variables .firstFail (rowVars count) .min] 0
      objective? := (rowVars count).head? } "q" h (fun mid hrow => ?_) rfl rfl (hdemands.then (hdemands₁.then hdemands₂))
    (hposting.then (hposting₁.then hposting₂)) hinside (fun a ha => ?_)).imp_right ?_
  · rw [runOn, Queens.model, run_bind, hrow]
    simp only [Except.bind, Queens.diagonal_rowVars, bind_assoc]
    rfl
  · rw [Queens.placement_iff ha, exactValue_rowVars, Queens.exactValue_shiftedVars,
      Queens.exactValue_shiftedVars]
  · rintro ⟨sv, hrun, htells⟩
    exact ⟨_, sv, hrun, htells⟩

/-- That no value of a row exceeds the next one is posted step by step. -/
theorem demands_ascending (h : Roomy count) :
    Demands .clashes (.ofRow (.below count) count)
      (((rowVars count).zip (rowVars count).tail).forM fun (x, y) =>
        (Constraint.atMost x y).post (P := Filter))
      (fun a => ∀ i < count - 1, a.int ⟨i⟩ ≤ a.int ⟨i + 1⟩) fun _ => True := by
  have hstep : ∀ p ∈ (rowVars count).zip (rowVars count).tail,
      Demands .clashes (.ofRow (.below count) count)
        ((Constraint.atMost p.1 p.2).post (P := Filter))
        (fun a => p.1.exactValue a.int ≤ p.2.exactValue a.int) fun _ => True := by
    rintro ⟨x, y⟩ hp
    obtain ⟨hx, hy⟩ := List.of_mem_zip hp
    have hfits := Constraint.fits_atMost (h.interior_rowVars x hx)
      (h.interior_rowVars y (List.mem_of_mem_tail hy))
    exact hfits.demands trivial
  refine (demands_forM hstep).congr (fun a => ?_) fun _ _ => trivial
  rw [Chain.zip_rowVars_tail, List.forall_mem_map]
  exact forall_congr' fun i => imp_congr List.mem_range Iff.rfl

/-- The values in ascending order are listed by searches of the model of a chain. -/
theorem chain_model (h : Roomy count) (strength : Strength) (random : Random) :
    ∃ inst sv, runOn (Chain.model count (count - 1) strength) (Solver.empty random : Solver Filter)
        = .ok (.ok inst, sv)
      ∧ inst.Tells sv "v" count fun row => row = (List.range count).map Int.ofNat := by
  have hdemands := (demands_ascending h).then
    ((Constraint.fits_allDifferent h.interior_rowVars strength).demands
      ⟨rowVars_ne_nil h.1, nodup_rowVars count⟩)
  have hposting : Posting Solver.Resting
      ((((rowVars count).zip (rowVars count).tail).forM fun (x, y) =>
        (Constraint.atMost x y).post (P := Filter)) >>= fun _ =>
          (Constraint.allDifferent (rowVars count) strength).post) :=
    .forM_then (fun p _ => posting_filter kept_resting _)
      (posting_allDifferent (rowVars_ne_nil h.1) (nodup_rowVars count) strength)
  have hinside : ∀ row, row = (List.range count).map Int.ofNat →
      row.length = count ∧ ∀ v ∈ row, 0 ≤ v ∧ v < count := by
    rintro row rfl
    refine ⟨by simp, fun v hv => ?_⟩
    obtain ⟨i, hi, rfl⟩ := List.mem_map.mp hv
    have hi' := List.mem_range.mp hi
    simp only [Int.ofNat_eq_natCast]
    omega
  have hiff : ∀ a, (Store.ofRow (.below count) count).Admits a →
      ((∀ i < count - 1, a.int ⟨i⟩ ≤ a.int ⟨i + 1⟩)
          ∧ (Constraint.allDifferent (rowVars count) strength).Sat a
        ↔ a.row count = (List.range count).map Int.ofNat) := by
    intro a ha
    rw [Chain.ascends_iff ha, Constraint.Sat, exactValue_rowVars]
  have hmodel := row_model random (Chain.model count (count - 1) strength) (do
      ((rowVars count).zip (rowVars count).tail).forM fun (x, y) => Constraint.post (.atMost x y)
      Constraint.post (.allDifferent (rowVars count) strength))
    { outputs := [.values "v" (rowVars count)]
      strategy := .sequence [.variables .inputOrder (rowVars count) .min] 0
      objective? := (rowVars count).getLast? } "v" h
    (fun mid hrow => by
      rw [runOn, Chain.model, run_bind, hrow]
      simp only [Except.bind, bind_assoc])
    rfl rfl hdemands hposting hinside hiff
  -- the list of all values is a solution, so posting cannot have found that there is none
  rcases hmodel with ⟨sv, -, hnone⟩ | ⟨sv, hrun, htells⟩
  · exact absurd rfl (hnone _)
  · exact ⟨_, sv, hrun, htells⟩

/-! ### Sizes -/

theorem greatestValue_of_roomy (h : Roomy count) :
    Problem.greatestValue count = .ok ((count : Int) - 1) := by
  obtain ⟨hpos, hlt⟩ := h
  have hmod : Int.bmod count (1 <<< 32) = count :=
    Int.bmod_eq_of_le (by rw [Nat.one_shiftLeft]; omega) (by rw [Nat.one_shiftLeft]; omega)
  rw [Problem.greatestValue, hmod]
  refine Width.checked_of_fits ?_
  simp only [Width.Fits, Width.value]
  omega

/-- The problems of the catalogue that are about rows are solved exactly, whatever the size from 1 up
    to 2^30, whatever the strength and with every strategy that suits.  The model of a chain is
    built, and its only solution is the row of the values in ascending order.  Either the
    model of a board is refused when it is posted, and then there is no placement, or its
    solutions are the placements, each of them once. -/
theorem lists_solutions (h : Roomy count) (strength : Strength) (random : Random) :
    (∃ inst sv, runOn (Problem.chain.model count strength) (Solver.empty random : Solver Filter)
          = .ok (.ok inst, sv)
        ∧ inst.strategy.Suits sv.store
        ∧ ∀ b : Strategy, b.Suits sv.store → ∃ sol st',
            (SolutionStream.ofSearch ⟨sv, b, Limit.indefinite⟩).toList = .ok ([sol], .finished, st')
            ∧ (rowVars count).mapM sol.value = .ok ((List.range count).map Int.ofNat)
            ∧ inst.lines sol = .ok [Output.listing "v" ((List.range count).map Int.ofNat)])
      ∧ ((∃ sv, runOn (Problem.queens.model count strength) (Solver.empty random : Solver Filter)
            = .ok (.error .infeasibleAddition, sv)
          ∧ ∀ columns, ¬ Queens.Placement count columns)
        ∨ ∃ inst sv, runOn (Problem.queens.model count strength)
              (Solver.empty random : Solver Filter) = .ok (.ok inst, sv)
            ∧ inst.Tells sv "q" count (Queens.Placement count)) := by
  have hchecked {program : Int → Modelling Filter Instance} :
      runOn (Modelling.checked (Problem.greatestValue count) >>= program)
          (Solver.empty random : Solver Filter)
        = runOn (program (count - 1)) (Solver.empty random) := by
    rw [greatestValue_of_roomy h]
    rfl
  refine ⟨?_, ?_⟩
  · obtain ⟨inst, sv, hrun, htells⟩ := chain_model h strength random
    refine ⟨inst, sv, hchecked.trans hrun, htells.suits, fun b hb => ?_⟩
    obtain ⟨sols, rows, st', hlist, hrows, hlines⟩ := htells.lists b hb
    -- the rows are ascending, and there is just one such row
    obtain rfl : rows = [(List.range count).map Int.ofNat] := by
      refine List.perm_singleton.mp ((List.perm_ext_iff_of_nodup hrows.distinct
        (List.nodup_singleton _)).mpr fun row => ?_)
      rw [hrows.mem_rows, List.mem_singleton]
    obtain ⟨sol, _, hvalues, hnone, rfl⟩ := List.forall₂_cons_right_iff.mp hrows.values
    obtain rfl := List.forall₂_nil_right_iff.mp hnone
    obtain ⟨hline, -⟩ := List.forall₂_cons.mp hlines
    exact ⟨sol, st', hlist, hvalues, hline⟩
  · rw [Problem.model, hchecked]
    exact queens_model h strength random

/-- Four queens that do not attack each other. -/
theorem placement_four : Queens.Placement 4 [1, 3, 0, 2] where
  rows := rfl
  inside := by decide
  peaceful := by
    have hall : ∀ i j : Fin 4, i ≠ j → ([1, 3, 0, 2] : List Int)[i] ≠ [1, 3, 0, 2][j]
        ∧ (([1, 3, 0, 2] : List Int)[i] - [1, 3, 0, 2][j]).natAbs
          ≠ ((i.val : Int) - j.val).natAbs := by
      decide
    intro i j c c' hc hc' hne
    obtain ⟨hi, rfl⟩ := List.getElem?_eq_some_iff.mp hc
    obtain ⟨hj, rfl⟩ := List.getElem?_eq_some_iff.mp hc'
    exact hall ⟨i, hi⟩ ⟨j, hj⟩ fun heq => hne (congrArg Fin.val heq)

/-- The model of the board with four rows is built, and its own strategy finds the placement. -/
theorem lists_solutions_four :
    ∃ inst sv, runOn (Problem.queens.model 4 .bounds) (Solver.empty (.ofSeed 0) : Solver Filter)
        = .ok (.ok inst, sv)
      ∧ ∃ sols boards st',
          (SolutionStream.ofSearch ⟨sv, inst.strategy, Limit.indefinite⟩).toList
            = .ok (sols, SolutionStream.lastAnswer (!sols.isEmpty), st')
          ∧ ListsRows 4 (Queens.Placement 4) sols boards ∧ [1, 3, 0, 2] ∈ boards := by
  have hroomy : Roomy 4 := ⟨by decide, by decide⟩
  rcases (lists_solutions hroomy .bounds (.ofSeed 0)).2 with ⟨-, -, hnone⟩ | ⟨inst, sv, hrun, htells⟩
  · exact absurd placement_four (hnone _)
  · obtain ⟨sols, boards, st', hlist, hboards, -⟩ := htells.lists _ htells.suits
    exact ⟨inst, sv, hrun, sols, boards, st', hlist, hboards,
      (hboards.mem_rows _).mpr placement_four⟩

end Solver

end FiniteDomain
