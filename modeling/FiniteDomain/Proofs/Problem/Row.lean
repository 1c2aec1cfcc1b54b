import FiniteDomain.Problem.Instance
import FiniteDomain.Proofs.Search.Complete
import FiniteDomain.Proofs.Search.Reports

/-! # Rows of variables

    Some problems are about a row of integer variables that have the same domain in
    the beginning (`Store.ofRow`), which are made one after the other
    (`Solver.Represents.newRow`).  A valuation of such a store is the list of the
    values that it gives to the row (`Valuation.row`).

    So the solutions that a search hands out can be told as lists of values, and
    this is how they are written (`ListsRows`). -/

namespace FiniteDomain

/-- A list of computations that all have a value. -/
theorem mapM_eq_ok {α β : Type} {f : α → Except Fault β} {g : α → β} {l : List α}
    (h : ∀ x ∈ l, f x = .ok (g x)) : l.mapM f = .ok (l.map g) := by
  induction l with
  | nil => rfl
  | cons x rest ih =>
    have hrest := ih fun y hy => h y (List.mem_cons_of_mem x hy)
    rw [List.mapM_cons, h x List.mem_cons_self, hrest]
    rfl

/-- The variables of a row. -/
def rowVars (count : Nat) : List IntVar := (List.range count).map fun i => .plain ⟨i⟩

/-- The values that the valuation gives to a row. -/
def Valuation.row (a : Valuation) (count : Nat) : List Int :=
  (List.range count).map fun i => a.int ⟨i⟩

/-- The store with a row of variables that have the domain. -/
def Store.ofRow (d : IntegerDomain) : (count : Nat) → Store
  | 0 => .empty
  | count + 1 => ((ofRow d count).addInt d).2

theorem mem_rowVars {x : IntVar} {count : Nat} :
    x ∈ rowVars count ↔ ∃ i < count, x = .plain ⟨i⟩ := by
  simp only [rowVars, List.mem_map, List.mem_range, eq_comm]

theorem nodup_rowVars (count : Nat) : (rowVars count).Nodup :=
  List.nodup_range.map fun i j h => by
    cases h
    rfl

theorem rowVars_ne_nil {count : Nat} (h : 0 < count) : rowVars count ≠ [] :=
  List.ne_nil_of_mem (mem_rowVars.mpr ⟨0, h, rfl⟩)

theorem exactValue_rowVars (a : Valuation) (count : Nat) :
    (rowVars count).map (·.exactValue a.int) = a.row count := by
  rw [rowVars, List.map_map]
  rfl

@[simp] theorem Valuation.length_row (a : Valuation) (count : Nat) : (a.row count).length = count := by
  rw [row, List.length_map, List.length_range]

/-! ### The store of a row -/

namespace Store

variable {d : IntegerDomain} {count i : Nat} {a b : Valuation} {s : Store}

theorem wf_ofRow (hd : d.Wf) (count : Nat) : (ofRow d count).Wf := by
  induction count with
  | zero => exact wf_empty
  | succ count ih => exact ih.addInt hd

theorem sizes_ofRow (d : IntegerDomain) (count : Nat) :
    (ofRow d count).ints.size = count ∧ (ofRow d count).sets.size = 0
      ∧ (ofRow d count).graphs.size = 0 := by
  induction count with
  | zero => exact ⟨rfl, rfl, rfl⟩
  | succ count ih =>
    obtain ⟨hints, hsets, hgraphs⟩ := ih
    refine ⟨?_, hsets, hgraphs⟩
    simp only [ofRow, addInt, Table.size_push, hints]

theorem knows_ofRow {v : VariableId} :
    (ofRow d count).knows v = true ↔ ∃ i < count, v = .int ⟨i⟩ := by
  obtain ⟨hints, hsets, hgraphs⟩ := sizes_ofRow d count
  cases v with
  | int x =>
    obtain ⟨i⟩ := x
    simp only [knows, hints, decide_eq_true_eq]
    exact ⟨fun hi => ⟨i, hi, rfl⟩, by rintro ⟨j, hj, ⟨⟩⟩; exact hj⟩
  | set y => simp [knows, hsets]
  | graph g => simp [knows, hgraphs]

theorem int_ofRow (hi : i < count) : (ofRow d count).int ⟨i⟩ = d := by
  induction count with
  | zero => exact absurd hi (Nat.not_lt_zero i)
  | succ count ih =>
    have hsize := (sizes_ofRow d count).1
    show ((ofRow d count).ints.push d).getD i default = d
    rcases Nat.lt_succ_iff_lt_or_eq.mp hi with hlt | rfl
    · rw [Table.getD_push_of_lt (hsize.symm ▸ hlt)]
      exact ih hlt
    · rw [getD_push_eq, if_pos hsize.symm]

/-- The values of a row are those of the domain. -/
theorem interior_ofRow (hinside : ∀ v, d.contains v = true → Width.interior.Fits v) :
    (ofRow d count).Interior := by
  intro x hx v hv
  obtain ⟨i, hi, heq⟩ := knows_ofRow.mp hx
  cases heq
  rw [IntVar.base, int_ofRow hi] at hv
  exact hinside v hv

/-- A row of values of the domain is given by a valuation. -/
theorem exists_row (hd : d.Wf) {row : List Int} (hlength : row.length = count)
    (hinside : ∀ v ∈ row, d.contains v = true) :
    ∃ a, (ofRow d count).Admits a ∧ a.row count = row := by
  obtain ⟨b, hb⟩ := (wf_ofRow hd count).exists_admits
  refine ⟨{ b with int := fun x => row[x.index]?.getD (b.int x) }, ⟨fun x => ?_, hb.set, hb.graph⟩,
    List.ext_getElem (by simp [hlength]) fun i hi hi' => ?_⟩
  · obtain ⟨i⟩ := x
    show ((ofRow d count).int ⟨i⟩).contains (row[i]?.getD (b.int ⟨i⟩)) = true
    by_cases hi : i < row.length
    · rw [List.getElem?_eq_getElem hi, int_ofRow (hlength ▸ hi)]
      exact hinside _ (List.getElem_mem hi)
    · rw [List.getElem?_eq_none (Nat.le_of_not_lt hi)]
      exact hb.int ⟨i⟩
  · simp only [Valuation.row, List.getElem_map, List.getElem_range]
    rw [List.getElem?_eq_getElem hi', Option.getD_some]

/-- The values that are given to a row are those of the domain. -/
theorem contains_of_mem_row (ha : (ofRow d count).Admits a) {v : Int} (hv : v ∈ a.row count) :
    d.contains v = true := by
  obtain ⟨i, hi, rfl⟩ := List.mem_map.mp hv
  have hx := ha.int ⟨i⟩
  rwa [int_ofRow (List.mem_range.mp hi)] at hx

/-- A valuation is determined by what it gives to the row. -/
theorem eq_of_row (hd : d.Wf) (ha : (ofRow d count).Admits a) (hb : (ofRow d count).Admits b)
    (hrow : a.row count = b.row count) : a = b := by
  refine ha.ext (wf_ofRow hd count) hb fun v hv => ?_
  obtain ⟨i, hi, rfl⟩ := knows_ofRow.mp hv
  exact List.map_inj_left.mp hrow i (List.mem_range.mpr hi)

end Store

/-! ### Strategies for a row -/

/-- A strategy for the variables of the row suits, whatever is taken first. -/
theorem Strategy.suits_row {d : IntegerDomain} {count : Nat} {s : Store}
    (h : (Store.ofRow d count).Narrower s)
    (hinside : ∀ v, d.contains v = true → Width.interior.Fits v) (selection : VariableSelector)
    (values : ValueSelector) :
    (Strategy.sequence [.variables selection (rowVars count) values] 0).Suits s := by
  have hfits : Strategy.Fits s s (.variables selection (rowVars count) values) := by
    intro x hx
    obtain ⟨i, hi, rfl⟩ := mem_rowVars.mp hx
    have hknown := (h.knows (.int ⟨i⟩)).trans (Store.knows_ofRow.mpr ⟨i, hi, rfl⟩)
    exact ⟨hknown, (Store.interior_ofRow hinside).narrower h ⟨i⟩ hknown⟩
  refine Or.inr (Or.inr ⟨⟨hfits, trivial⟩, fun v hv => ?_⟩)
  obtain ⟨i, hi, rfl⟩ := Store.knows_ofRow.mp ((h.knows v).symm.trans hv)
  exact List.mem_append_left _ (List.mem_map.mpr ⟨.plain ⟨i⟩, mem_rowVars.mpr ⟨i, hi, rfl⟩, rfl⟩)

/-! ### Making a row -/

theorem IntegerDomain.wf_of_fits {lower upper : Int}
    (fits : Width.value.Fits lower ∧ Width.value.Fits upper) (hle : lower ≤ upper) :
    (IntegerDomain.bounded lower upper).Wf := by
  obtain ⟨⟨hlow, -⟩, -, hhigh⟩ := fits
  simp only [Width.value] at hlow hhigh
  exact IntegerDomain.bounded_wf hle (by omega)

namespace Solver

open Program Modelling

variable {k : Concern} {sv : Solver Filter} {lower upper : Int} {made : Nat}

theorem run_newBounded (hroot : sv.root? = none) (hle : lower ≤ upper) (name? : Option String) :
    ∃ names, (newBounded lower upper name? : Modelling Filter IntId).run.run sv
      = .ok (.ok ⟨sv.store.ints.nextKey⟩,
        sv.withVariables (sv.store.addInt (.bounded lower upper)).2 names) := by
  obtain ⟨names, hadd⟩ := run_add (·.addInt (.bounded lower upper)) VariableId.int name? sv
  refine ⟨names, ?_⟩
  rw [newBounded, if_neg (Int.not_lt.mpr hle), run_bind, run_requireRoot hroot]
  exact hadd

/-- Variables are added to a row, of which nothing is demanded. -/
theorem Represents.newRow
    (h : sv.Represents .clashes (.ofRow (.bounded lower upper) made) fun _ => True)
    (fits : Width.value.Fits lower ∧ Width.value.Fits upper) (hle : lower ≤ upper)
    (rowName : String) (count first : Nat) :
    ∃ sv', (Modelling.newRow rowName lower upper count first).run.run sv
        = .ok (.ok ((List.range' made count).map fun i => .plain ⟨i⟩), sv')
      ∧ sv'.Represents .clashes (.ofRow (.bounded lower upper) (made + count)) fun _ => True := by
  induction count generalizing sv made first with
  | zero => exact ⟨sv, rfl, h⟩
  | succ count ih =>
    obtain ⟨names, hnew⟩ := run_newBounded h.resting.root hle (some s!"{rowName}[{first}]")
    have honward := ((kept_onward sv).upholds_newBounded fits _).keeps _ _ _ h.resting.onward hnew
    have hgrow := Store.growAlike_addInt h.wf h.narrower (IntegerDomain.wf_of_fits fits hle)
    have hnext : Represents .clashes (sv.withVariables _ names)
        (.ofRow (.bounded lower upper) (made + 1)) fun _ => True :=
      h.grows Concern.persists_clashes (fun _ _ _ => Iff.rfl) honward.resting rfl rfl hgrow
    obtain ⟨sv', hrest, hafter⟩ := ih hnext (first + 1)
    have hkey : sv.store.ints.nextKey = made :=
      h.narrower.sizes.1.trans (Store.sizes_ofRow _ made).1
    refine ⟨sv', ?_, ?_⟩
    · rw [Modelling.newRow, run_bind, hnew]
      simp only [Except.bind]
      rw [run_bind, hrest, hkey]
      rfl
    · rwa [Nat.add_right_comm, Nat.add_assoc] at hafter

/-- A row of variables is made. -/
theorem represents_newRow (random : Random)
    (fits : Width.value.Fits lower ∧ Width.value.Fits upper) (hle : lower ≤ upper)
    (rowName : String) (count : Nat) :
    ∃ sv, (newRow rowName lower upper count 0).run.run (Solver.empty random : Solver Filter)
        = .ok (.ok (rowVars count), sv)
      ∧ sv.Represents .clashes (.ofRow (.bounded lower upper) count) fun _ => True := by
  have hempty : (Solver.empty random : Solver Filter).Represents .clashes
      (.ofRow (.bounded lower upper) 0) fun _ => True := represents_empty random
  obtain ⟨sv, hrun, hafter⟩ := hempty.newRow fits hle rowName count 0
  rw [← List.range_eq_range'] at hrun
  rw [Nat.zero_add] at hafter
  exact ⟨sv, hrun, hafter⟩

end Solver

/-! ### Lists of rows -/

/-- The values of the row are those of the listed rows, one by one; these are the ones that satisfy
    the condition, without repetition. -/
structure ListsRows (count : Nat) (condition : List Int → Prop) (sols : List Solution)
    (rows : List (List Int)) : Prop where
  /-- Every solution tells its row. -/
  values : List.Forall₂ (fun sol row => (rowVars count).mapM sol.value = .ok row) sols rows
  /-- No row is listed twice. -/
  distinct : rows.Nodup
  /-- The rows are those that satisfy the condition. -/
  mem_rows : ∀ row, row ∈ rows ↔ condition row

/-- A row is written with its values in order. -/
theorem ListsRows.lines {count : Nat} {condition : List Int → Prop} {sols : List Solution}
    {rows : List (List Int)} (h : ListsRows count condition sols rows) {inst : Instance}
    {name : String} (houtputs : inst.outputs = [.values name (rowVars count)]) :
    List.Forall₂ (fun sol row => inst.lines sol = .ok [Output.listing name row]) sols rows := by
  refine h.values.imp fun sol row hvalues => ?_
  rw [Instance.lines, houtputs, List.mapM_cons, List.mapM_nil, Output.text, hvalues]
  rfl

/-- The values of the variables are read one by one. -/
theorem Solution.Reads.row {sol : Solution} {a : Valuation} {count : Nat} (h : sol.Reads a)
    (hknown : ∀ i < count, sol.store.knows (.int ⟨i⟩) = true)
    (hranges : ∀ i < count, (IntVar.plain ⟨i⟩).Ranges Width.value sol.store) :
    (rowVars count).mapM sol.value = .ok (a.row count) := by
  rw [← exactValue_rowVars]
  refine mapM_eq_ok fun x hx => ?_
  obtain ⟨i, hi, rfl⟩ := mem_rowVars.mp hx
  exact h.value _ (hknown i hi) (hranges i hi)

/-- What a search of a row lists are rows. -/
theorem SolutionStream.Lists.rows {d : IntegerDomain} {count : Nat} (hd : d.Wf)
    {sat : Valuation → Prop} {condition : List Int → Prop} {sols : List Solution}
    (h : Lists sols fun a => (Store.ofRow d count).Admits a ∧ sat a)
    (hinside : ∀ row, condition row → row.length = count ∧ ∀ v ∈ row, d.contains v = true)
    (hiff : ∀ a, (Store.ofRow d count).Admits a → (sat a ↔ condition (a.row count)))
    (hvalues : ∀ sol ∈ sols, ∀ a, sol.Reads a →
      (rowVars count).mapM sol.value = .ok (a.row count)) :
    ∃ rows, ListsRows count condition sols rows := by
  obtain ⟨vals, hreads, hnodup, hmem⟩ := h
  refine ⟨vals.map (·.row count), ?_, ?_, fun row => ?_⟩
  · refine List.forall₂_map_right_iff.mpr (List.forall₂_iff_get.mpr
      ⟨hreads.length_eq, fun i hi hi' => ?_⟩)
    exact hvalues _ (List.getElem_mem hi) _ (hreads.get hi hi')
  · refine hnodup.map_on fun a ha b hb hrow => ?_
    exact Store.eq_of_row hd ((hmem a).mp ha).1 ((hmem b).mp hb).1 hrow
  · rw [List.mem_map]
    constructor
    · rintro ⟨a, ha, rfl⟩
      obtain ⟨hadmits, hsat⟩ := (hmem a).mp ha
      exact (hiff a hadmits).mp hsat
    · intro hrow
      obtain ⟨hlength, hcontains⟩ := hinside row hrow
      obtain ⟨a, hadmits, rfl⟩ := Store.exists_row hd hlength hcontains
      exact ⟨a, (hmem a).mpr ⟨hadmits, (hiff a hadmits).mpr hrow⟩, rfl⟩

/-- A solver that stands for the rows that satisfy a condition hands them out. -/
theorem Solver.Represents.toList_rows {sv : Solver Filter} {d : IntegerDomain} {count : Nat}
    {sat : Valuation → Prop} {condition : List Int → Prop}
    (h : sv.Represents .clashes (.ofRow d count) sat) (hd : d.Wf)
    (hinterior : ∀ v, d.contains v = true → Width.interior.Fits v)
    (hinside : ∀ row, condition row → row.length = count ∧ ∀ v ∈ row, d.contains v = true)
    (hiff : ∀ a, (Store.ofRow d count).Admits a → (sat a ↔ condition (a.row count)))
    {b : Strategy} (hb : b.Suits sv.store) :
    ∃ sols rows st', (SolutionStream.ofSearch ⟨sv, b, Limit.indefinite⟩).toList
        = .ok (sols, SolutionStream.lastAnswer (!sols.isEmpty), st')
      ∧ ListsRows count condition sols rows := by
  obtain ⟨sols, st', hlist, hlists⟩ :=
    h.toList_spec (fun _ => Space.conclusive_clashes _) (Store.interior_ofRow hinterior) hb
  obtain ⟨rows, hrows⟩ := hlists.rows hd hinside hiff fun sol hsol a hread => by
    -- what is left of the row in a solution was there in the beginning
    obtain ⟨hevolves, hwf⟩ := (Solver.reports_toList .refl hlist hsol).evolves h.resting
    have hknown : ∀ i < count, sv.store.knows (.int ⟨i⟩) = true := fun i hi =>
      (h.narrower.knows _).trans (Store.knows_ofRow.mpr ⟨i, hi, rfl⟩)
    refine hread.row (fun i hi => hevolves.knows _ (hknown i hi)) fun i hi v hv => ?_
    have hcontains := h.narrower.contains (hevolves.contains hwf (hknown i hi) hv)
    rw [Store.int_ofRow hi] at hcontains
    exact Width.fits_of_interior (hinterior v hcontains)
  exact ⟨sols, rows, st', hlist, hrows⟩

end FiniteDomain
