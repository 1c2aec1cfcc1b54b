import FiniteDomain.Proofs.Branching.Variables
import FiniteDomain.Proofs.Contract.View
import FiniteDomain.Proofs.Filter.Sound
import FiniteDomain.Proofs.Variable.Fixed

/-! # What is treated as decided

    Selectors skip the variables that are fixed, the filters for *all different* and
    *not equal* remove their values from the others, and the filter for membership
    makes their value an element.  All of them ask whether the bounds agree.

    For variables that discern their values this is the right question
    (`Store.decided_contract`): a selector passes over variables with one value left
    only; every value that is gone is the value of a variable with one value left
    at another position, and a refusal comes from two of these with the same value
    (`AllDifferent.Justified`); an element is added only for such a variable.

    A view whose images are all saturated to the same end of the range counts as
    decided although several values are left (`Store.decided_doubled`). -/

namespace FiniteDomain

open Filtering

/-! ### How a program ends -/

namespace Filtering

variable {α β γ : Type} {inv refused : Store → Prop} {s : Store} {p : Filtering α}
  {f : α → Filtering β} {post mid : α → Store → Prop} {post' : β → Store → Prop}

/-- However the program ends on the store, it leaves one with the property; and an answer or a
    refusal is as said. -/
def Ends (inv refused : Store → Prop) (p : Filtering α) (s : Store) (post : α → Store → Prop) :
    Prop :=
  ∀ r t, p.runOn s = .ok (r, t) → inv t ∧ match r with
    | .ok a => post a t
    | .error _ => refused t

theorem ends_pure {a : α} (hs : inv s) (h : post a s) :
    Ends inv refused (pure a : Filtering α) s post := by
  intro r t hrun
  cases hrun
  exact ⟨hs, h⟩

theorem ends_fault {fault : Fault} : Ends inv refused (Filtering.fault fault : Filtering α) s post :=
  nofun

theorem Ends.bind (hp : Ends inv refused p s mid)
    (hf : ∀ a t, inv t → mid a t → Ends inv refused (f a) t post') :
    Ends inv refused (p >>= f) s post' := by
  intro r u hrun
  obtain ⟨first, t, hfirst, hrest⟩ := Program.run_bind_cases hrun
  obtain ⟨ht, hverdict⟩ := hp first t hfirst
  rcases hrest with ⟨reason, rfl, rfl, rfl⟩ | ⟨a, rfl, hrest⟩
  · exact ⟨ht, hverdict⟩
  · exact hf a t ht hverdict r u hrest

theorem Ends.imp (hp : Ends inv refused p s mid) (h : ∀ a t, mid a t → post a t) :
    Ends inv refused p s post := by
  intro r t hrun
  obtain ⟨ht, hverdict⟩ := hp r t hrun
  cases r with
  | ok a => exact ⟨ht, h a t hverdict⟩
  | error reason => exact ⟨ht, hverdict⟩

theorem ends_bind_read {view : Store → α} (h : Ends inv refused (f (view s)) s post') :
    Ends inv refused (read view >>= f) s post' := h

theorem ends_foldlM {l : List γ} {step : β → γ → Filtering β}
    (hf : ∀ b, ∀ c ∈ l, ∀ t, inv t → post' b t → Ends inv refused (step b c) t post')
    (hs : inv s) {b : β} (hb : post' b s) : Ends inv refused (l.foldlM step b) s post' := by
  induction l generalizing b s with
  | nil => exact ends_pure hs hb
  | cons c rest ih =>
    refine (hf b c List.mem_cons_self s hs hb).bind fun b' t ht hb' => ?_
    exact ih (fun b c hc => hf b c (List.mem_cons_of_mem _ hc)) ht hb'

theorem ends_forM {l : List γ} {step : γ → Filtering Unit} (keep : Store → Prop)
    (hf : ∀ c ∈ l, ∀ t, inv t → keep t → Ends inv refused (step c) t fun _ => keep)
    (hs : inv s) (hk : keep s) : Ends inv refused (l.forM step) s fun _ => keep := by
  induction l generalizing s with
  | nil => exact ends_pure hs hk
  | cons c rest ih =>
    refine (hf c List.mem_cons_self s hs hk).bind fun _ t ht hkt => ?_
    exact ih (fun c hc => hf c (List.mem_cons_of_mem _ hc)) ht hkt

theorem ends_narrowOr {narrow : Store → Narrowed} (refusal : Refusal)
    (hinv : inv (narrow s).store)
    (hrefused : (narrow s).changed? = none → refused (narrow s).store) :
    Ends inv refused (narrowOr refusal narrow) s fun _ t => t = (narrow s).store := by
  intro r t hrun
  have hrun' := runOn_narrowOr refusal narrow s
  rw [hrun] at hrun'
  obtain ⟨hr, rfl⟩ := Prod.mk.inj (Except.ok.inj hrun')
  cases hchanged : (narrow s).changed? with
  | none =>
    rw [hchanged] at hr
    subst hr
    exact ⟨hinv, hrefused hchanged⟩
  | some changed =>
    rw [hchanged] at hr
    subst hr
    exact ⟨hinv, rfl⟩

theorem ends_narrowing {narrow : Store → Narrowed} {post : Unit → Store → Prop}
    (hinv : inv (narrow s).store) (hrefused : (narrow s).changed? = none → refused (narrow s).store)
    (hpost : post () (narrow s).store) :
    Ends inv refused (narrowing narrow) s post := by
  refine (ends_narrowOr .emptyDomain hinv hrefused).bind ?_
  rintro changed t ht rfl
  exact ends_pure ht hpost

end Filtering

/-! ### Removing a value through any variable -/

theorem IntegerDomain.Hull.of_keeps {d : IntegerDomain} {keeps : Int → Prop} {v : Int}
    (hv : d.contains v = true) (hk : keeps v) : d.Hull keeps v := by
  unfold Hull
  split
  · exact ⟨hv, hk⟩
  · exact ⟨⟨v, Int.le_refl v, hv, hk⟩, v, Int.le_refl v, hv, hk⟩

namespace IntVar

variable {x : IntVar} {s : Store} {k : Int}

/-- A value stays unless it is one below whose image is removed. -/
theorem contains_removeValue (hs : s.Wf) (hx : x.source.Ranges Width.value s) {z : IntId} {w : Int}
    (hw : (s.int z).contains w = true) (hkept : ¬ (x.base = z ∧ x.image w = k)) :
    ((x.removeValue s k).store.int z).contains w = true := by
  have hanswers : s.Answers x.base (fun v => x.image v ≠ k) (x.removeValue s k) :=
    answers_comparison hs hx .differs k
  by_cases hz : z = x.base
  · subst hz
    by_cases hrefused : (x.removeValue s k).changed? = none
    · rw [hanswers.untouched (hrefused ▸ (Option.some_ne_none true).symm)]
      exact hw
    · exact ((hanswers.hull hrefused).2 w).mpr (.of_keeps hw fun himage => hkept ⟨rfl, himage⟩)
  · rw [hanswers.others.1 z hz]
    exact hw

/-- A removal is refused if it would take the only value that is taken. -/
theorem refused_removeValue (hs : s.Wf) (hx : x.source.Ranges Width.value s)
    (hnone : (x.removeValue s k).changed? = none) :
    (x.removeValue s k).store = s ∧ ∀ l, x.Takes s l → l = k := by
  have hanswers : s.Answers x.base (fun v => x.image v ≠ k) (x.removeValue s k) :=
    answers_comparison hs hx .differs k
  refine ⟨hanswers.untouched (hnone ▸ (Option.some_ne_none true).symm), ?_⟩
  rintro _ ⟨v, hv, rfl⟩
  exact not_not.mp (hanswers.refused.mp hnone v hv)

end IntVar

namespace AllDifferent

variable {vars : List IntVar} {s t u : Store} {i j : Nat} {x y : IntVar}

/-! ### Values of decided variables -/

/-- The value `w` of a variable of the store is taken by a variable with one value left, at another
    position than one through which `w` is seen. -/
def TakenElsewhere (vars : List IntVar) (t : Store) (z : IntId) (w : Int) : Prop :=
  ∃ (i j : Nat) (x y : IntVar), i ≠ j ∧ vars[i]? = some x ∧ vars[j]? = some y ∧ x.size t = 1
    ∧ y.base = z ∧ y.image w = x.lowerBound t

/-- Two variables with one value left have the same one. -/
def Collides (vars : List IntVar) (t : Store) : Prop :=
  ∃ (i j : Nat) (x y : IntVar), i ≠ j ∧ vars[i]? = some x ∧ vars[j]? = some y ∧ x.size t = 1
    ∧ y.size t = 1 ∧ x.lowerBound t = y.lowerBound t

/-- The store has been narrowed, and what is gone is taken elsewhere. -/
structure Removed (vars : List IntVar) (s t : Store) : Prop where
  /-- The store has been narrowed. -/
  steps : s.Steps t
  /-- Every value that is gone is that of a variable with one value left. -/
  taken : ∀ z w, (s.int z).contains w = true → ¬ (t.int z).contains w = true →
    TakenElsewhere vars t z w

/-- What a program that removes the values of decided variables may come to. -/
def Justified (vars : List IntVar) (s : Store) (r : Except Refusal Unit) (t : Store) : Prop :=
  Removed vars s t ∧ ∀ reason, r = .error reason → Collides vars t

theorem TakenElsewhere.steps {z : IntId} {w : Int} (h : TakenElsewhere vars t z w)
    (htu : t.Steps u) (ht : t.Wf) : TakenElsewhere vars u z w := by
  obtain ⟨i, j, x, y, hij, hi, hj, hsize, hbase, himage⟩ := h
  obtain ⟨hsize', hlower⟩ := IntVar.single_narrower (htu.narrower ht) ht hsize
  exact ⟨i, j, x, y, hij, hi, hj, hsize', hbase, himage.trans hlower.symm⟩

theorem removed_refl (s : Store) : Removed vars s s :=
  ⟨.refl s, fun _ _ hin hout => absurd hin hout⟩

/-- The value of a variable with one value left is removed from one at another position. -/
theorem ends_removeValue (hs : s.Wf) (hvars : ∀ x ∈ vars, x.Discerns s) (h : Removed vars s t)
    (hij : i ≠ j) (hi : vars[i]? = some x) (hj : vars[j]? = some y) (hsize : x.size t = 1) :
    Ends (Removed vars s) (Collides vars) (narrowing (y.removeValue · (x.lowerBound t))) t
      fun _ u => t.Steps u := by
  have ht := h.steps.wf hs
  have hst := h.steps.narrower hs
  have hx := (hvars x (List.mem_of_getElem? hi)).narrower hst
  have hy := (hvars y (List.mem_of_getElem? hj)).narrower hst
  have hsteps : t.Steps (y.removeValue t (x.lowerBound t)).store :=
    .of_narrowed (Narrowing.apply_steps ht (.removeValue y (x.lowerBound t)))
  refine ends_narrowing ⟨h.steps.trans hsteps, fun z w hin hout => ?_⟩ (fun hnone => ?_) hsteps
  · by_cases hgone : (t.int z).contains w = true
    · -- it goes in this very step, so it is a value of `y` with this image
      obtain ⟨hsize', hlower⟩ := IntVar.single_narrower (hsteps.narrower ht) ht hsize
      refine ⟨i, j, x, y, hij, hi, hj, hsize', ?_⟩
      rw [hlower]
      by_contra hkept
      exact hout (IntVar.contains_removeValue ht hy.source hgone hkept)
    · exact (h.taken z w hin hgone).steps hsteps ht
  · obtain ⟨hsame, hall⟩ := IntVar.refused_removeValue ht hy.source hnone
    have hfits := (IntVar.fits_bounds ht hx.base).1
    rw [hsame]
    exact ⟨i, j, x, y, hij, hi, hj, hsize, IntVar.size_eq_one_of_takes ht hall,
      (hy.lowerBound_eq ht hfits hall).symm⟩

/-! ### The filters for *all different* -/

/-- The variable at the position has one value left. -/
def SingleAt (vars : List IntVar) (t : Store) (i : Nat) : Prop :=
  ∃ x, vars[i]? = some x ∧ x.size t = 1

theorem SingleAt.steps (h : SingleAt vars t i) (htu : t.Steps u) (ht : t.Wf) :
    SingleAt vars u i := by
  obtain ⟨x, hi, hsize⟩ := h
  exact ⟨x, hi, (IntVar.single_narrower (htu.narrower ht) ht hsize).1⟩

/-- What is pushed has one value left, if what was on the stack has. -/
theorem ends_strike (hs : s.Wf) (hvars : ∀ x ∈ vars, x.Discerns s) (h : Removed vars s t)
    (hi : vars[i]? = some x) (hsize : x.size t = 1) {stack : List Nat}
    (hstack : ∀ j ∈ stack, SingleAt vars t j) :
    Ends (Removed vars s) (Collides vars) (strike vars i (x.lowerBound t) stack) t
      fun stack' u => ∀ j ∈ stack', SingleAt vars u j := by
  have ht := h.steps.wf hs
  -- the variable at the position keeps its value while the others are treated
  suffices hboth : Ends (Removed vars s) (Collides vars) (strike vars i (x.lowerBound t) stack) t
      fun stack' u => t.Steps u ∧ ∀ j ∈ stack', SingleAt vars u j from
    hboth.imp fun _ _ => And.right
  refine ends_foldlM (fun stack' yj hyj u hu hpost => ?_) h ⟨.refl t, hstack⟩
  obtain ⟨y, j⟩ := yj
  obtain ⟨htu, hstack'⟩ := hpost
  have hj : vars[j]? = some y := List.mem_zipIdx_iff_getElem?.mp hyj
  have hu' := hu.steps.wf hs
  obtain ⟨hsizeu, hlower⟩ := IntVar.single_narrower (htu.narrower ht) ht hsize
  by_cases hij : j = i
  · simp only [if_pos hij]
    exact ends_pure hu ⟨htu, hstack'⟩
  simp only [if_neg hij]
  refine ends_bind_read ?_
  rw [← hlower]
  refine (ends_removeValue hs hvars hu (Ne.symm hij) hi hj hsizeu).bind fun _ w hw huw => ?_
  refine ends_bind_read (ends_pure hw ⟨htu.trans huw, fun k hk => ?_⟩)
  by_cases hpush : (!y.isFixed u && y.isFixed w) = true
  · rw [if_pos hpush] at hk
    rcases List.mem_cons.mp hk with rfl | hk
    · have hy := (hvars y (List.mem_of_getElem? hj)).narrower (hw.steps.narrower hs)
      have hfixed := ((Bool.and_eq_true ..).mp hpush).2
      exact ⟨y, hj, (hy.isFixed_iff (hw.steps.wf hs)).mp hfixed⟩
    · exact (hstack' k hk).steps huw hu'
  · rw [if_neg hpush] at hk
    exact (hstack' k hk).steps huw hu'

theorem ends_settle (hs : s.Wf) (hvars : ∀ x ∈ vars, x.Discerns s) (fuel : Nat) {stack : List Nat}
    (h : Removed vars s t) (hstack : ∀ j ∈ stack, SingleAt vars t j) :
    Ends (Removed vars s) (Collides vars) (settle vars fuel stack) t fun _ _ => True := by
  induction fuel generalizing stack t with
  | zero =>
    cases stack with
    | nil => exact ends_pure h trivial
    | cons i rest => exact ends_fault
  | succ fuel ih =>
    cases stack with
    | nil => exact ends_pure h trivial
    | cons i rest =>
      obtain ⟨x, hi, hsize⟩ := hstack i List.mem_cons_self
      rw [settle]
      simp only [hi]
      refine ends_bind_read ?_
      have hrest : ∀ j ∈ rest, SingleAt vars t j := fun j hj => hstack j (List.mem_cons_of_mem i hj)
      exact (ends_strike hs hvars h hi hsize hrest).bind fun stack' u hu hstack' => ih hu hstack'

theorem justified_of_ends {p : Filtering Unit}
    (h : Ends (Removed vars s) (Collides vars) p s fun _ _ => True) {r : Except Refusal Unit}
    (hrun : p.runOn s = .ok (r, t)) : Justified vars s r t := by
  obtain ⟨hremoved, hverdict⟩ := h r t hrun
  refine ⟨hremoved, fun reason hreason => ?_⟩
  subst hreason
  exact hverdict

/-- The filter by assigned values removes values of variables with one value left only. -/
theorem justified_byValue (hs : s.Wf) (hvars : ∀ x ∈ vars, x.Discerns s)
    {r : Except Refusal Unit} (hrun : (byValue vars).runOn s = .ok (r, t)) :
    Justified vars s r t := by
  refine justified_of_ends ?_ hrun
  unfold byValue
  refine ends_bind_read (ends_settle hs hvars _ (removed_refl s) fun i hi => ?_)
  obtain ⟨⟨x, i⟩, hx, rfl⟩ := List.mem_map.mp (List.mem_reverse.mp hi)
  obtain ⟨hmem, hfixed⟩ := List.mem_filter.mp hx
  have hi' : vars[i]? = some x := List.mem_zipIdx_iff_getElem?.mp hmem
  exact ⟨x, hi', ((hvars x (List.mem_of_getElem? hi')).isFixed_iff hs).mp hfixed⟩

/-- So does its run after a variable has been assigned. -/
theorem justified_byValueAt (hs : s.Wf) (hvars : ∀ x ∈ vars, x.Discerns s)
    (hi : SingleAt vars s i) {r : Except Refusal Unit}
    (hrun : (byValueAt vars i).runOn s = .ok (r, t)) : Justified vars s r t := by
  refine justified_of_ends ?_ hrun
  refine ends_settle hs hvars _ (removed_refl s) fun j hj => ?_
  rw [List.mem_singleton.mp hj]
  exact hi

/-- So does the last part of the filter by bounds. -/
theorem justified_removeFixedValues (hs : s.Wf) (hvars : ∀ x ∈ vars, x.Discerns s)
    {r : Except Refusal Unit} (hrun : (removeFixedValues vars).runOn s = .ok (r, t)) :
    Justified vars s r t := by
  refine justified_of_ends ?_ hrun
  refine ends_forM (fun _ => True) (fun xi hxi t h _ => ?_) (removed_refl s) trivial
  obtain ⟨x, i⟩ := xi
  have hi : vars[i]? = some x := List.mem_zipIdx_iff_getElem?.mp hxi
  have ht := h.steps.wf hs
  refine ends_bind_read ?_
  by_cases hfixed : x.isFixed t = true
  · have hx := (hvars x (List.mem_of_getElem? hi)).narrower (h.steps.narrower hs)
    have hsize := (hx.isFixed_iff ht).mp hfixed
    simp only [if_pos hfixed]
    -- the variable keeps its value while the others are treated
    refine ends_bind_read ((ends_forM t.Steps (fun yj hyj u hu htu => ?_) h (.refl t)).imp
      fun _ _ _ => trivial)
    obtain ⟨y, j⟩ := yj
    have hj : vars[j]? = some y := List.mem_zipIdx_iff_getElem?.mp hyj
    by_cases hij : i ≠ j
    · obtain ⟨hsizeu, hlower⟩ := IntVar.single_narrower (htu.narrower ht) ht hsize
      simp only [if_pos hij]
      rw [← hlower]
      exact (ends_removeValue hs hvars hu hij hi hj hsizeu).imp fun _ _ huw => htu.trans huw
    · simp only [if_neg hij]
      exact ends_pure hu htu
  · simp only [if_neg hfixed]
    exact ends_pure h trivial

/-- What is said to hold or to fail rests on variables with one value left. -/
theorem entailment_single (hs : s.Wf) (hvars : ∀ x ∈ vars, x.Discerns s) :
    (entailment vars s = .holds → ∀ x ∈ vars, x.size s = 1)
      ∧ (entailment vars s = .fails → Collides vars s) := by
  unfold entailment
  simp only
  by_cases hrepeated : (fixedValues vars s).eraseDups.length < (fixedValues vars s).length
  · rw [if_pos hrepeated]
    refine ⟨nofun, fun _ => ?_⟩
    by_contra hapart
    -- otherwise the values of the fixed variables would be distinct
    have hdistinct : vars.Pairwise fun x y =>
        x.isFixed s = true → y.isFixed s = true → x.lowerBound s ≠ y.lowerBound s := by
      rw [List.pairwise_iff_getElem]
      intro i j hi hj hij hfixed hfixed' heq
      refine hapart ⟨i, j, vars[i], vars[j], Nat.ne_of_lt hij, List.getElem?_eq_getElem hi,
        List.getElem?_eq_getElem hj, ?_, ?_, heq⟩
      · exact ((hvars _ (List.getElem_mem hi)).isFixed_iff hs).mp hfixed
      · exact ((hvars _ (List.getElem_mem hj)).isFixed_iff hs).mp hfixed'
    have hnodup : (fixedValues vars s).Nodup := by
      unfold fixedValues
      rw [List.nodup_iff_pairwise_ne, List.pairwise_map, List.pairwise_filter]
      exact hdistinct.imp fun h hx hy => h hx hy
    rw [eraseDups_of_nodup hnodup] at hrepeated
    exact Nat.lt_irrefl _ hrepeated
  · rw [if_neg hrepeated]
    by_cases hall : (fixedValues vars s).length = vars.length
    · rw [if_pos hall]
      refine ⟨fun _ x hx => ?_, nofun⟩
      have hfilter := List.length_filter_eq_length_iff.mp ((List.length_map ..).symm.trans hall)
      exact ((hvars x hx).isFixed_iff hs).mp (hfilter x hx)
    · rw [if_neg hall]
      exact ⟨nofun, nofun⟩

end AllDifferent

/-! ### The filter for *not equal* -/

namespace Distinct

open AllDifferent

variable {s t : Store} {a b : IntVar}

/-- The value of one variable is removed from the other only if it is the only one left. -/
theorem justified_filter (hs : s.Wf) (ha : a.Discerns s) (hb : b.Discerns s)
    {r : Except Refusal Unit} (hrun : (filter a b).runOn s = .ok (r, t)) :
    Justified [a, b] s r t := by
  have hvars : ∀ x ∈ [a, b], x.Discerns s := by
    intro x hx
    rcases List.mem_pair.mp hx with rfl | rfl
    · exact ha
    · exact hb
  have hfirst : ([a, b] : List IntVar)[0]? = some a := rfl
  have hsecond : ([a, b] : List IntVar)[1]? = some b := rfl
  -- the second half, on whatever store the first one leaves
  have hback : ∀ u, Removed [a, b] s u → Ends (Removed [a, b] s) (Collides [a, b]) (do
      if ← Filtering.read b.isFixed then
        let value ← Filtering.read b.lowerBound
        Filtering.narrowing (a.removeValue · value)) u fun _ _ => True := by
    intro u hu
    refine ends_bind_read ?_
    by_cases hfixed : b.isFixed u = true
    · have hsize := ((hb.narrower (hu.steps.narrower hs)).isFixed_iff (hu.steps.wf hs)).mp hfixed
      simp only [if_pos hfixed]
      refine ends_bind_read ?_
      exact (ends_removeValue hs hvars hu (by decide) hsecond hfirst hsize).imp
        fun _ _ _ => trivial
    · simp only [if_neg hfixed]
      exact ends_pure hu trivial
  refine justified_of_ends ?_ hrun
  unfold filter
  refine ends_bind_read ?_
  by_cases hfixed : a.isFixed s = true
  · have hsize := (ha.isFixed_iff hs).mp hfixed
    simp only [if_pos hfixed]
    refine ends_bind_read ?_
    exact (ends_removeValue hs hvars (removed_refl s) (by decide) hfirst hsecond hsize).bind
      fun _ u hu _ => hback u hu
  · simp only [if_neg hfixed]
    exact hback s (removed_refl s)

/-- What is said to hold or to fail rests on variables with one value left, or on bounds that are
    apart. -/
theorem entailment_single (hs : s.Wf) (ha : a.Discerns s) (hb : b.Discerns s) :
    (entailment a b s = .holds → a.upperBound s < b.lowerBound s ∨ b.upperBound s < a.lowerBound s
        ∨ a.size s = 1 ∨ b.size s = 1)
      ∧ (entailment a b s = .fails → Collides [a, b] s) := by
  have hsize : ∀ {x : IntVar} {found : Bool}, x.Discerns s → (x.isFixed s && found) = true →
      x.size s = 1 := fun hx h => (hx.isFixed_iff hs).mp ((Bool.and_eq_true ..).mp h).1
  unfold entailment
  by_cases hapart : a.upperBound s < b.lowerBound s ∨ b.upperBound s < a.lowerBound s
  · rw [if_pos hapart]
    exact ⟨fun _ => hapart.imp_right Or.inl, nofun⟩
  rw [if_neg hapart]
  by_cases hboth : (a.isFixed s && b.isFixed s) = true
  · rw [if_pos hboth]
    obtain ⟨hfixed, hfixed'⟩ := (Bool.and_eq_true ..).mp hboth
    refine ⟨nofun, fun _ => ⟨0, 1, a, b, by decide, rfl, rfl, (ha.isFixed_iff hs).mp hfixed,
      (hb.isFixed_iff hs).mp hfixed', ?_⟩⟩
    have heq : a.lowerBound s = a.upperBound s := beq_iff_eq.mp hfixed
    have heq' : b.lowerBound s = b.upperBound s := beq_iff_eq.mp hfixed'
    omega
  rw [if_neg hboth]
  split
  next hmissing => exact ⟨fun _ => Or.inr (Or.inr (Or.inl (hsize ha hmissing))), nofun⟩
  split
  next hmissing => exact ⟨fun _ => Or.inr (Or.inr (Or.inr (hsize hb hmissing))), nofun⟩
  exact ⟨nofun, nofun⟩

end Distinct

/-! ### The filter for membership -/

namespace Member

variable {s t : Store} {x : IntVar} {y : SetId}

/-- A comparison leaves the sets alone. -/
theorem sets_comparison (hs : s.Wf) (hx : x.source.Ranges Width.value s) (c : Comparator) (k : Int) :
    ((c.narrowing x k).apply s).store.sets = s.sets :=
  (IntVar.answers_comparison hs hx c k).others.2.1

/-- A set is changed only if one value of the variable is left. -/
theorem sets_filter (hs : s.Wf) (hx : x.Discerns s) {r : Except Refusal Unit}
    (hrun : (filter x y).runOn s = .ok (r, t)) : t.sets = s.sets ∨ x.size t = 1 := by
  let inv : Store → Prop := fun u => s.Steps u ∧ (u.sets = s.sets ∨ x.size u = 1)
  -- a narrowing of the variable leaves the sets alone
  have hcompare : ∀ u, inv u → ∀ (c : Comparator) k,
      Ends inv (fun _ => True) (narrowing ((c.narrowing x k).apply ·)) u fun _ _ => True := by
    intro u hu c k
    have hwf := hu.1.wf hs
    have hsteps : u.Steps ((c.narrowing x k).apply u).store :=
      .of_narrowed (Narrowing.apply_steps hwf (c.narrowing x k))
    refine ends_narrowing ⟨hu.1.trans hsteps, ?_⟩ (fun _ => trivial) trivial
    refine hu.2.imp (fun hsame => ?_) fun hsize => ?_
    · exact (sets_comparison hwf (hx.narrower (hu.1.narrower hs)).source c k).trans hsame
    · exact (IntVar.single_narrower (hsteps.narrower hwf) hwf hsize).1
  have hends : Ends inv (fun _ => True) (filter x y) s fun _ _ => True := by
    have hinit : inv s := ⟨.refl s, Or.inl rfl⟩
    unfold filter
    refine ends_bind_read ?_
    generalize (x.values s).partition (s.set y).inEnvelope = parts
    obtain ⟨supported, unsupported⟩ := parts
    simp only
    split
    next least greatest _ _ =>
      refine (hcompare s hinit .atLeast least).bind fun _ u hu _ => ?_
      refine (hcompare u hu .atMost greatest).bind fun _ u hu _ => ?_
      refine (ends_forM (fun _ => True) (fun v _ u hu _ => hcompare u hu .differs v) hu trivial).bind
        fun _ u hu _ => ends_bind_read ?_
      by_cases hfixed : x.isFixed u = true
      · have hwf := hu.1.wf hs
        have hsize := ((hx.narrower (hu.1.narrower hs)).isFixed_iff hwf).mp hfixed
        have hsteps : u.Steps (u.includeElement y (x.lowerBound u)).store :=
          .of_narrowed (Narrowing.apply_steps hwf (.includeElement y (x.lowerBound u)))
        simp only [if_pos hfixed]
        refine ends_bind_read (ends_narrowing ⟨hu.1.trans hsteps, Or.inr ?_⟩ (fun _ => trivial) trivial)
        exact (IntVar.single_narrower (hsteps.narrower hwf) hwf hsize).1
      · simp only [if_neg hfixed]
        exact ends_pure hu trivial
    next =>
      intro r t hrun
      cases hrun
      exact ⟨hinit, trivial⟩
  exact (hends r t hrun).1.2

/-- Membership is said to hold only if one value is left. -/
theorem single_of_holds (hs : s.Wf) (hx : x.Discerns s) (h : entailment x y s = .holds) :
    x.size s = 1 := by
  unfold entailment at h
  split at h
  next hcertain => exact (hx.isFixed_iff hs).mp ((Bool.and_eq_true ..).mp hcertain).1
  next => split at h <;> cases h

end Member

/-! ### Everything that asks -/

open AllDifferent

/-- Nothing takes a variable of the list for decided unless one value is left. -/
structure DecidesSingles (vars : List IntVar) (s : Store) : Prop where
  /-- Now and later a variable is fixed exactly if one value is left. -/
  fixed : ∀ x ∈ vars, ∀ t, s.Narrower t → (x.isFixed t = true ↔ x.size t = 1)
  /-- A selector chooses none only if one value of every variable is left, and it chooses a
      variable with several. -/
  selected : (∀ x ∈ vars, s.knows (.int x.base) = true) →
    ∀ (selector : VariableSelector) (r : Random), ∃ x? selector' r',
      selector.select vars s r = .ok (x?, selector', r')
      ∧ (x? = none → ∀ x ∈ vars, x.size s = 1) ∧ ∀ x, x? = some x → x ∈ vars ∧ x.size s ≠ 1
  /-- The filter by assigned values removes the values of such variables only. -/
  byValue : ∀ r t, (byValue vars).runOn s = .ok (r, t) → Justified vars s r t
  /-- So does its run after a variable has been assigned. -/
  byValueAt : ∀ i, SingleAt vars s i → ∀ r t, (byValueAt vars i).runOn s = .ok (r, t) →
    Justified vars s r t
  /-- So does the last part of the filter by bounds, on what the passes have left. -/
  byBounds : ∀ t, s.Narrower t → ∀ r u, (removeFixedValues vars).runOn t = .ok (r, u) →
    Justified vars t r u
  /-- What both say to hold or to fail rests on such variables. -/
  allDifferent : (AllDifferent.entailment vars s = .holds → ∀ x ∈ vars, x.size s = 1)
    ∧ (AllDifferent.entailment vars s = .fails → Collides vars s)
  /-- The filter for two variables removes the value of one with one value left only. -/
  distinct : ∀ a ∈ vars, ∀ b ∈ vars,
    (∀ r t, (Distinct.filter a b).runOn s = .ok (r, t) → Justified [a, b] s r t)
      ∧ (Distinct.entailment a b s = .holds → a.upperBound s < b.lowerBound s
        ∨ b.upperBound s < a.lowerBound s ∨ a.size s = 1 ∨ b.size s = 1)
      ∧ (Distinct.entailment a b s = .fails → Collides [a, b] s)
  /-- Only the value of such a variable becomes an element of a set. -/
  member : ∀ x ∈ vars, ∀ y,
    (∀ r t, (Member.filter x y).runOn s = .ok (r, t) → t.sets = s.sets ∨ x.size t = 1)
      ∧ (Member.entailment x y s = .holds → x.size s = 1)

namespace Store

variable {s : Store}

theorem decidesSingles {vars : List IntVar} (hs : s.Wf) (hvars : ∀ x ∈ vars, x.Discerns s) :
    DecidesSingles vars s where
  fixed := fun x hx t hst => ((hvars x hx).narrower hst).isFixed_iff hst.wf
  selected := by
    intro hknown selector r
    obtain ⟨x?, selector', r', hselect, hchooses⟩ := selector.select_spec hknown r
    refine ⟨x?, selector', r', hselect, fun hnone x hx => ?_, fun x hsome => ?_⟩
    · exact ((hvars x hx).isFixed_iff hs).mp (hchooses.fixed hnone x hx)
    · obtain ⟨hmem, hopen⟩ := hchooses.opened x hsome
      exact ⟨hmem, ((hvars x hmem).isFixed_eq_false_iff hs).mp hopen⟩
  byValue := fun r t => justified_byValue hs hvars
  byValueAt := fun i hi r t => justified_byValueAt hs hvars hi
  byBounds := fun t hst r u =>
    justified_removeFixedValues hst.wf fun x hx => (hvars x hx).narrower hst
  allDifferent := AllDifferent.entailment_single hs hvars
  distinct := fun a ha b hb => ⟨fun r t => Distinct.justified_filter hs (hvars a ha) (hvars b hb),
    Distinct.entailment_single hs (hvars a ha) (hvars b hb)⟩
  member := fun x hx y => ⟨fun r t => Member.sets_filter hs (hvars x hx),
    Member.single_of_holds hs (hvars x hx)⟩

/-- A variable is fixed if one value is left below, or if the images of several are all saturated
    to the same end of the range.  Where this cannot happen, selectors pass over variables with
    one value left only, and the filters for *all different*, *not equal* and membership treat no
    others as decided. -/
theorem decided_contract (hs : s.Reachable) :
    (∀ x : IntVar, x.source.Ranges Width.value s →
      (x.isFixed s = true ↔ x.size s = 1 ∨ x.Merged s))
      ∧ ∀ vars : List IntVar, (∀ x ∈ vars, x.Discerns s) → DecidesSingles vars s :=
  ⟨fun _ hx => IntVar.isFixed_iff hs.traced.wf hx, fun _ => decidesSingles hs.traced.wf⟩

/-- The values 1, 4, 6 and 9 are discerned when multiplied by 300000000, although the last image
    is beyond the range. -/
theorem decided_contract_sieved :
    ∃ x : IntVar, x = .view (.plain ⟨0⟩) ⟨300000000, 0, by decide⟩
      ∧ x.upperBound sieved = maxValue
      ∧ ∀ t, sieved.Narrower t → (x.isFixed t = true ↔ x.size t = 1) := by
  refine ⟨_, rfl, by decide, ?_⟩
  have hbetween : ∀ v, (sieved.int ⟨0⟩).contains v = true → 1 ≤ v ∧ v ≤ 9 := by
    intro v hv
    obtain ⟨hlower, hupper, -⟩ := IntegerDomain.contains_iff.mp hv
    exact ⟨hlower, hupper⟩
  -- the value 8, whose image is beyond the range too, does not belong to the domain
  have hgreatest : ∀ v, (sieved.int ⟨0⟩).contains v = true → maxValue ≤ 300000000 * v + 0 →
      v = 9 := by
    intro v hv hbeyond
    obtain ⟨-, hupper⟩ := hbetween v hv
    change 2147483647 ≤ 300000000 * v + 0 at hbeyond
    have hne : v ≠ 8 := by
      rintro rfl
      exact absurd hv (by decide)
    omega
  have hdiscerns : (IntVar.view (.plain ⟨0⟩) ⟨300000000, 0, by decide⟩).Discerns sieved := by
    constructor
    case source =>
      intro v hv
      obtain ⟨hlower, hupper⟩ := hbetween v hv
      exact ⟨Int.le_trans (by decide) hlower, Int.le_trans hupper (by decide)⟩
    case above =>
      rintro _ _ ⟨v, hv, rfl⟩ ⟨w, hw, rfl⟩ hvmax hwmax
      rw [hgreatest v hv hvmax, hgreatest w hw hwmax]
    case below =>
      rintro _ _ ⟨v, hv, rfl⟩ _ hvmin _
      obtain ⟨hlower, -⟩ := hbetween v hv
      change 300000000 * v + 0 ≤ -2147483648 at hvmin
      omega
  obtain ⟨-, hdecides⟩ := decided_contract sieved_reachable
  exact (hdecides [_] (List.forall_mem_singleton.mpr hdiscerns)).fixed _ List.mem_cons_self

/-- The values 1073741824 and 1073741825. -/
def peaks : Store := (Store.empty.addInt (IntegerDomain.bounded 1073741824 1073741825)).2

/-- Two values are left, and yet the variable is fixed when it is doubled, and a selector passes
    over it. -/
theorem decided_doubled :
    peaks.Reachable ∧ ∃ x : IntVar, x = .view (.plain ⟨0⟩) ⟨2, 0, by decide⟩
      ∧ x.source.Ranges Width.value peaks ∧ x.isFixed peaks = true ∧ x.size peaks = 2
      ∧ ∀ r, VariableSelector.inputOrder.select [x] peaks r = .ok (none, .inputOrder, r) := by
  refine ⟨.addBounded .empty (by decide) (by decide) (by decide), _, rfl, fun v hv => ?_,
    by decide, by decide, fun r => rfl⟩
  obtain ⟨hlower, hupper, -⟩ := IntegerDomain.contains_iff.mp hv
  exact ⟨Int.le_trans (by decide) hlower, Int.le_trans hupper (by decide)⟩

end Store

end FiniteDomain
