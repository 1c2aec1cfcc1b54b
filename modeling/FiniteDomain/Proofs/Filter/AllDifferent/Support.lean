import FiniteDomain.Proofs.Filter.Sound
import FiniteDomain.Proofs.Filter.Termination
import Mathlib

/-! # All different by bounds is bounds consistent

    After a run by bounds that succeeds, each bound of each variable is *supported*:
    all variables can take pairwise different numbers between their bounds such
    that this one takes this bound (`bounds_consistent`).

    The last pass has changed nothing, so what it demands it demands of the store
    that it leaves: no interval is crowded, and no bound of a variable lies in a
    full interval that the variable can leave (`Firm`).  Where no interval is
    crowded, Hall's theorem gives different numbers (`exists_distinct`).  To ask a
    variable to take one of its bounds is to replace its interval by this number,
    and that crowds no interval since full ones are clear of it (`Roomy.fix`).

    Removing assigned values afterwards moves no bound: the values that it looks
    for are those of full intervals (`sound_removeFixedValues_firm`). -/

namespace FiniteDomain.AllDifferent

open Filtering Program

/-! ### Different numbers from intervals -/

section

variable {ι : Type} [Fintype ι] [DecidableEq ι] {lower upper : ι → Int} {low high v : Int} {i : ι}

/-- The members whose interval lies within the given one. -/
def enclosed (lower upper : ι → Int) (low high : Int) : Finset ι :=
  Finset.univ.filter fun i => low ≤ lower i ∧ upper i ≤ high

omit [DecidableEq ι] in
theorem mem_enclosed : i ∈ enclosed lower upper low high ↔ low ≤ lower i ∧ upper i ≤ high := by
  rw [enclosed, Finset.mem_filter, and_iff_right (Finset.mem_univ i)]

/-- No interval is crowded. -/
def Roomy (lower upper : ι → Int) : Prop :=
  ∀ low high, low ≤ high → ((enclosed lower upper low high).card : Int) ≤ high - low + 1

/-- The numbers from which the members choose. -/
def choices (lower upper : ι → Int) (J : Finset ι) : Finset Int :=
  J.biUnion fun i => interval (lower i) (upper i)

omit [Fintype ι] [DecidableEq ι] in
theorem mem_choices {J : Finset ι} :
    v ∈ choices lower upper J ↔ ∃ i ∈ J, lower i ≤ v ∧ v ≤ upper i := by
  simp only [choices, Finset.mem_biUnion, mem_interval]

omit [Fintype ι] [DecidableEq ι] in
/-- On the two sides of a gap there are fewer members each, and they choose from different numbers. -/
theorem card_le_of_gap {J : Finset ι} {g : Int} {j : ι} (hle : ∀ i, lower i ≤ upper i)
    (ih : ∀ A, A ⊂ J → A.card ≤ (choices lower upper A).card)
    (hg : g ∉ choices lower upper J) (hi : i ∈ J) (hbelow : upper i < g) (hj : j ∈ J)
    (habove : g < lower j) : J.card ≤ (choices lower upper J).card := by
  -- nobody can choose the number in the gap
  have hside : ∀ k ∈ J, ¬ upper k < g → g < lower k := by
    intro k hk hnot
    by_contra hlower
    exact hg (mem_choices.mpr ⟨k, hk, by omega, by omega⟩)
  let A := J.filter fun k => upper k < g
  let B := J.filter fun k => ¬ upper k < g
  have hA : A ⊂ J := by
    refine Finset.filter_ssubset.mpr ⟨j, hj, ?_⟩
    have := hle j
    omega
  have hB : B ⊂ J := Finset.filter_ssubset.mpr ⟨i, hi, not_not.mpr hbelow⟩
  have hsplit : A.card + B.card = J.card := Finset.card_filter_add_card_filter_not _
  have hdisjoint : Disjoint (choices lower upper A) (choices lower upper B) := by
    refine Finset.disjoint_left.mpr fun w hwA hwB => ?_
    obtain ⟨k, hk, -, hupper⟩ := mem_choices.mp hwA
    obtain ⟨m, hm, hlower, -⟩ := mem_choices.mp hwB
    have hk' := (Finset.mem_filter.mp hk).2
    have hm' := hside m (Finset.mem_filter.mp hm).1 (Finset.mem_filter.mp hm).2
    omega
  have hsub : choices lower upper A ∪ choices lower upper B ⊆ choices lower upper J := by
    refine Finset.union_subset ?_ ?_
    · exact Finset.biUnion_subset_biUnion_of_subset_left _ hA.subset
    · exact Finset.biUnion_subset_biUnion_of_subset_left _ hB.subset
  calc J.card = A.card + B.card := hsplit.symm
    _ ≤ (choices lower upper A).card + (choices lower upper B).card :=
      Nat.add_le_add (ih A hA) (ih B hB)
    _ = (choices lower upper A ∪ choices lower upper B).card :=
      (Finset.card_union_of_disjoint hdisjoint).symm
    _ ≤ (choices lower upper J).card := Finset.card_le_card hsub

omit [DecidableEq ι] in
/-- Without a gap the members choose from an interval, in which all of them lie. -/
theorem Roomy.card_le_of_no_gap (hroom : Roomy lower upper) (hle : ∀ i, lower i ≤ upper i)
    {J : Finset ι}
    (hgap : ∀ g, g ∉ choices lower upper J → ∀ i ∈ J, upper i < g → ∀ j ∈ J, ¬ g < lower j) :
    J.card ≤ (choices lower upper J).card := by
  rcases J.eq_empty_or_nonempty with rfl | hne
  · exact Nat.zero_le _
  -- the interval runs from the least lower end to the greatest upper end
  obtain ⟨i, hi, hleast⟩ := J.exists_min_image lower hne
  obtain ⟨j, hj, hgreatest⟩ := J.exists_max_image upper hne
  have hwhole : interval (lower i) (upper j) ⊆ choices lower upper J := by
    intro g hg
    by_contra hout
    obtain ⟨hlow, hhigh⟩ := mem_interval.mp hg
    have hi' : ¬ (lower i ≤ g ∧ g ≤ upper i) := fun h => hout (mem_choices.mpr ⟨i, hi, h⟩)
    have hj' : ¬ (lower j ≤ g ∧ g ≤ upper j) := fun h => hout (mem_choices.mpr ⟨j, hj, h⟩)
    exact hgap g hout i hi (by omega) j hj (by omega)
  have hin : J ⊆ enclosed lower upper (lower i) (upper j) := fun k hk =>
    mem_enclosed.mpr ⟨hleast k hk, hgreatest k hk⟩
  have horder : lower i ≤ upper j := Int.le_trans (hle i) (hgreatest i hi)
  have hcount := Finset.card_le_card hin
  have hfew := hroom _ _ horder
  have hmany := Finset.card_le_card hwhole
  rw [card_interval] at hmany
  omega

omit [DecidableEq ι] in
/-- There are enough numbers for everybody. -/
theorem Roomy.card_le (hroom : Roomy lower upper) (hle : ∀ i, lower i ≤ upper i) (J : Finset ι) :
    J.card ≤ (choices lower upper J).card := by
  induction J using Finset.strongInduction with
  | H J ih =>
    by_cases hgap : ∀ g, g ∉ choices lower upper J → ∀ i ∈ J, upper i < g → ∀ j ∈ J, ¬ g < lower j
    · exact hroom.card_le_of_no_gap hle hgap
    · push Not at hgap
      obtain ⟨g, hg, i, hi, hbelow, j, hj, habove⟩ := hgap
      exact card_le_of_gap hle ih hg hi hbelow hj habove

omit [DecidableEq ι] in
/-- Where no interval is crowded different numbers can be chosen. -/
theorem exists_distinct (hroom : Roomy lower upper) (hle : ∀ i, lower i ≤ upper i) :
    ∃ value : ι → Int, Function.Injective value ∧ ∀ i, lower i ≤ value i ∧ value i ≤ upper i := by
  obtain ⟨value, hinjective, hmem⟩ :=
    (Finset.all_card_le_biUnion_card_iff_exists_injective fun i => interval (lower i) (upper i)).mp
      (hroom.card_le hle)
  exact ⟨value, hinjective, fun i => mem_interval.mp (hmem i)⟩

/-- A member may be held to a number if the intervals around the number that it can leave have
    room left. -/
theorem Roomy.fix (hroom : Roomy lower upper)
    (hfree : ∀ low high, low ≤ v → v ≤ high → ¬ (low ≤ lower i ∧ upper i ≤ high) →
      ((enclosed lower upper low high).card : Int) < high - low + 1) :
    Roomy (Function.update lower i v) (Function.update upper i v) := by
  intro low high hle
  -- nobody but this member changes sides
  have hothers : ∀ k, k ≠ i → (k ∈ enclosed (Function.update lower i v) (Function.update upper i v)
      low high ↔ k ∈ enclosed lower upper low high) := by
    intro k hk
    rw [mem_enclosed, mem_enclosed, Function.update_of_ne hk, Function.update_of_ne hk]
  have hself : i ∈ enclosed (Function.update lower i v) (Function.update upper i v) low high
      ↔ low ≤ v ∧ v ≤ high := by
    rw [mem_enclosed, Function.update_self, Function.update_self]
  by_cases hnew : (low ≤ v ∧ v ≤ high) ∧ ¬ (low ≤ lower i ∧ upper i ≤ high)
  · have hsub : enclosed (Function.update lower i v) (Function.update upper i v) low high
        ⊆ insert i (enclosed lower upper low high) := by
      intro k hk
      by_cases heq : k = i
      · exact Finset.mem_insert.mpr (Or.inl heq)
      · exact Finset.mem_insert_of_mem ((hothers k heq).mp hk)
    have hcount := Nat.le_trans (Finset.card_le_card hsub) (Finset.card_insert_le _ _)
    have hroomy := hfree low high hnew.1.1 hnew.1.2 hnew.2
    omega
  · have hsub : enclosed (Function.update lower i v) (Function.update upper i v) low high
        ⊆ enclosed lower upper low high := by
      intro k hk
      by_cases heq : k = i
      · subst heq
        exact mem_enclosed.mpr (not_not.mp fun hout => hnew ⟨hself.mp hk, hout⟩)
      · exact (hothers k heq).mp hk
    have hcount := Finset.card_le_card hsub
    have hroomy := hroom low high hle
    omega

end

/-! ### Firm stores -/

variable {vars : List IntVar} {s t u : Store} {sat : Valuation → Prop}

/-- No interval is crowded, and no bound lies in a full interval that its variable can leave. -/
structure Firm (vars : List IntVar) (s : Store) : Prop where
  room : ∀ low high, low ≤ high → (crowd vars s low high : Int) ≤ high - low + 1
  clear : ∀ low high, low ≤ high → (crowd vars s low high : Int) = high - low + 1 →
    ∀ x ∈ vars, ¬ Inside s low high x → ¬ (low ≤ x.lowerBound s ∧ x.lowerBound s ≤ high)
      ∧ ¬ (low ≤ x.upperBound s ∧ x.upperBound s ≤ high)

/-- A variable takes both of its bounds, so neither of them lies where no value does. -/
theorem Firm.of_uncrowded (hs : s.Wf) (hx : ∀ x ∈ vars, x.Ranges Width.value s)
    (h : ∀ a, s.Admits a → ∀ low high, low ≤ high → Uncrowded s vars low high a) :
    Firm vars s := by
  obtain ⟨rest, hrest⟩ := hs.exists_admits
  -- a valuation that gives a variable a number that it takes
  have htakes : ∀ {x : IntVar} {k : Int}, x.Takes s k → ∃ a, s.Admits a ∧ x.exactValue a.int = k := by
    intro x k hk
    obtain ⟨v, hv, rfl⟩ := hk
    refine ⟨rest.withInt x.base v, hrest.withInt hv, ?_⟩
    rw [IntVar.exactValue_eq, Valuation.int_withInt_self]
  refine ⟨fun low high hle => (h rest hrest low high hle).room, ?_⟩
  intro low high hle hfull x hmem hout
  constructor
  · intro ⟨hlow, hhigh⟩
    obtain ⟨a, ha, heq⟩ := htakes (IntVar.takes_lowerBound hs (hx x hmem))
    have hbeyond := (h a ha low high hle).lower hfull x hmem hout hlow hhigh
    omega
  · intro ⟨hlow, hhigh⟩
    obtain ⟨a, ha, heq⟩ := htakes (IntVar.takes_upperBound hs (hx x hmem))
    have hbeyond := (h a ha low high hle).upper hfull x hmem hout hlow hhigh
    omega

/-- Only the bounds matter. -/
theorem Firm.of_bounds (h : Firm vars s)
    (hsame : ∀ x ∈ vars, x.lowerBound t = x.lowerBound s ∧ x.upperBound t = x.upperBound s) :
    Firm vars t := by
  have hbounds : boundsOf vars t = boundsOf vars s :=
    List.map_congr_left fun x hmem => Prod.ext (hsame x hmem).1 (hsame x hmem).2
  have hcrowd : ∀ low high, crowd vars t low high = crowd vars s low high := by
    intro low high
    unfold crowd
    rw [hbounds]
  refine ⟨fun low high hle => hcrowd low high ▸ h.room low high hle, ?_⟩
  intro low high hle hfull x hmem hout
  obtain ⟨hlower, hupper⟩ := hsame x hmem
  rw [hcrowd] at hfull
  rw [Inside, hlower, hupper] at hout
  rw [hlower, hupper]
  exact h.clear low high hle hfull x hmem hout

/-- The crowd of an interval as a set of positions. -/
theorem crowd_eq_card (vars : List IntVar) (s : Store) (low high : Int) :
    crowd vars s low high = (enclosed (fun i : Fin vars.length => vars[i].lowerBound s)
      (fun i => vars[i].upperBound s) low high).card := by
  let inside : Fin vars.length → Bool := fun i =>
    encloses low high (vars[i].lowerBound s, vars[i].upperBound s)
  have hset : ((List.finRange vars.length).filter inside).toFinset
      = enclosed (fun i : Fin vars.length => vars[i].lowerBound s)
        (fun i => vars[i].upperBound s) low high := by
    ext i
    rw [List.mem_toFinset, List.mem_filter, and_iff_right (List.mem_finRange i), mem_enclosed]
    exact inside_iff
  have hcount : crowd vars s low high = (List.finRange vars.length).countP inside := by
    have hget : (List.finRange vars.length).map (vars[·]) = vars := List.map_getElem_finRange vars
    show (vars.map fun x => (x.lowerBound s, x.upperBound s)).countP (encloses low high) = _
    conv_lhs => rw [← hget]
    rw [List.map_map, List.countP_map]
    rfl
  have hnodup := (List.nodup_finRange vars.length).filter inside
  rw [hcount, List.countP_eq_length_filter, ← hset, List.toFinset_card_of_nodup hnodup]

/-- In a firm store each bound of each variable has different numbers that go with it. -/
theorem Firm.supports (h : Firm vars s) (hs : s.Wf) (i : Fin vars.length) {v : Int}
    (hv : v = vars[i].lowerBound s ∨ v = vars[i].upperBound s) :
    ∃ value : Fin vars.length → Int, Function.Injective value
      ∧ (∀ j, vars[j].lowerBound s ≤ value j ∧ value j ≤ vars[j].upperBound s) ∧ value i = v := by
  have horder : ∀ j : Fin vars.length, vars[j].lowerBound s ≤ vars[j].upperBound s := fun j =>
    IntVar.lowerBound_le_upperBound hs vars[j]
  have hroom : Roomy (fun j : Fin vars.length => vars[j].lowerBound s)
      (fun j => vars[j].upperBound s) := by
    intro low high hle
    rw [← crowd_eq_card]
    exact h.room low high hle
  have hfixed := hroom.fix (i := i) (v := v) fun low high hlow hhigh hout => by
    rw [← crowd_eq_card]
    -- a full interval around the number would hold a bound of a variable that can leave it
    have hle : low ≤ high := Int.le_trans hlow hhigh
    have hne : (crowd vars s low high : Int) ≠ high - low + 1 := by
      intro hfull
      have hclear := h.clear low high hle hfull vars[i] (List.getElem_mem i.2)
        fun hin => hout (inside_iff.mp hin)
      rcases hv with rfl | rfl
      · exact hclear.1 ⟨hlow, hhigh⟩
      · exact hclear.2 ⟨hlow, hhigh⟩
    have hroomy := h.room low high hle
    omega
  obtain ⟨value, hinjective, hvalue⟩ := exists_distinct hfixed fun j => by
    by_cases heq : j = i
    · rw [heq, Function.update_self, Function.update_self]
    · rw [Function.update_of_ne heq, Function.update_of_ne heq]
      exact horder j
  have hself := hvalue i
  rw [Function.update_self, Function.update_self] at hself
  have hheld : value i = v := Int.le_antisymm hself.2 hself.1
  refine ⟨value, hinjective, fun j => ?_, hheld⟩
  by_cases heq : j = i
  · rw [heq, hheld]
    have := horder i
    rcases hv with rfl | rfl
    · exact ⟨Int.le_refl _, this⟩
    · exact ⟨this, Int.le_refl _⟩
  · have hj := hvalue j
    rwa [Function.update_of_ne heq, Function.update_of_ne heq] at hj

/-! ### Passes -/

/-- The last pass changes nothing, so it leaves a firm store. -/
theorem sound_hallPasses_firm (fuel : Nat) (hs : s.Wf) (hx : ∀ x ∈ vars, x.Clear s)
    (h : KeptUncrowded vars sat s) (hfuel : s.slack < fuel) :
    Sound sat (hallPasses vars fuel) s fun _ t => Firm vars t := by
  induction fuel generalizing s with
  | zero => exact absurd hfuel (Nat.not_lt_zero _)
  | succ fuel ih =>
    rw [hallPasses]
    have hruns : Runs (fun _ => True) (hallPass vars) s (Shrinks s) :=
      runs_hallPass ⟨trivial, trivial⟩ hs vars
    refine Sound.bind_reaches ((sound_hallPass hs hx h).and_runs hruns) ?_
    rintro changed t hst ⟨hpost, hshrinks⟩
    by_cases hc : changed = true
    · rw [if_pos hc]
      have hlt := hshrinks.smaller hc
      exact ih (hst.steps.wf hs) (fun x hmem => (hx x hmem).steps hst.steps hs) (h.reaches hst)
        (by omega)
    · rw [if_neg hc]
      -- what the pass demands of the store where it began, it demands of the one it leaves
      obtain rfl : t = s := hshrinks.idle (Bool.eq_false_iff.mpr hc)
      exact Sound.pure (.of_uncrowded hs (fun x hmem => (hx x hmem).ranges) hpost.2)

/-! ### Assigned values -/

/-- Every variable is at one of its bounds. -/
def AtBounds (vars : List IntVar) (s : Store) (a : Valuation) : Prop :=
  ∀ x ∈ vars, x.exactValue a.int = x.lowerBound s ∨ x.exactValue a.int = x.upperBound s

/-- Two valuations, with all variables of the store at their least and greatest values. -/
theorem exists_extremes (hs : s.Wf) (hx : ∀ x ∈ vars, x.Ranges Width.value s) :
    ∃ a b, s.Admits a ∧ s.Admits b ∧ ∀ x ∈ vars,
      (x.exactValue a.int = x.lowerBound s ∧ x.exactValue b.int = x.upperBound s)
      ∨ (x.exactValue a.int = x.upperBound s ∧ x.exactValue b.int = x.lowerBound s) := by
  obtain ⟨rest, hrest⟩ := hs.exists_admits
  refine ⟨{ rest with int := fun y => (s.int y).lower }, { rest with int := fun y => (s.int y).upper },
    ⟨fun y => (hs.int y).lower_mem, hrest.set, hrest.graph⟩,
    ⟨fun y => (hs.int y).upper_mem, hrest.set, hrest.graph⟩, fun x hmem => ?_⟩
  obtain ⟨hlower, hupper⟩ := IntVar.bounds_eq hs (hx x hmem)
  rw [IntVar.exactValue_eq, IntVar.exactValue_eq, hlower, hupper]
  cases x.reverses with
  | false => exact Or.inl ⟨rfl, rfl⟩
  | true => exact Or.inr ⟨rfl, rfl⟩

/-- Where nothing is lost that has all variables at their bounds, the bounds stay. -/
theorem bounds_of_reaches (hs : s.Wf) (hx : ∀ x ∈ vars, x.Ranges Width.value s)
    (h : Reaches (AtBounds vars s) s t) :
    ∀ x ∈ vars, x.lowerBound t = x.lowerBound s ∧ x.upperBound t = x.upperBound s := by
  intro x hmem
  obtain ⟨a, b, ha, hb, hends⟩ := exists_extremes hs hx
  have hat := h.kept a ha fun z hz => (hends z hz).imp And.left And.left
  have hbt := h.kept b hb fun z hz => ((hends z hz).imp And.right And.right).symm
  have ht := h.steps.wf hs
  have hxt := (hx x hmem).steps h.steps hs
  have hlower := IntVar.lowerBound_mono h.steps hs x
  have hupper := IntVar.upperBound_mono h.steps hs x
  have ha₁ := IntVar.lowerBound_le ht hxt (IntVar.takes_exactValue hat x)
  have ha₂ := IntVar.le_upperBound ht hxt (IntVar.takes_exactValue hat x)
  have hb₁ := IntVar.lowerBound_le ht hxt (IntVar.takes_exactValue hbt x)
  have hb₂ := IntVar.le_upperBound ht hxt (IntVar.takes_exactValue hbt x)
  rcases hends x hmem with ⟨hax, hbx⟩ | ⟨hax, hbx⟩
  · omega
  · omega

/-- In a firm store the value of a fixed variable is no bound of another one. -/
theorem Firm.ne_of_fixed (h : Firm vars s) {i j : Nat} {x y : IntVar} (hij : j ≠ i)
    (hi : vars[i]? = some x) (hj : vars[j]? = some y) {v : Int} (hlower : x.lowerBound s = v)
    (hupper : x.upperBound s = v) : y.lowerBound s ≠ v ∧ y.upperBound s ≠ v := by
  obtain ⟨hilt, hix⟩ := List.getElem?_eq_some_iff.mp hi
  obtain ⟨hjlt, hjy⟩ := List.getElem?_eq_some_iff.mp hj
  have hroom := h.room v v (Int.le_refl v)
  have hinside : Inside s v v x := inside_iff.mpr ⟨by omega, by omega⟩
  let everyone := enclosed (fun k : Fin vars.length => vars[k].lowerBound s)
    (fun k => vars[k].upperBound s) v v
  have hcrowd : crowd vars s v v = everyone.card := crowd_eq_card vars s v v
  have hmem : (⟨i, hilt⟩ : Fin vars.length) ∈ everyone := by
    refine mem_enclosed.mpr ?_
    show v ≤ vars[i].lowerBound s ∧ vars[i].upperBound s ≤ v
    rw [hix]
    omega
  -- the interval of one number is full as soon as one variable is fixed there
  have hsome : 0 < everyone.card := Finset.card_pos.mpr ⟨_, hmem⟩
  have hout : ¬ Inside s v v y := by
    intro hin
    have hmem' : (⟨j, hjlt⟩ : Fin vars.length) ∈ everyone := by
      refine mem_enclosed.mpr ?_
      show v ≤ vars[j].lowerBound s ∧ vars[j].upperBound s ≤ v
      rw [hjy]
      exact inside_iff.mp hin
    have htwo : 1 < everyone.card :=
      Finset.one_lt_card.mpr ⟨_, hmem, _, hmem', fun heq => hij (Fin.mk.inj heq).symm⟩
    omega
  obtain ⟨hlow, hhigh⟩ := h.clear v v (Int.le_refl v) (by omega) y (List.mem_of_getElem? hj) hout
  exact ⟨fun heq => hlow ⟨by omega, by omega⟩, fun heq => hhigh ⟨by omega, by omega⟩⟩

/-- Removing assigned values touches no bound of a firm store. -/
theorem sound_removeFixedValues_firm (hs : s.Wf) (hx : ∀ x ∈ vars, x.Ranges Width.value s)
    (hfirm : Firm vars s) (h : KeptApart vars sat s) :
    Sound sat (removeFixedValues vars) s fun _ t => Firm vars t := by
  have hkept : KeptApart vars (AtBounds vars s) s := by
    intro t hst a _ hbounds i j x y hij hi hj hfixed _
    have hxmem := List.mem_of_getElem? hi
    have hymem := List.mem_of_getElem? hj
    obtain ⟨hlower, hupper⟩ := bounds_of_reaches hs hx hst x hxmem
    have hsingle : x.lowerBound t = x.upperBound t := beq_iff_eq.mp hfixed
    obtain ⟨hlow, hhigh⟩ := hfirm.ne_of_fixed hij hi hj hlower.symm (by omega)
    rcases hbounds y hymem with heq | heq
    · rwa [heq]
    · rwa [heq]
  refine ((sound_removeFixedValues hs hx h).and (sound_removeFixedValues hs hx hkept)).imp ?_
  intro _ t _ hpost
  exact hfirm.of_bounds (bounds_of_reaches hs hx hpost.2.2)

theorem sound_byBounds_firm (hs : s.Wf) (hx : ∀ x ∈ vars, x.Clear s)
    (h : KeptUncrowded vars sat s) (h' : KeptApart vars sat s) :
    Sound sat (byBounds vars) s fun _ t => Firm vars t := by
  unfold byBounds
  refine Sound.bind_read ?_
  refine Sound.bind_reaches (sound_hallPasses_firm _ hs hx h (Nat.lt_succ_self _)) ?_
  intro _ t hst hfirm
  have hxt := fun z hz => ((hx z hz).steps hst.steps hs).ranges
  exact sound_removeFixedValues_firm (hst.steps.wf hs) hxt hfirm (h'.reaches hst)

/-! ### Consistency -/

/-- Different values crowd no interval. -/
theorem keptUncrowded_differ (hs : s.Wf) (hx : ∀ x ∈ vars, x.Ranges Width.value s) :
    KeptUncrowded vars (Differ vars) s := by
  intro t hst a ha hdiffer low high hle
  have ht := hst.steps.wf hs
  refine .of_differ hdiffer (fun x hmem => ?_) (fun x hmem => ?_) hle
  · exact IntVar.lowerBound_le ht ((hx x hmem).steps hst.steps hs) (IntVar.takes_exactValue ha x)
  · exact IntVar.le_upperBound ht ((hx x hmem).steps hst.steps hs) (IntVar.takes_exactValue ha x)

/-- Different values leave the value of a fixed variable to it. -/
theorem keptApart_differ (hs : s.Wf) (hx : ∀ x ∈ vars, x.Ranges Width.value s) :
    KeptApart vars (Differ vars) s := by
  intro t hst a ha hdiffer i j x y hij hi hj hfixed _
  have hxt := (hx x (List.mem_of_getElem? hi)).steps hst.steps hs
  have heq := IntVar.eq_lowerBound_of_isFixed (hst.steps.wf hs) hxt hfixed
    (IntVar.takes_exactValue ha x)
  rw [← heq]
  exact hdiffer.ne hij hj hi

/-- The first run of *all different* by bounds answers.  If it succeeds, for each of the two bounds
    of each variable there are pairwise different numbers, one between the bounds of each
    variable, that take this bound; if it refuses, no values in the domains make the variables
    pairwise different. -/
theorem bounds_consistent (hs : s.Wf) (hknown : ∀ x ∈ vars, s.knows (.int x.base) = true)
    (hx : ∀ x ∈ vars, x.Clear s) :
    ∃ pass, Propagator.initial (Filter.distinctByBounds vars) s = .ok pass
      ∧ (pass.refusal? = none → ∀ (i : Fin vars.length) (v : Int),
        v = vars[i].lowerBound pass.store ∨ v = vars[i].upperBound pass.store →
          ∃ value : Fin vars.length → Int, Function.Injective value
            ∧ (∀ j, vars[j].lowerBound pass.store ≤ value j
              ∧ value j ≤ vars[j].upperBound pass.store) ∧ value i = v)
      ∧ ∀ refusal, pass.refusal? = some refusal → ∀ value : IntId → Int,
        (∀ x ∈ vars, (s.int x.base).contains (value x.base) = true) →
          ¬ (vars.map (·.exactValue value)).Nodup := by
  have hvalues : ∀ x ∈ vars, x.Ranges Width.value s := fun x hmem => (hx x hmem).ranges
  have hscope : ∀ v ∈ (Filter.distinctByBounds vars).scope, s.knows v = true := by
    intro v hv
    obtain ⟨w, hw, rfl⟩ := List.mem_map.mp hv
    obtain ⟨⟨x, i⟩, hmem, rfl⟩ := List.mem_map.mp hw
    exact hknown x (List.mem_of_getElem? (List.mem_zipIdx_iff_getElem?.mp hmem))
  have hsound := sound_byBounds_firm hs hx (keptUncrowded_differ hs hvalues)
    (keptApart_differ hs hvalues)
  obtain ⟨pass, hpass, hran⟩ := Filter.ran_ofFilter (f := .distinctByBounds vars)
    (Filter.sound_guarded hscope hsound)
  refine ⟨pass, hpass, fun hsuccess i v hv => ?_, fun refusal hrefusal value hvalue hdiffer => ?_⟩
  · exact (hran.accepted hsuccess).supports (hran.steps.wf hs) i hv
  · obtain ⟨a, ha, hint⟩ := hs.exists_admits_int value
    have hsame : ∀ x ∈ vars, x.exactValue a.int = x.exactValue value := by
      intro x hmem
      rw [IntVar.exactValue_eq, IntVar.exactValue_eq, hint x.base (hvalue x hmem)]
    refine hran.refused refusal hrefusal a ha ?_
    show (vars.map (·.exactValue a.int)).Nodup
    rw [List.map_congr_left hsame]
    exact hdiffer

/-- A variable with the values 0 and 1, and one with the values from 0 to 5. -/
def cramped : Store :=
  ((Store.empty.addInt (IntegerDomain.bounded 0 1)).2.addInt (IntegerDomain.bounded 0 5)).2

/-- The first of the two variables, the second, and 1 less the first. -/
def crampedVars : List IntVar :=
  [.plain ⟨0⟩, .plain ⟨1⟩, .view (.plain ⟨0⟩) ⟨-1, 1, AffineMap.neg_one_ne_zero⟩]

/-- The first variable and its mirror image use the values 0 and 1 up, so the second variable is
    at least 2, and it can be 2. -/
theorem bounds_consistent_cramped :
    ∃ pass, Propagator.initial (Filter.distinctByBounds crampedVars) cramped = .ok pass
      ∧ pass.refusal? = none ∧ (IntVar.plain ⟨1⟩).lowerBound pass.store = 2
      ∧ ∃ value : Fin 3 → Int, Function.Injective value ∧ value 1 = 2 := by
  have hs : cramped.Wf :=
    (Store.wf_empty.addInt (IntegerDomain.bounded_wf (by decide) (by decide))).addInt
      (IntegerDomain.bounded_wf (by decide) (by decide))
  have hclear : ∀ x ∈ crampedVars, x.Clear cramped := by
    intro x hx
    refine IntVar.Ranges.clear fun v hv => ?_
    simp only [crampedVars, List.mem_cons, List.not_mem_nil, or_false] at hx
    have hbounds : 0 ≤ v ∧ v ≤ 5 := by
      rcases hx with rfl | rfl | rfl
      · obtain ⟨hlow, hhigh, -⟩ := IntegerDomain.contains_iff.mp hv
        exact ⟨hlow, Int.le_trans hhigh (by decide)⟩
      · obtain ⟨hlow, hhigh, -⟩ := IntegerDomain.contains_iff.mp hv
        exact ⟨hlow, hhigh⟩
      · obtain ⟨hlow, hhigh, -⟩ := IntegerDomain.contains_iff.mp hv
        exact ⟨hlow, Int.le_trans hhigh (by decide)⟩
    rcases hx with rfl | rfl | rfl
    all_goals
      simp only [IntVar.Within, IntVar.image, AffineMap.image, Width.Fits, Width.interior,
        Width.value, minValue, maxValue]
      omega
  obtain ⟨pass, hpass, hsupport, -⟩ := bounds_consistent hs (by decide) hclear
  have hrun : (Propagator.initial (Filter.distinctByBounds crampedVars) cramped).map
      (fun pass => (pass.refusal?, (IntVar.plain ⟨1⟩).lowerBound pass.store)) = .ok (none, 2) := by
    cbv
  rw [hpass] at hrun
  obtain ⟨hsuccess, hbound⟩ := Prod.mk.inj (Except.ok.inj hrun)
  obtain ⟨value, hinjective, -, hvalue⟩ := hsupport hsuccess ⟨1, by decide⟩ 2 (Or.inl hbound.symm)
  exact ⟨pass, hpass, hsuccess, hbound, value, hinjective, hvalue⟩

end FiniteDomain.AllDifferent
