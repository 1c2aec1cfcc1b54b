import FiniteDomain.Proofs.Domain.Chain
import FiniteDomain.Proofs.Domain.Integer

/-! # Narrowing integer domains

    The five narrowings of an integer domain are chains of ticks.  `Reports`
    says which events may describe a change: a moved bound is told to those who
    watch that bound, and a single value that is left is told as an assignment. -/

namespace FiniteDomain.IntegerDomain

/-! ### Ticks -/

/-- An elementary change of a domain, with the entry that records it. -/
inductive Tick : IntegerDomain → Entry → IntegerDomain → Prop where
  /-- The lower bound rises to a value. -/
  | raise {d : IntegerDomain} (v : Int) (hlt : d.lower < v) (hv : d.contains v = true) :
      Tick d (.lowerBound d.lower d.size) (d.raiseLower v)
  /-- The upper bound falls to a value. -/
  | drop {d : IntegerDomain} (v : Int) (hlt : v < d.upper) (hv : d.contains v = true) :
      Tick d (.upperBound d.upper d.size) (d.dropUpper v)
  /-- A value strictly between the bounds leaves. -/
  | erase {d : IntegerDomain} (s : Enumeration) (v : Int) (hs : d.values? = some s)
      (hlower : d.lower < v) (hupper : v < d.upper) (hv : d.contains v = true) :
      Tick d (.removal v) { d with values? := some (s.erase v), size := d.size - 1 }

/-- The values of a domain are members of its enumeration. -/
theorem enumeration_contains {d : IntegerDomain} {s : Enumeration} (hs : d.values? = some s)
    {v : Int} (hv : d.contains v = true) : s.contains v = true := by
  have h := (contains_iff.mp hv).2.2
  simpa [holds, hs] using h

theorem contains_raiseLower {d : IntegerDomain} {v : Int} (h : d.lower ≤ v) (w : Int) :
    (d.raiseLower v).contains w = true ↔ v ≤ w ∧ d.contains w = true := by
  rw [contains_iff, contains_iff]
  show v ≤ w ∧ w ≤ d.upper ∧ d.holds w = true
    ↔ v ≤ w ∧ d.lower ≤ w ∧ w ≤ d.upper ∧ d.holds w = true
  constructor
  · rintro ⟨h₁, h₂, h₃⟩
    exact ⟨h₁, by omega, h₂, h₃⟩
  · rintro ⟨h₁, -, h₂, h₃⟩
    exact ⟨h₁, h₂, h₃⟩

theorem contains_dropUpper {d : IntegerDomain} {v : Int} (h : v ≤ d.upper) (w : Int) :
    (d.dropUpper v).contains w = true ↔ w ≤ v ∧ d.contains w = true := by
  rw [contains_iff, contains_iff]
  show d.lower ≤ w ∧ w ≤ v ∧ d.holds w = true
    ↔ w ≤ v ∧ d.lower ≤ w ∧ w ≤ d.upper ∧ d.holds w = true
  constructor
  · rintro ⟨h₁, h₂, h₃⟩
    exact ⟨h₂, h₁, by omega, h₃⟩
  · rintro ⟨h₁, h₂, -, h₃⟩
    exact ⟨h₂, h₁, h₃⟩

theorem contains_eraseValue {d : IntegerDomain} (hd : d.Wf) {s : Enumeration} {v : Int}
    (hs : d.values? = some s) (hlower : d.lower < v) (n : Nat) (w : Int) :
    IntegerDomain.contains { d with values? := some (s.erase v), size := n } w = true
      ↔ w ≠ v ∧ d.contains w = true := by
  have hoff := hd.offset_le s hs
  rw [contains_iff, contains_iff]
  simp only [holds, hs]
  constructor
  · rintro ⟨h₁, h₂, h₃⟩
    rw [Enumeration.contains_erase (by omega) (by omega)] at h₃
    simp only [Bool.and_eq_true, Bool.not_eq_true', decide_eq_false_iff_not] at h₃
    exact ⟨h₃.1, h₁, h₂, h₃.2⟩
  · rintro ⟨h₁, h₂, h₃, h₄⟩
    rw [Enumeration.contains_erase (by omega) (by omega)]
    exact ⟨h₂, h₃, by simp [h₁, h₄]⟩

theorem size_raiseLower {d : IntegerDomain} (hd : d.Wf) {v : Int} (hlt : d.lower < v)
    (hv : d.contains v = true) : (d.raiseLower v).size = (d.raiseLower v).valueSet.card := by
  have hupper := (contains_iff.mp hv).2.1
  have hset : (d.raiseLower v).valueSet = d.valueSet.filter (v ≤ ·) := by
    ext w
    rw [Finset.mem_filter, mem_valueSet, mem_valueSet, contains_raiseLower (by omega)]
    exact And.comm
  have hrest : d.valueSet.filter (fun w => d.lower ≤ w ∧ w ≤ v - 1)
      = d.valueSet.filter (¬ v ≤ ·) := by
    apply Finset.filter_congr
    intro w hw
    have := (contains_iff.mp (mem_valueSet.mp hw)).1
    omega
  have hsum := d.valueSet.card_filter_add_card_filter_not (v ≤ ·)
  show d.size - d.countBetween d.lower (v - 1) = _
  rw [countBetween_eq hd (Int.le_refl _) (by omega) (by omega), hd.size_eq, hset, hrest]
  omega

theorem size_dropUpper {d : IntegerDomain} (hd : d.Wf) {v : Int} (hlt : v < d.upper)
    (hv : d.contains v = true) : (d.dropUpper v).size = (d.dropUpper v).valueSet.card := by
  have hlower := (contains_iff.mp hv).1
  have hset : (d.dropUpper v).valueSet = d.valueSet.filter (· ≤ v) := by
    ext w
    rw [Finset.mem_filter, mem_valueSet, mem_valueSet, contains_dropUpper (by omega)]
    exact And.comm
  have hrest : d.valueSet.filter (fun w => v + 1 ≤ w ∧ w ≤ d.upper)
      = d.valueSet.filter (¬ · ≤ v) := by
    apply Finset.filter_congr
    intro w hw
    have := (contains_iff.mp (mem_valueSet.mp hw)).2.1
    omega
  have hsum := d.valueSet.card_filter_add_card_filter_not (· ≤ v)
  show d.size - d.countBetween (v + 1) d.upper = _
  rw [countBetween_eq hd (by omega) (by omega) (Int.le_refl _), hd.size_eq, hset, hrest]
  omega

namespace Tick

variable {d d' : IntegerDomain} {e : Entry}

/-- A tick only removes values. -/
theorem contains (ht : Tick d e d') (hd : d.Wf) {w : Int} (hw : d'.contains w = true) :
    d.contains w = true := by
  cases ht with
  | raise v hlt hv => exact ((contains_raiseLower (by omega) w).mp hw).2
  | drop v hlt hv => exact ((contains_dropUpper (by omega) w).mp hw).2
  | erase s v hs hlower hupper hv => exact ((contains_eraseValue hd hs hlower _ w).mp hw).2

theorem wf (ht : Tick d e d') (hd : d.Wf) : d'.Wf := by
  cases ht with
  | raise v hlt hv =>
    have hupper := (contains_iff.mp hv).2.1
    refine ⟨?_, ?_, size_raiseLower hd hlt hv, hd.canonical, ?_⟩
    · exact (contains_raiseLower (by omega) v).mpr ⟨Int.le_refl v, hv⟩
    · exact (contains_raiseLower (by omega) _).mpr ⟨hupper, hd.upper_mem⟩
    · intro s hs
      have := hd.offset_le s hs
      show s.offset ≤ v
      omega
  | drop v hlt hv =>
    have hlower := (contains_iff.mp hv).1
    refine ⟨?_, ?_, size_dropUpper hd hlt hv, hd.canonical, hd.offset_le⟩
    · exact (contains_dropUpper (by omega) _).mpr ⟨hlower, hd.lower_mem⟩
    · exact (contains_dropUpper (by omega) v).mpr ⟨Int.le_refl v, hv⟩
  | erase s v hs hlower hupper hv =>
    refine ⟨?_, ?_, ?_, ?_, ?_⟩
    · exact (contains_eraseValue hd hs hlower _ _).mpr ⟨Int.ne_of_lt hlower, hd.lower_mem⟩
    · exact (contains_eraseValue hd hs hlower _ _).mpr ⟨Int.ne_of_gt hupper, hd.upper_mem⟩
    · have hset : valueSet { d with values? := some (s.erase v), size := d.size - 1 }
          = d.valueSet.erase v := by
        ext w
        rw [Finset.mem_erase, mem_valueSet, mem_valueSet, contains_eraseValue hd hs hlower]
      rw [hset, Finset.card_erase_of_mem (mem_valueSet.mpr hv), ← hd.size_eq]
    · rintro _ ⟨⟩
      exact (hd.canonical s hs).erase _
    · rintro _ ⟨⟩
      exact hd.offset_le s hs

/-- The entry of a tick takes it back exactly. -/
theorem undo (ht : Tick d e d') (hd : d.Wf) : d'.undo e = d := by
  cases ht with
  | raise v hlt hv => rfl
  | drop v hlt hv => rfl
  | erase s v hs hlower hupper hv =>
    have hpos := hd.size_pos
    have hholds := enumeration_contains hs hv
    have hback : (s.erase v).insert v = s := by
      obtain ⟨offset, present⟩ := s
      exact congrArg (Enumeration.mk offset) ((hd.canonical _ hs).insert_erase hholds)
    obtain ⟨lower, upper, size, values?⟩ := d
    simp only at hs hpos
    subst hs
    simp only [IntegerDomain.undo, hback]
    rw [Nat.sub_add_cancel hpos]

/-- A domain goes on being stored as it was. -/
theorem isEnumerated_eq (ht : Tick d e d') : d'.isEnumerated = d.isEnumerated := by
  cases ht with
  | raise v hlt hv => rfl
  | drop v hlt hv => rfl
  | erase s v hs hlower hupper hv =>
    unfold isEnumerated
    rw [hs]
    rfl

/-- A tick removes a value. -/
theorem size_lt (ht : Tick d e d') (hd : d.Wf) : d'.size < d.size := by
  rw [(ht.wf hd).size_eq, hd.size_eq]
  apply Finset.card_lt_card
  rw [Finset.ssubset_iff_of_subset]
  · cases ht with
    | raise v hlt hv =>
      refine ⟨d.lower, mem_valueSet.mpr hd.lower_mem, ?_⟩
      rw [mem_valueSet, contains_raiseLower (by omega)]
      omega
    | drop v hlt hv =>
      refine ⟨d.upper, mem_valueSet.mpr hd.upper_mem, ?_⟩
      rw [mem_valueSet, contains_dropUpper (by omega)]
      omega
    | erase s v hs hlower hupper hv =>
      refine ⟨_, mem_valueSet.mpr hv, ?_⟩
      rw [mem_valueSet, contains_eraseValue hd hs hlower]
      simp
  · intro w hw
    exact mem_valueSet.mpr (ht.contains hd (mem_valueSet.mp hw))

/-- A tick takes some value away. -/
theorem loses (ht : Tick d e d') (hd : d.Wf) :
    ∃ v, d.contains v = true ∧ ¬ d'.contains v = true := by
  by_contra! hall
  have hlt := ht.size_lt hd
  rw [hd.size_eq, (ht.wf hd).size_eq] at hlt
  refine Nat.not_le.mpr hlt (Finset.card_le_card fun v hv => ?_)
  exact mem_valueSet.mpr (hall v (mem_valueSet.mp hv))

end Tick

theorem decreasing : Decreasing Tick Wf fun d v => d.contains v = true where
  sound := Tick.wf
  narrows := fun ht hd _ hv => ht.contains hd hv
  loses := Tick.loses
  inhabited := fun hd => ⟨_, hd.lower_mem⟩

/-! ### Nearest values -/

theorem firstFrom_spec {d : IntegerDomain} (hd : d.Wf) {v : Int} (hlower : d.lower ≤ v)
    (hupper : v ≤ d.upper) :
    v ≤ d.firstFrom v ∧ d.contains (d.firstFrom v) = true
      ∧ ∀ w, v ≤ w → d.contains w = true → d.firstFrom v ≤ w := by
  have htop := hd.upper_mem
  unfold firstFrom
  cases hs : d.values? with
  | none =>
    refine ⟨Int.le_refl v, ?_, fun w hw _ => hw⟩
    rw [contains_iff]
    simp [hlower, hupper, holds, hs]
  | some s =>
    have hoff := hd.offset_le s hs
    simp only
    cases hn : s.present.next? (s.index v) with
    | none =>
      -- the upper bound is a member from `v` on
      have := BitSet.next?_eq_none hn (s.index d.upper) (by simp only [Enumeration.index]; omega)
      rw [show s.present.contains (s.index d.upper) = true from enumeration_contains hs htop] at this
      cases this
    | some i =>
      obtain ⟨hle, hin, hmin⟩ := BitSet.next?_eq_some hn
      have hmin' : ∀ w, v ≤ w → d.contains w = true → s.value i ≤ w := by
        intro w hw hcontains
        by_contra hlt
        have := hmin (s.index w) (by simp only [Enumeration.index]; omega)
          (by simp only [Enumeration.index, Enumeration.value] at hlt ⊢; omega)
        rw [show s.present.contains (s.index w) = true from enumeration_contains hs hcontains] at this
        cases this
      have hge : v ≤ s.value i := by
        simp only [Enumeration.index, Enumeration.value] at hle ⊢
        omega
      simp only [Option.map_some, Option.getD_some]
      refine ⟨hge, ?_, hmin'⟩
      rw [contains_iff]
      refine ⟨by omega, hmin' d.upper hupper htop, ?_⟩
      simpa [holds, hs, Enumeration.contains] using hin

theorem lastUpTo_spec {d : IntegerDomain} (hd : d.Wf) {v : Int} (hlower : d.lower ≤ v)
    (hupper : v ≤ d.upper) :
    d.lastUpTo v ≤ v ∧ d.contains (d.lastUpTo v) = true
      ∧ ∀ w, w ≤ v → d.contains w = true → w ≤ d.lastUpTo v := by
  have hbottom := hd.lower_mem
  unfold lastUpTo
  cases hs : d.values? with
  | none =>
    refine ⟨Int.le_refl v, ?_, fun w hw _ => hw⟩
    rw [contains_iff]
    simp [hlower, hupper, holds, hs]
  | some s =>
    have hoff := hd.offset_le s hs
    simp only
    cases hn : s.present.previous? (s.index v) with
    | none =>
      -- the lower bound is a member up to `v`
      have := BitSet.previous?_eq_none hn (s.index d.lower)
        (by simp only [Enumeration.index]; omega)
      rw [show s.present.contains (s.index d.lower) = true from enumeration_contains hs hbottom] at this
      cases this
    | some i =>
      obtain ⟨hle, hin, hmax⟩ := BitSet.previous?_eq_some hn
      have hmax' : ∀ w, w ≤ v → d.contains w = true → w ≤ s.value i := by
        intro w hw hcontains
        have hwlower := (contains_iff.mp hcontains).1
        by_contra hlt
        have := hmax (s.index w)
          (by simp only [Enumeration.index, Enumeration.value] at hlt ⊢; omega)
          (by simp only [Enumeration.index]; omega)
        rw [show s.present.contains (s.index w) = true from enumeration_contains hs hcontains] at this
        cases this
      have hge : s.value i ≤ v := by
        simp only [Enumeration.index, Enumeration.value] at hle ⊢
        omega
      simp only [Option.map_some, Option.getD_some]
      refine ⟨hge, ?_, hmax'⟩
      rw [contains_iff]
      refine ⟨hmax' d.lower hlower hbottom, by omega, ?_⟩
      simpa [holds, hs, Enumeration.contains] using hin

/-! ### Events -/

/-- The event describes the change: a moved bound is told to those who watch that bound, and a
    single value that is left is told as an assignment. -/
structure Reports (d d' : IntegerDomain) (e : Event) : Prop where
  /-- Who watches the lower bound hears of a higher one. -/
  lower : d'.lower ≠ d.lower → e.wakes.contains .lowerBound = true
  /-- Who watches the upper bound hears of a lower one. -/
  upper : d'.upper ≠ d.upper → e.wakes.contains .upperBound = true
  /-- A single value is told as an assignment. -/
  fixed : d'.isFixed = true → e = .assign
  /-- An assignment is told only of a single value. -/
  assigned : e = .assign → d'.isFixed = true
  /-- Who watches the values hears of every change. -/
  removal : e.wakes.contains .removal = true

theorem reports_raiseLower (d : IntegerDomain) (v : Int) :
    Reports d (d.raiseLower v) ((d.raiseLower v).boundEvent .lowerBound) := by
  unfold boundEvent
  split
  next h => exact ⟨fun _ => rfl, fun _ => rfl, fun _ => rfl, fun _ => h, rfl⟩
  next h => exact ⟨fun _ => rfl, fun hne => absurd rfl hne, fun hf => absurd hf h, nofun, rfl⟩

theorem reports_dropUpper (d : IntegerDomain) (v : Int) :
    Reports d (d.dropUpper v) ((d.dropUpper v).boundEvent .upperBound) := by
  unfold boundEvent
  split
  next h => exact ⟨fun _ => rfl, fun _ => rfl, fun _ => rfl, fun _ => h, rfl⟩
  next h => exact ⟨fun hne => absurd rfl hne, fun _ => rfl, fun hf => absurd hf h, nofun, rfl⟩

/-- The event of an outcome describes its change. -/
def OutcomeReports (d : IntegerDomain) : Outcome IntegerDomain Entry → Prop
  | .changed d' _ e => Reports d d' e
  | _ => True

/-! ### Narrowings -/

/-- What a narrowing of a domain does: it keeps the values that obey the request, and its event
    describes the change. -/
structure Narrows (d : IntegerDomain) (request : Int → Prop) (o : Outcome IntegerDomain Entry) :
    Prop where
  /-- No value that obeys the request is lost. -/
  obeys : o.Obeys Tick (fun d v => d.contains v = true) d request
  /-- The event describes the change. -/
  reports : OutcomeReports d o

/-- Only values that obey the request are left. -/
abbrev ExactFor (d : IntegerDomain) (request : Int → Prop) (o : Outcome IntegerDomain Entry) :
    Prop :=
  o.Exact (fun d v => d.contains v = true) d request

theorem tightenLower_narrows {d : IntegerDomain} (hd : d.Wf) (v : Int) :
    Narrows d (v ≤ ·) (d.tightenLower v) ∧ ExactFor d (v ≤ ·) (d.tightenLower v) := by
  unfold tightenLower
  split
  next h =>
    refine ⟨⟨trivial, trivial⟩, ?_⟩
    intro w hw
    have := (contains_iff.mp hw).1
    omega
  split
  next h hgt =>
    refine ⟨⟨?_, trivial⟩, trivial⟩
    intro w hw
    have := (contains_iff.mp hw).2.1
    omega
  next hgt hle =>
    obtain ⟨hge, hin, hmin⟩ := firstFrom_spec hd (v := v) (by omega) (by omega)
    refine ⟨⟨⟨.single (.raise _ (by omega) hin), by simp, ?_⟩, reports_raiseLower _ _⟩, ?_⟩
    · intro w hw hvw
      exact (contains_raiseLower (by omega) w).mpr ⟨hmin w hvw hw, hw⟩
    · intro w hw
      have := ((contains_raiseLower (by omega) w).mp hw).1
      omega

theorem tightenUpper_narrows {d : IntegerDomain} (hd : d.Wf) (v : Int) :
    Narrows d (· ≤ v) (d.tightenUpper v) ∧ ExactFor d (· ≤ v) (d.tightenUpper v) := by
  unfold tightenUpper
  split
  next h =>
    refine ⟨⟨trivial, trivial⟩, ?_⟩
    intro w hw
    have := (contains_iff.mp hw).2.1
    omega
  split
  next h hgt =>
    refine ⟨⟨?_, trivial⟩, trivial⟩
    intro w hw
    have := (contains_iff.mp hw).1
    omega
  next hgt hle =>
    obtain ⟨hge, hin, hmax⟩ := lastUpTo_spec hd (v := v) (by omega) (by omega)
    refine ⟨⟨⟨.single (.drop _ (by omega) hin), by simp, ?_⟩, reports_dropUpper _ _⟩, ?_⟩
    · intro w hw hvw
      exact (contains_dropUpper (by omega) w).mpr ⟨hmax w hvw hw, hw⟩
    · intro w hw
      have := ((contains_dropUpper (by omega) w).mp hw).1
      omega

/-- A request that agrees with another one on the values can be put in its place. -/
theorem Narrows.congr {d : IntegerDomain} {request request' : Int → Prop}
    {o : Outcome IntegerDomain Entry} (h : Narrows d request o)
    (hiff : ∀ v, d.contains v = true → (request' v ↔ request v)) : Narrows d request' o := by
  refine ⟨?_, h.reports⟩
  cases o with
  | empty => exact fun v hv hr => h.obeys v hv ((hiff v hv).mp hr)
  | unchanged => trivial
  | changed d' entries e =>
    exact ⟨h.obeys.1, h.obeys.2.1, fun v hv hr => h.obeys.2.2 v hv ((hiff v hv).mp hr)⟩

theorem ExactFor.congr {d : IntegerDomain} (hd : d.Wf) {request request' : Int → Prop}
    {o : Outcome IntegerDomain Entry} (h : ExactFor d request o) (hn : Narrows d request o)
    (hiff : ∀ v, d.contains v = true → (request' v ↔ request v)) : ExactFor d request' o := by
  cases o with
  | empty => trivial
  | unchanged => exact fun v hv => (hiff v hv).mpr (h v hv)
  | changed d' entries e =>
    intro v hv
    have hback : d.contains v = true := by
      have hkeep : d'.Wf ∧ ∀ w, d'.contains w = true → d.contains w = true :=
        hn.obeys.1.invariant (P := fun x => x.Wf ∧ ∀ w, x.contains w = true → d.contains w = true)
          (fun ht hx => ⟨ht.wf hx.1, fun w hw => hx.2 w (ht.contains hx.1 hw)⟩)
          ⟨hd, fun _ hw => hw⟩
      exact hkeep.2 v hv
    exact (hiff v hback).mpr (h v hv)

theorem tightenLower_narrows_of_iff {d : IntegerDomain} (hd : d.Wf) {v : Int}
    {request : Int → Prop} (hiff : ∀ w, d.contains w = true → (request w ↔ v ≤ w)) :
    Narrows d request (d.tightenLower v) ∧ ExactFor d request (d.tightenLower v) := by
  obtain ⟨hn, he⟩ := tightenLower_narrows hd v
  exact ⟨hn.congr hiff, he.congr hd hn hiff⟩

theorem tightenUpper_narrows_of_iff {d : IntegerDomain} (hd : d.Wf) {v : Int}
    {request : Int → Prop} (hiff : ∀ w, d.contains w = true → (request w ↔ w ≤ v)) :
    Narrows d request (d.tightenUpper v) ∧ ExactFor d request (d.tightenUpper v) := by
  obtain ⟨hn, he⟩ := tightenUpper_narrows hd v
  exact ⟨hn.congr hiff, he.congr hd hn hiff⟩

/-! #### Taking values away -/

/-- Values that leave one after the other. -/
theorem chain_erase {d : IntegerDomain} (hd : d.Wf) {s : Enumeration} (hs : d.values? = some s)
    {removed : List Int} (hnodup : removed.Nodup)
    (hin : ∀ v ∈ removed, d.lower < v ∧ v < d.upper ∧ d.contains v = true) :
    Chain Tick d (removed.map .removal)
        { d with values? := some (removed.foldl Enumeration.erase s)
                 size := d.size - removed.length }
      ∧ ∀ w, IntegerDomain.contains
            { d with values? := some (removed.foldl Enumeration.erase s)
                     size := d.size - removed.length } w = true
          ↔ w ∉ removed ∧ d.contains w = true := by
  induction removed generalizing d s with
  | nil =>
    obtain ⟨lower, upper, size, values?⟩ := d
    simp only at hs
    subst hs
    exact ⟨.nil _, fun w => by simp⟩
  | cons v rest ih =>
    obtain ⟨hlower, hupper, hv⟩ := hin v List.mem_cons_self
    -- the bounds stay where they are, so that the rest lies strictly between them still
    have htick : Tick d (.removal v) { d with values? := some (s.erase v), size := d.size - 1 } :=
      .erase s v hs hlower hupper hv
    have hcontains := contains_eraseValue hd hs hlower (d.size - 1)
    rw [List.nodup_cons] at hnodup
    obtain ⟨hchain, hrest⟩ := ih (htick.wf hd) (s := s.erase v) rfl hnodup.2 (by
      intro w hw
      obtain ⟨h₁, h₂, h₃⟩ := hin w (List.mem_cons_of_mem v hw)
      refine ⟨h₁, h₂, (hcontains w).mpr ⟨?_, h₃⟩⟩
      rintro rfl
      exact hnodup.1 hw)
    have hsize : d.size - (v :: rest).length = d.size - 1 - rest.length := by
      rw [List.length_cons]
      omega
    rw [List.map_cons, List.foldl_cons, hsize]
    refine ⟨.cons htick hchain, fun w => ?_⟩
    rw [hrest w, hcontains w, List.mem_cons]
    tauto

/-- Values between the bounds leave an enumeration, and no others do. -/
theorem erase_narrows {d : IntegerDomain} (hd : d.Wf) {s : Enumeration} (hs : d.values? = some s)
    {removed : List Int} (hne : removed ≠ []) (hnodup : removed.Nodup)
    (hin : ∀ v ∈ removed, d.lower < v ∧ v < d.upper ∧ d.contains v = true)
    {request : Int → Prop} (hiff : ∀ w, d.contains w = true → (request w ↔ w ∉ removed)) :
    Narrows d request (.changed
        { d with values? := some (removed.foldl Enumeration.erase s)
                 size := d.size - removed.length } (removed.map .removal) .removal)
      ∧ ExactFor d request (.changed
        { d with values? := some (removed.foldl Enumeration.erase s)
                 size := d.size - removed.length } (removed.map .removal) .removal) := by
  obtain ⟨hchain, hcontains⟩ := chain_erase hd hs hnodup hin
  refine ⟨⟨⟨hchain, fun hnil => hne (List.map_eq_nil_iff.mp hnil), ?_⟩, ?_⟩, ?_⟩
  · exact fun w hw hout => (hcontains w).mpr ⟨(hiff w hw).mp hout, hw⟩
  · -- both bounds are left, and a value stood between them
    obtain ⟨v, hv⟩ := List.exists_mem_of_ne_nil removed hne
    obtain ⟨hlower, hupper, -⟩ := hin v hv
    refine ⟨fun h => absurd rfl h, fun h => absurd rfl h, fun h => ?_, nofun, rfl⟩
    simp only [isFixed, beq_iff_eq] at h
    omega
  · intro w hw
    obtain ⟨hout, hback⟩ := (hcontains w).mp hw
    exact (hiff w hback).mpr hout

/-- Removing a value keeps the others; it is exact unless the value lies between the bounds of a
    bounded domain. -/
theorem remove_narrows {d : IntegerDomain} (hd : d.Wf) (v : Int) :
    Narrows d (· ≠ v) (d.remove v)
      ∧ (d.isEnumerated = true ∨ ¬ (d.lower < v ∧ v < d.upper) → ExactFor d (· ≠ v) (d.remove v)) := by
  unfold remove
  split
  next h =>
    refine ⟨⟨trivial, trivial⟩, fun _ w hw heq => ?_⟩
    subst heq
    simp [hw] at h
  next h =>
    have hv : d.contains v = true := by simpa using h
    have hbounds := contains_iff.mp hv
    -- at a bound a value is taken away by moving the bound, which is exact for an interval too
    split
    next heq =>
      refine (tightenLower_narrows_of_iff hd fun w hw => ?_).imp_right fun he _ => he
      have := (contains_iff.mp hw).1
      omega
    split
    next hne heq =>
      refine (tightenUpper_narrows_of_iff hd fun w hw => ?_).imp_right fun he _ => he
      have := (contains_iff.mp hw).2.1
      omega
    next hne hne' =>
      have hlower : d.lower < v := by omega
      have hupper : v < d.upper := by omega
      cases hs : d.values? with
      | none =>
        -- an interval has no gaps, so that the value stays
        refine ⟨⟨trivial, trivial⟩, ?_⟩
        rintro (h | h)
        · simp [isEnumerated, hs] at h
        · exact absurd ⟨hlower, hupper⟩ h
      | some s =>
        refine (erase_narrows hd hs (List.cons_ne_nil v []) (List.nodup_singleton v)
          (fun w hw => ?_) fun w _ => ?_).imp_right fun he _ => he
        · obtain rfl := List.mem_singleton.mp hw
          exact ⟨hlower, hupper, hv⟩
        · rw [List.mem_singleton]

/-- Removing an interval keeps the values outside; it is exact unless the interval lies between
    the bounds of a bounded domain, whatever it holds. -/
theorem removeInterval_narrows {d : IntegerDomain} (hd : d.Wf) (lower upper : Int) :
    Narrows d (fun w => w < lower ∨ upper < w) (d.removeInterval lower upper)
      ∧ (d.isEnumerated = true ∨ ¬ (d.lower < lower ∧ upper < d.upper) →
          ExactFor d (fun w => w < lower ∨ upper < w) (d.removeInterval lower upper)) := by
  unfold removeInterval
  simp only
  -- the part of the interval between the bounds has the same effect
  have hclip : ∀ w, d.contains w = true →
      ((w < lower ∨ upper < w) ↔ (w < max lower d.lower ∨ min upper d.upper < w)) := by
    intro w hw
    have := (contains_iff.mp hw).1
    have := (contains_iff.mp hw).2.1
    omega
  have hlow : d.lower ≤ max lower d.lower := by omega
  have hupp : min upper d.upper ≤ d.upper := by omega
  have hinside : d.lower < max lower d.lower → min upper d.upper < d.upper →
      d.lower < lower ∧ upper < d.upper := by omega
  generalize max lower d.lower = a at hclip hlow hinside
  generalize min upper d.upper = b at hclip hupp hinside
  split
  next h =>
    refine ⟨⟨trivial, trivial⟩, fun _ w hw => (hclip w hw).mpr ?_⟩
    omega
  -- an interval that reaches a bound is taken away by moving the bound
  split
  next h heq =>
    refine (tightenLower_narrows_of_iff hd fun w hw => ?_).imp_right fun he _ => he
    have := (contains_iff.mp hw).1
    rw [hclip w hw]
    omega
  split
  next h hne heq =>
    refine (tightenUpper_narrows_of_iff hd fun w hw => ?_).imp_right fun he _ => he
    have := (contains_iff.mp hw).2.1
    rw [hclip w hw]
    omega
  next hab hne hne' =>
    cases hs : d.values? with
    | none =>
      refine ⟨⟨trivial, trivial⟩, ?_⟩
      rintro (h | h)
      · simp [isEnumerated, hs] at h
      · exact absurd (hinside (by omega) (by omega)) h
    | some s =>
      have hoff := hd.offset_le s hs
      have hmem : ∀ w, w ∈ s.valuesIn a b ↔ a ≤ w ∧ w ≤ b ∧ s.contains w = true := fun w =>
        Enumeration.mem_valuesIn (by omega) (by omega)
      have hiff : ∀ w, d.contains w = true →
          ((w < lower ∨ upper < w) ↔ w ∉ s.valuesIn a b) := by
        intro w hw
        have hpresent := enumeration_contains hs hw
        rw [hclip w hw, hmem w]
        simp only [hpresent, and_true]
        omega
      simp only
      split
      next hempty =>
        refine ⟨⟨trivial, trivial⟩, fun _ w hw => (hiff w hw).mpr ?_⟩
        rw [List.isEmpty_iff.mp hempty]
        exact List.not_mem_nil
      next hnonempty =>
        have hne : s.valuesIn a b ≠ [] := fun hnil => hnonempty (List.isEmpty_iff.mpr hnil)
        refine (erase_narrows hd hs hne (s.nodup_valuesIn a b) (fun w hw => ?_) hiff).imp_right
          fun he _ => he
        obtain ⟨h₁, h₂, h₃⟩ := (hmem w).mp hw
        refine ⟨by omega, by omega, contains_iff.mpr ⟨by omega, by omega, ?_⟩⟩
        simpa [holds, hs] using h₃

/-! #### Keeping one value -/

/-- The lower bound rises to a value of the domain, if it is below. -/
theorem raiseLower_to {d : IntegerDomain} {v : Int} (hv : d.contains v = true) :
    Chain Tick d (if d.lower < v then [.lowerBound d.lower d.size] else [])
        (if d.lower < v then d.raiseLower v else d)
      ∧ (if d.lower < v then d.raiseLower v else d).lower = v
      ∧ (if d.lower < v then d.raiseLower v else d).upper = d.upper
      ∧ ∀ w, (if d.lower < v then d.raiseLower v else d).contains w = true
          ↔ v ≤ w ∧ d.contains w = true := by
  have hle := (contains_iff.mp hv).1
  by_cases hlt : d.lower < v
  · simp only [if_pos hlt]
    exact ⟨.single (.raise v hlt hv), rfl, rfl, contains_raiseLower hle⟩
  · simp only [if_neg hlt]
    refine ⟨.nil d, by omega, trivial, fun w => ⟨fun hw => ⟨?_, hw⟩, And.right⟩⟩
    have := (contains_iff.mp hw).1
    omega

/-- The upper bound falls to a value of the domain, if it is above. -/
theorem dropUpper_to {d : IntegerDomain} {v : Int} (hv : d.contains v = true) :
    Chain Tick d (if v < d.upper then [.upperBound d.upper d.size] else [])
        (if v < d.upper then d.dropUpper v else d)
      ∧ (if v < d.upper then d.dropUpper v else d).lower = d.lower
      ∧ (if v < d.upper then d.dropUpper v else d).upper = v
      ∧ ∀ w, (if v < d.upper then d.dropUpper v else d).contains w = true
          ↔ w ≤ v ∧ d.contains w = true := by
  have hle := (contains_iff.mp hv).2.1
  by_cases hlt : v < d.upper
  · simp only [if_pos hlt]
    exact ⟨.single (.drop v hlt hv), rfl, rfl, contains_dropUpper hle⟩
  · simp only [if_neg hlt]
    refine ⟨.nil d, trivial, by omega, fun w => ⟨fun hw => ⟨?_, hw⟩, And.right⟩⟩
    have := (contains_iff.mp hw).2.1
    omega

theorem instantiate_narrows (d : IntegerDomain) (v : Int) :
    Narrows d (· = v) (d.instantiate v) ∧ ExactFor d (· = v) (d.instantiate v) := by
  unfold instantiate
  split
  next h =>
    refine ⟨⟨?_, trivial⟩, trivial⟩
    rintro w hw rfl
    simp [hw] at h
  next h =>
    have hv : d.contains v = true := by simpa using h
    obtain ⟨hlower, hupper, -⟩ := contains_iff.mp hv
    split
    next hfixed =>
      simp only [isFixed, beq_iff_eq] at hfixed
      refine ⟨⟨trivial, trivial⟩, fun w hw => ?_⟩
      have := (contains_iff.mp hw).1
      have := (contains_iff.mp hw).2.1
      omega
    next hopen =>
      simp only [isFixed, beq_iff_eq] at hopen
      simp only
      -- first the lower bound rises to the value, then the upper bound falls to it
      obtain ⟨hraise, hleast, hsame, hraised⟩ := raiseLower_to hv
      generalize (if d.lower < v then d.raiseLower v else d) = raised at *
      have hv' := (hraised v).mpr ⟨Int.le_refl v, hv⟩
      obtain ⟨hdrop, hbottom, htop, hdropped⟩ := dropUpper_to hv'
      rw [hsame] at hdrop hbottom htop hdropped ⊢
      generalize (if v < d.upper then raised.dropUpper v else raised) = after at *
      have hcontains : ∀ w, after.contains w = true ↔ w = v := by
        intro w
        rw [hdropped w, hraised w]
        constructor
        · rintro ⟨hle, hge, -⟩
          omega
        · rintro rfl
          exact ⟨Int.le_refl _, Int.le_refl _, hv⟩
      have hsingle : after.isFixed = true := by
        rw [isFixed, hbottom, hleast, htop, beq_self_eq_true]
      refine ⟨⟨⟨hraise.append hdrop, ?_, ?_⟩, ?_⟩, ?_⟩
      · rw [Ne, List.append_eq_nil_iff]
        by_cases h₁ : d.lower < v
        · simp [h₁]
        · have h₂ : v < d.upper := by omega
          simp [h₂]
      · exact fun w _ hw => (hcontains w).mpr hw
      · exact ⟨fun _ => rfl, fun _ => rfl, fun _ => rfl, fun _ => hsingle, rfl⟩
      · exact fun w hw => (hcontains w).mp hw

end FiniteDomain.IntegerDomain
