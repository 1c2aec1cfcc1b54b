import FiniteDomain.Proofs.Filter.Demand

/-! # Comparisons are filtered

    A run of either comparison whose demands are granted refuses nothing and loses
    no valuation of the relation; what is left grants what was demanded. -/

namespace FiniteDomain

open Filtering FiniteDomain.Filter

variable {x y : IntVar} {l : LocalId} {s : Store} {sat : Valuation → Prop}

namespace AtMost

theorem sound (hs : s.Wf) (hr : (Filter.atMost x y).Ready s)
    (h : (Filter.atMost x y).Granted sat s) :
    Sound sat (filter x y) s fun _ t => Done (.atMost x y) l s t := by
  have hx := hr.values (x := x) List.mem_cons_self
  have hy := hr.values (x := y) (List.mem_cons_of_mem _ List.mem_cons_self)
  unfold filter
  refine Sound.bind_read ?_
  have hfirst := IntVar.tightenUpper_keeps hs hx.source (y.upperBound s)
  refine Sound.bind_reaches
    (Sound.narrowing_exactly hfirst fun a ha hsat => (h.here ha hsat l).1) ?_
  intro _ t hst hupper
  have ht := hst.steps.wf hs
  refine Sound.bind_read ?_
  have hsecond := IntVar.tightenLower_keeps ht (hy.steps hst.steps hs).source (x.lowerBound t)
  refine (Sound.narrowing_exactly hsecond fun a ha hsat => (h t hst a ha hsat l).2).imp ?_
  intro _ u htu hlower a ha
  exact ⟨hupper a (htu.admits ht ha),
    Int.le_trans (IntVar.lowerBound_mono hst.steps hs x) (hlower a ha)⟩

theorem judges (hs : s.Wf) (hx : x.Ranges Width.value s) (hy : y.Ranges Width.value s) :
    Judges (fun v => x.exactValue v.int ≤ y.exactValue v.int) s
      (x.isFixed s = true ∧ y.isFixed s = true) (entailment x y s) := by
  refine Judges.ite (fun hle v hv => ?_) (fun hlt v hv => ?_) fun hfixed hgt => ?_
  · have hupper := IntVar.le_upperBound hs hx (IntVar.takes_exactValue hv x)
    have hlower := IntVar.lowerBound_le hs hy (IntVar.takes_exactValue hv y)
    omega
  · have hlower := IntVar.lowerBound_le hs hx (IntVar.takes_exactValue hv x)
    have hupper := IntVar.le_upperBound hs hy (IntVar.takes_exactValue hv y)
    omega
  · have hfirst : x.lowerBound s = x.upperBound s := beq_iff_eq.mp hfixed.1
    have hsecond : y.lowerBound s = y.upperBound s := beq_iff_eq.mp hfixed.2
    omega

end AtMost

namespace Distinct

/-- Removing the value of one variable from another one, if it is fixed. -/
theorem sound_half (hs : s.Wf) (hy : y.Ranges Width.value s)
    (h : ∀ a, s.Admits a → sat a → x.isFixed s = true → y.Removable s (x.lowerBound s) →
      y.exactValue a.int ≠ x.lowerBound s) :
    Sound sat (do
        if ← Filtering.read x.isFixed then
          let value ← Filtering.read x.lowerBound
          Filtering.narrowing (y.removeValue · value)) s
      fun _ t => ∀ a, t.Admits a → x.isFixed s = true → y.Removable s (x.lowerBound s) →
        y.exactValue a.int ≠ x.lowerBound s := by
  refine Sound.bind_read ?_
  by_cases hfixed : x.isFixed s = true
  · rw [if_pos hfixed]
    refine Sound.bind_read ?_
    have hkeeps := IntVar.removeValue_exactly hs hy.source (x.lowerBound s)
    exact (Sound.narrowing_exactly hkeeps fun a ha hsat => h a ha hsat hfixed).imp
      fun _ _ _ hexactly a ha _ => hexactly a ha
  · rw [if_neg hfixed]
    exact Sound.pure fun _ _ hfix => absurd hfix hfixed

theorem sound (hs : s.Wf) (hx : x.Ranges Width.value s) (hy : y.Ranges Width.value s)
    (h : (Filter.distinct x y).Granted sat s) :
    Sound sat (filter x y) s fun _ t => Done (.distinct x y) l s t := by
  -- the second half of the filter, after what the first has done
  have hsecond : ∀ t, Reaches sat s t →
      (∀ a, t.Admits a → x.isFixed s = true → y.Removable s (x.lowerBound s) →
        y.exactValue a.int ≠ x.lowerBound s) →
      Sound sat (do
        if ← Filtering.read y.isFixed then
          let value ← Filtering.read y.lowerBound
          Filtering.narrowing (x.removeValue · value)) t
      fun _ u => Done (.distinct x y) l s u := by
    intro t hst hfirst
    have ht := hst.steps.wf hs
    refine (sound_half ht (hx.steps hst.steps hs) fun a ha hsat => (h t hst a ha hsat l).2).imp ?_
    intro _ u htu hdone a ha
    refine ⟨hfirst a (htu.admits ht ha), fun hfix hremovable => ?_⟩
    obtain ⟨hfix', heq⟩ := IntVar.fixed_steps hst.steps hs hfix
    have hne := hdone a ha hfix'
    rw [heq] at hne
    exact hne (hremovable.steps hst.steps hs)
  unfold filter
  refine Sound.bind_read ?_
  by_cases hfixed : x.isFixed s = true
  · simp only [hfixed, if_true]
    refine Sound.bind_read ?_
    have hkeeps := IntVar.removeValue_exactly hs hy.source (x.lowerBound s)
    refine Sound.bind_reaches
      (Sound.narrowing_exactly hkeeps fun a ha hsat => (h.here ha hsat l).1 hfixed) ?_
    exact fun _ t hst hexactly => hsecond t hst fun a ha _ => hexactly a ha
  · simp only [hfixed, Bool.false_eq_true, if_false]
    exact hsecond s (.refl s) fun _ _ hfix => absurd hfix hfixed

theorem judges (hs : s.Wf) (hx : x.Ranges Width.value s) (hy : y.Ranges Width.value s) :
    Judges (fun v => x.exactValue v.int ≠ y.exactValue v.int) s
      (x.isFixed s = true ∧ y.isFixed s = true) (entailment x y s) := by
  have htakes := fun (z : IntVar) (v : Valuation) (hv : s.Admits v) => IntVar.takes_exactValue hv z
  unfold entailment
  split
  next hapart =>
    refine ⟨fun _ v hv => ?_, nofun, nofun⟩
    have hxl := IntVar.lowerBound_le hs hx (htakes x v hv)
    have hxu := IntVar.le_upperBound hs hx (htakes x v hv)
    have hyl := IntVar.lowerBound_le hs hy (htakes y v hv)
    have hyu := IntVar.le_upperBound hs hy (htakes y v hv)
    omega
  next hmeet =>
    split
    next hboth =>
      -- two fixed variables whose bounds meet are equal
      obtain ⟨hfirst, hsecond⟩ := (Bool.and_eq_true ..).mp hboth
      have hfirst' : x.lowerBound s = x.upperBound s := beq_iff_eq.mp hfirst
      have hsecond' : y.lowerBound s = y.upperBound s := beq_iff_eq.mp hsecond
      refine ⟨nofun, fun _ v hv hne => hne ?_, nofun⟩
      rw [IntVar.eq_lowerBound_of_isFixed hs hx hfirst (htakes x v hv),
        IntVar.eq_lowerBound_of_isFixed hs hy hsecond (htakes y v hv)]
      omega
    next hopen =>
      have hundecided : ¬ (x.isFixed s = true ∧ y.isFixed s = true) := fun h =>
        hopen ((Bool.and_eq_true ..).mpr h)
      split
      next hout =>
        obtain ⟨hfixed, hnot⟩ := (Bool.and_eq_true ..).mp hout
        refine ⟨fun _ v hv heq => ?_, nofun, nofun⟩
        rw [← IntVar.eq_lowerBound_of_isFixed hs hx hfixed (htakes x v hv), heq,
          (IntVar.contains_iff hy).mpr (htakes y v hv)] at hnot
        cases hnot
      split
      next hout =>
        obtain ⟨hfixed, hnot⟩ := (Bool.and_eq_true ..).mp hout
        refine ⟨fun _ v hv heq => ?_, nofun, nofun⟩
        rw [← IntVar.eq_lowerBound_of_isFixed hs hy hfixed (htakes y v hv), ← heq,
          (IntVar.contains_iff hx).mpr (htakes x v hv)] at hnot
        cases hnot
      · exact ⟨nofun, nofun, fun hfixed => absurd hfixed hundecided⟩

end Distinct

end FiniteDomain
