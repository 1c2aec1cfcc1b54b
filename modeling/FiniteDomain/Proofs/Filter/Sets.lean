import FiniteDomain.Proofs.Filter.Demand

/-! # Constraints on sets are filtered

    A run of one of the three filters whose demands are granted refuses nothing
    and loses no valuation of the relation; what is left grants what was
    demanded. -/

namespace FiniteDomain

open Filtering FiniteDomain.Filter

variable {s : Store} {sat : Valuation → Prop} {l : LocalId}

namespace Subset

variable {a b : SetId}

theorem sound (hs : s.Wf) (h : (Filter.subset a b).Granted sat s) :
    Sound sat (filter a b) s fun _ t => Done (.subset a b) l s t := by
  unfold filter
  refine Sound.bind_read ?_
  -- the certain elements of the first set enter the second
  refine Sound.bind_reaches
    (Sound.forM_reaches (D := fun e t => ∀ v, t.Admits v → e ∈ v.set b) ?_ ?_) ?_
  · exact fun e t u hst htu hdone v hv => hdone v (htu.admits (hst.wf hs) hv)
  · intro e he t hst
    have hcertain := (SetDomain.mem_kernelElements (hs.set a)).mp he
    refine Sound.narrowing_exactly (Store.includeElement_keeps (hst.steps.wf hs) b e) ?_
    exact fun v hv hsat => (h.here (hst.steps.admits hs hv) hsat l).1 e hcertain
  intro _ t hst hentered
  have ht := hst.steps.wf hs
  refine Sound.bind_read ?_
  -- the impossible elements of the second set leave the first
  refine (Sound.forM_reaches (D := fun e u => ∀ v, u.Admits v → e ∉ v.set a) ?_ ?_).imp ?_
  · exact fun e u w htu huw hdone v hv => hdone v (huw.admits (htu.wf ht) hv)
  · intro e he u htu
    have hout := (List.mem_filter.mp he).2
    refine Sound.narrowing_exactly (Store.excludeElement_keeps (htu.steps.wf ht) a e) ?_
    intro v hv hsat hin
    rw [(h t hst v (htu.steps.admits ht hv) hsat l).2 e hin] at hout
    cases hout
  · intro _ u htu hleft v hv
    have hv' := htu.admits ht hv
    refine ⟨fun e he => hentered e ((SetDomain.mem_kernelElements (hs.set a)).mpr he) v hv', ?_⟩
    intro e he
    by_contra hout
    have hout' : ¬ (t.set b).inEnvelope e = true :=
      fun hin => hout ((hst.steps.narrower hs).inEnvelope hin)
    refine hleft e (List.mem_filter.mpr ⟨?_, ?_⟩) v hv he
    · exact (SetDomain.mem_envelopeElements (ht.set a)).mpr ((hv'.set a e).2 he)
    · rw [Bool.eq_false_iff.mpr hout']
      rfl

theorem judges (hs : s.Wf) :
    Judges (fun v => v.set a ⊆ v.set b) s ((s.set a).isFixed = true ∧ (s.set b).isFixed = true)
      (entailment a b s) := by
  refine Judges.ite (fun hall v hv e he => ?_) (fun hany v hv hsub => ?_) fun hfixed hnot => ?_
  · have hpossible := (SetDomain.mem_envelopeElements (hs.set a)).mpr ((hv.set a e).2 he)
    exact (hv.set b e).1 (List.all_eq_true.mp hall e hpossible)
  · obtain ⟨e, he, hout⟩ := List.any_eq_true.mp hany
    have hcertain := (SetDomain.mem_kernelElements (hs.set a)).mp he
    have hin := (hv.set b e).2 (hsub ((hv.set a e).1 hcertain))
    rw [hin] at hout
    cases hout
  · -- a possible element of the first set is certain, and one that is not certain in the second is
    -- impossible there
    rw [List.all_eq_true] at hnot
    push Not at hnot
    obtain ⟨e, he, hout⟩ := hnot
    have hcertain := (SetDomain.isFixed_iff (hs.set a)).mp hfixed.1 e
      ((SetDomain.mem_envelopeElements (hs.set a)).mp he)
    refine List.any_eq_true.mpr ⟨e, (SetDomain.mem_kernelElements (hs.set a)).mpr hcertain, ?_⟩
    have himpossible : ¬ (s.set b).inEnvelope e = true := fun hin =>
      hout ((SetDomain.isFixed_iff (hs.set b)).mp hfixed.2 e hin)
    rw [Bool.eq_false_iff.mpr himpossible]
    rfl

end Subset

namespace Disjoint

variable {a b : SetId}

theorem sound_excludeKernel (hs : s.Wf)
    (h : ∀ v, s.Admits v → sat v → ∀ e, (s.set a).inKernel e = true → e ∉ v.set b) :
    Sound sat (excludeKernel a b) s
      fun _ t => ∀ v, t.Admits v → ∀ e, (s.set a).inKernel e = true → e ∉ v.set b := by
  unfold excludeKernel
  refine Sound.bind_read ?_
  refine (Sound.forM_reaches (D := fun e t => ∀ v, t.Admits v → e ∉ v.set b) ?_ ?_).imp ?_
  · exact fun e t u hst htu hdone v hv => hdone v (htu.admits (hst.wf hs) hv)
  · intro e he t hst
    have hcertain := (SetDomain.mem_kernelElements (hs.set a)).mp he
    refine Sound.narrowing_exactly (Store.excludeElement_keeps (hst.steps.wf hs) b e) ?_
    exact fun v hv hsat => h v (hst.steps.admits hs hv) hsat e hcertain
  · exact fun _ _ _ hleft v hv e he =>
      hleft e ((SetDomain.mem_kernelElements (hs.set a)).mpr he) v hv

theorem sound (hs : s.Wf) (h : (Filter.disjoint a b).Granted sat s) :
    Sound sat (filter a b) s fun _ t => Done (.disjoint a b) l s t := by
  unfold filter
  refine Sound.bind_reaches (sound_excludeKernel hs fun v hv hsat => (h.here hv hsat l).1) ?_
  intro _ t hst hfirst
  have ht := hst.steps.wf hs
  refine (sound_excludeKernel ht fun v hv hsat => (h t hst v hv hsat l).2).imp ?_
  intro _ u htu hsecond v hv
  exact ⟨hfirst v (htu.admits ht hv),
    fun e he => hsecond v hv e ((hst.steps.narrower hs).inKernel he)⟩

theorem judges (hs : s.Wf) :
    Judges (fun v => ∀ e ∈ v.set a, e ∉ v.set b) s
      ((s.set a).isFixed = true ∧ (s.set b).isFixed = true) (entailment a b s) := by
  refine Judges.ite (fun hall v hv e he heb => ?_) (fun hany v hv hsat => ?_)
    fun hfixed hnot => ?_
  · have hpossible := (SetDomain.mem_envelopeElements (hs.set a)).mpr ((hv.set a e).2 he)
    have hout := List.all_eq_true.mp hall e hpossible
    rw [(hv.set b e).2 heb] at hout
    cases hout
  · obtain ⟨e, he, hin⟩ := List.any_eq_true.mp hany
    have hcertain := (SetDomain.mem_kernelElements (hs.set a)).mp he
    exact hsat e ((hv.set a e).1 hcertain) ((hv.set b e).1 hin)
  · rw [List.all_eq_true] at hnot
    push Not at hnot
    obtain ⟨e, he, hin⟩ := hnot
    have hcertain := (SetDomain.isFixed_iff (hs.set a)).mp hfixed.1 e
      ((SetDomain.mem_envelopeElements (hs.set a)).mp he)
    have hin' : (s.set b).inEnvelope e = true := by simpa using hin
    exact List.any_eq_true.mpr ⟨e, (SetDomain.mem_kernelElements (hs.set a)).mpr hcertain,
      (SetDomain.isFixed_iff (hs.set b)).mp hfixed.2 e hin'⟩

end Disjoint

namespace Member

variable {x : IntVar} {y : SetId}

/-- The ends of an ascending list bound its members. -/
theorem head_le_and_le_getLast {l : List Int} (h : l.Pairwise (· < ·)) {least greatest : Int}
    (hhead : l.head? = some least) (hlast : l.getLast? = some greatest) :
    ∀ v ∈ l, least ≤ v ∧ v ≤ greatest := by
  intro v hv
  constructor
  · obtain ⟨tail, rfl⟩ := List.head?_eq_some_iff.mp hhead
    rcases List.mem_cons.mp hv with rfl | hv
    · exact Int.le_refl v
    · exact Int.le_of_lt ((List.pairwise_cons.mp h).1 v hv)
  · obtain ⟨init, rfl⟩ := List.getLast?_eq_some_iff.mp hlast
    rcases List.mem_append.mp hv with hv | hv
    · exact Int.le_of_lt ((List.pairwise_append.mp h).2.2 v hv greatest (List.mem_singleton_self _))
    · exact Int.le_of_eq (List.mem_singleton.mp hv)

/-- Between two values with support, a value that can be taken away and has none is taken away. -/
theorem sound_removeUnsupported {u : Store} (hs : s.Wf) (hx : x.Ranges Width.value s)
    (h : (Filter.member x y).Granted sat s) (hsu : Reaches sat s u) (least greatest : Int) :
    Sound sat ((((x.values s).filter (not ∘ (s.set y).inEnvelope)).filter
        fun v => least < v && v < greatest).forM fun v => Filtering.narrowing (x.removeValue · v)) u
      fun _ t => ∀ v, t.Admits v → ∀ k ∈ x.values s, least < k → k < greatest →
        ¬ (s.set y).inEnvelope k = true → x.Removable s k → x.exactValue v.int ≠ k := by
  have hu := hsu.steps.wf hs
  refine (Sound.forM_reaches (D := fun k t => ∀ v, t.Admits v → x.Removable s k →
    x.exactValue v.int ≠ k) ?_ ?_).imp ?_
  · exact fun k t w hut htw hdone v hv => hdone v (htw.admits (hut.wf hu) hv)
  · intro k hk t hut
    have hst := hsu.trans hut
    -- support can only have been lost since the values were listed
    have hunsupported := (List.mem_filter.mp (List.mem_filter.mp hk).1).2
    have hkeeps := IntVar.removeValue_exactly (hst.steps.wf hs) (hx.steps hst.steps hs).source k
    have hout : ¬ (s.set y).inEnvelope k = true := fun hin => by
      simp only [Function.comp, hin] at hunsupported
      cases hunsupported
    refine (Sound.narrowing_exactly hkeeps fun v hv hsat hremovable heq => hout ?_).imp ?_
    · have hin := Belongs.support (h t hst v hv hsat ⟨0⟩) (heq ▸ hremovable)
      rw [heq] at hin
      exact (hst.steps.narrower hs).inEnvelope hin
    · exact fun _ _ _ hexactly v hv hremovable => hexactly v hv (hremovable.steps hst.steps hs)
  · intro _ t _ hdone v hv k hk hlow hhigh hout
    refine hdone k (List.mem_filter.mpr ⟨List.mem_filter.mpr ⟨hk, ?_⟩, ?_⟩) v hv
    · simp only [Function.comp, Bool.eq_false_iff.mpr hout, Bool.not_false]
    · rw [Bool.and_eq_true, decide_eq_true_eq, decide_eq_true_eq]
      exact ⟨hlow, hhigh⟩

/-- The value of a variable that is fixed enters the set. -/
theorem sound_includeFixed {w : Store} (hs : s.Wf) (h : (Filter.member x y).Granted sat s)
    (hsw : Reaches sat s w) :
    Sound sat (do
        if ← Filtering.read x.isFixed then
          let value ← Filtering.read x.lowerBound
          Filtering.narrowing (·.includeElement y value)) w
      fun _ t => x.isFixed s = true → ∀ v, t.Admits v → x.lowerBound s ∈ v.set y := by
  refine Sound.bind_read ?_
  by_cases hfixed : x.isFixed w = true
  · rw [if_pos hfixed]
    refine Sound.bind_read ?_
    have hkeeps := Store.includeElement_keeps (hsw.steps.wf hs) y (x.lowerBound w)
    refine (Sound.narrowing_exactly hkeeps fun v hv hsat =>
      Belongs.fixed (h w hsw v hv hsat ⟨0⟩) hfixed).imp fun _ t _ hexactly hfix v hv => ?_
    rw [← (IntVar.fixed_steps hsw.steps hs hfix).2]
    exact hexactly v hv
  · -- what was fixed before still is
    rw [if_neg hfixed]
    exact Sound.pure fun hfix => absurd (IntVar.fixed_steps hsw.steps hs hfix).1 hfixed

theorem sound (hs : s.Wf) (hx : x.Ranges Width.value s) (hshelters : ∀ n, x.Shelters s n)
    (h : (Filter.member x y).Granted sat s) :
    Sound sat (filter x y) s fun _ t => Done (.member x y) l s t := by
  obtain ⟨hvalues, hascending⟩ := IntVar.values_of_shelters hs hx hshelters
  unfold filter
  refine Sound.bind_read ?_
  rw [List.partition_eq_filter_filter]
  simp only
  -- the values that are possible elements
  have hsupported : ∀ k, k ∈ (x.values s).filter (s.set y).inEnvelope ↔ Supported s x y k := by
    intro k
    rw [List.mem_filter, hvalues, Supported]
  have hsorted : ((x.values s).filter (s.set y).inEnvelope).Pairwise (· < ·) :=
    hascending.filter _
  cases hhead : ((x.values s).filter (s.set y).inEnvelope).head? with
  | none =>
    rw [List.head?_eq_none_iff] at hhead
    refine Sound.refuse fun v hv hsat => ?_
    obtain ⟨k, hk, -⟩ := Belongs.lower (h.here hv hsat l)
    have hmem := (hsupported k).mpr hk
    rw [hhead] at hmem
    exact List.not_mem_nil hmem
  | some least =>
  cases hlast : ((x.values s).filter (s.set y).inEnvelope).getLast? with
  | none =>
    rw [List.getLast?_eq_none_iff] at hlast
    rw [hlast] at hhead
    cases hhead
  | some greatest =>
  simp only
  have hends := head_le_and_le_getLast hsorted hhead hlast
  have hsmallest := (hsupported least).mp (List.mem_of_head? hhead)
  have hlargest := (hsupported greatest).mp (List.mem_of_getLast? hlast)
  -- what is left lies between the ends
  have hfirst := IntVar.tightenLower_keeps hs hx.source least
  refine Sound.bind_reaches (Sound.narrowing_exactly hfirst fun v hv hsat => ?_) ?_
  · obtain ⟨k, hk, hle⟩ := Belongs.lower (h.here hv hsat l)
    exact Int.le_trans (hends k ((hsupported k).mpr hk)).1 hle
  intro _ t hst hleast
  have ht := hst.steps.wf hs
  have hsecond := IntVar.tightenUpper_keeps ht (hx.steps hst.steps hs).source greatest
  refine Sound.bind_reaches (Sound.narrowing_exactly hsecond fun v hv hsat => ?_) ?_
  · obtain ⟨k, hk, hle⟩ := Belongs.upper (h.here (hst.steps.admits hs hv) hsat l)
    exact Int.le_trans hle (hends k ((hsupported k).mpr hk)).2
  intro _ u htu hgreatest
  have hsu := hst.trans htu
  have hu := hsu.steps.wf hs
  -- values without support leave from the middle
  refine Sound.bind_reaches (sound_removeUnsupported hs hx h hsu least greatest) ?_
  intro _ w huw hmiddle
  have hsw := hsu.trans huw
  refine (sound_includeFixed hs h hsw).imp fun _ z hwz hfixed v hv => ?_
  have hw := hwz.admits (hsw.steps.wf hs) hv
  have hlow := hleast v (htu.steps.admits ht (huw.steps.admits hu hw))
  have hhigh := hgreatest v (huw.steps.admits hu hw)
  refine ⟨⟨least, hsmallest, hlow⟩, ⟨greatest, hlargest, hhigh⟩, fun hremovable => ?_,
    fun hfix => hfixed hfix v hv⟩
  by_contra hout
  have htakes := (hvalues _).mpr (IntVar.takes_exactValue (hsw.steps.admits hs hw) x)
  -- the ends themselves have support
  have hne : ∀ k, Supported s x y k → x.exactValue v.int ≠ k :=
    fun k hk heq => hout (heq ▸ hk.2)
  have hne₁ := hne least hsmallest
  have hne₂ := hne greatest hlargest
  exact hmiddle v hw _ htakes (by omega) (by omega) hout hremovable rfl

theorem judges (hs : s.Wf) (hx : x.Ranges Width.value s) (hshelters : ∀ n, x.Shelters s n) :
    Judges (fun v => x.exactValue v.int ∈ v.set y) s
      (x.isFixed s = true ∧ (s.set y).isFixed = true) (entailment x y s) := by
  obtain ⟨hvalues, -⟩ := IntVar.values_of_shelters hs hx hshelters
  refine Judges.ite (fun hcertain v hv => ?_) (fun hall v hv hmem => ?_) fun hfixed hnot => ?_
  · obtain ⟨hfixed, hin⟩ := (Bool.and_eq_true ..).mp hcertain
    rw [IntVar.eq_lowerBound_of_isFixed hs hx hfixed (IntVar.takes_exactValue hv x)]
    exact (hv.set y _).1 hin
  · have hvalue := (hvalues _).mpr (IntVar.takes_exactValue hv x)
    have hout := List.all_eq_true.mp hall _ hvalue
    rw [(hv.set y _).2 hmem] at hout
    cases hout
  · refine List.all_eq_true.mpr fun v hv => ?_
    have hvalue := IntVar.eq_lowerBound_of_isFixed hs hx hfixed.1 ((hvalues v).mp hv)
    have himpossible : ¬ (s.set y).inEnvelope v = true := by
      intro hin
      rw [hvalue] at hin
      have hcertain := (SetDomain.isFixed_iff (hs.set y)).mp hfixed.2 _ hin
      exact hnot ((Bool.and_eq_true ..).mpr ⟨hfixed.1, hcertain⟩)
    rw [Bool.eq_false_iff.mpr himpossible]
    rfl

end Member

end FiniteDomain
