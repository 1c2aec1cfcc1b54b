import FiniteDomain.Proofs.Filter.Demand

/-! # Chains are kept open soundly

    A run removes arcs from the envelope and looks at the kernel only, which it
    leaves alone.  So what it has done at one node is done for good, and nothing
    is left to do in the end (`Open`). -/

namespace FiniteDomain.PathNoCycle

open Filtering FiniteDomain.Filter

variable {g : GraphId} {source sink n : Nat} {s : Store} {sat : Valuation → Prop}

/-! ### Runs -/

theorem kernel_excludeArc (s : Store) (g : GraphId) (m n : Nat) :
    ((s.excludeArc g m n).store.graph g).kernel = (s.graph g).kernel := by
  unfold Store.excludeArc GraphDomain.excludeArc
  split
  · rfl
  split
  · rfl
  by_cases hg : g.index < s.graphs.size
  · show ((s.graphs.modify g.index _).getD g.index default).kernel = _
    rw [Table.getD_modify_self hg]
  · -- a graph that does not exist cannot be changed
    have hnone : ∀ t : Table GraphDomain, t.size ≤ g.index → t.getD g.index default = default :=
      fun t ht => Table.getD_of_size_le ht _
    have hsize := Nat.le_of_not_lt hg
    show ((s.graphs.modify g.index _).getD g.index default).kernel = _
    rw [hnone _ ((Table.size_modify ..).le.trans hsize), Store.graph, hnone _ hsize]

/-- Removing an arc that no valuation of the relation has. -/
theorem sound_excludeArc {m : Nat} (hs : s.Wf)
    (hsat : ∀ v, s.Admits v → sat v → (m, n) ∉ (v.graph g).arcs) :
    Sound sat (narrowing (·.excludeArc g m n)) s fun _ t =>
      (t.graph g).kernel = (s.graph g).kernel ∧ ¬ (t.graph g).envelope.hasArc m n = true := by
  have hkeeps := Store.excludeArc_keeps hs g m n
  refine (Sound.narrowing hkeeps.toObeys hsat).imp fun _ t hsteps hpost => ?_
  obtain ⟨hne, rfl⟩ := hpost
  -- the valuation with the whole envelope is one that the narrowing has kept
  refine ⟨kernel_excludeArc s g m n, fun harc => ?_⟩
  have hwf := hsteps.wf hs
  obtain ⟨v, hv⟩ := hwf.exists_admits
  have hout := hkeeps.exactly hne _ (hv.withGraph (GraphDomain.admits_envelope (hwf.graph g)))
  rw [Valuation.graph_withGraph_self] at hout
  exact hout harc

/-- What a run has removed stays away. -/
theorem envelopeArc_steps {m : Nat} (hs : s.Wf) {t u : Store} (hst : s.Steps t) (htu : t.Steps u)
    (h : ¬ (t.graph g).envelope.hasArc m n = true) : ¬ (u.graph g).envelope.hasArc m n = true :=
  fun harc => h ((htu.narrower (hst.wf hs)).envelopeArc harc)

/-- Removing a list of arcs. -/
theorem sound_excludeArcs {arcs : List Nat} {tail head : Nat → Nat}
    (hs : s.Wf) (hsat : ∀ v, s.Admits v → sat v → ∀ n, (tail n, head n) ∉ (v.graph g).arcs) :
    Sound sat (arcs.forM fun n => narrowing (·.excludeArc g (tail n) (head n))) s fun _ t =>
      (t.graph g).kernel = (s.graph g).kernel
        ∧ ∀ n ∈ arcs, ¬ (t.graph g).envelope.hasArc (tail n) (head n) = true := by
  refine Sound.forM_done (I := fun t => (t.graph g).kernel = (s.graph g).kernel)
    (D := fun n t => ¬ (t.graph g).envelope.hasArc (tail n) (head n) = true)
    (fun n t u hst htu _ _ => envelopeArc_steps hs hst htu) ?_ rfl
  intro n _ t hsteps hkernel
  refine (sound_excludeArc (hsteps.wf hs) fun v hv h =>
    hsat v (hsteps.admits hs hv) h n).imp ?_
  exact fun _ u _ h => ⟨h.1.trans hkernel, h.2⟩

/-- What is left to do at a node. -/
def OpenAt (d : GraphDomain) (n : Nat) : Prop :=
  ¬ d.envelope.hasArc n n = true
    ∧ (Begins d n → ∃ last, chainEnd? d n = some last ∧ ¬ d.envelope.hasArc last n = true)

theorem sound_filterNode (hs : s.Wf) (hn : n < (s.graph g).order)
    (h : (Filter.pathNoCycle g source sink).Granted sat s) :
    Sound sat (filterNode g n) s fun _ t =>
      (t.graph g).kernel = (s.graph g).kernel ∧ OpenAt (t.graph g) n := by
  unfold filterNode
  refine Sound.bind_reaches
    (sound_excludeArc hs fun v hv hsat => Avoids.loop (h.here hv hsat ⟨0⟩) n) ?_
  intro _ t hst hloop
  have ht := hst.steps.wf hs
  have hnt : n < (t.graph g).order := (hst.steps.order g).symm ▸ hn
  refine Sound.bind_read ?_
  show Sound sat (if Begins (t.graph g) n then _ else _) t _
  -- only where a chain begins there is an arc back to exclude
  by_cases hbegins : Begins (t.graph g) n
  swap
  · rw [if_neg hbegins]
    exact Sound.pure ⟨hloop.1, hloop.2, fun h => absurd h hbegins⟩
  rw [if_pos hbegins]
  cases hend : chainEnd? (t.graph g) n with
  | none =>
    refine Sound.refuse fun v hv hsat => ?_
    obtain ⟨last, hlast, -⟩ := Avoids.closing (h t hst v hv hsat ⟨0⟩) n hnt hbegins
    rw [hend] at hlast
    cases hlast
  | some last =>
    refine (sound_excludeArc ht fun v hv hsat => ?_).imp fun _ u htu hpost => ?_
    · obtain ⟨last', hlast, hno⟩ := Avoids.closing (h t hst v hv hsat ⟨0⟩) n hnt hbegins
      rw [hend] at hlast
      exact Option.some.inj hlast ▸ hno
    · refine ⟨hpost.1.trans hloop.1, envelopeArc_steps hs hst.steps htu hloop.2, fun _ => ?_⟩
      refine ⟨last, ?_, hpost.2⟩
      rw [← hend]
      -- the end of the chain is read off the kernel, which is unchanged
      unfold chainEnd?
      rw [hpost.1, htu.order g]

/-- What a run has done at a node stays done as long as the kernel stays. -/
theorem OpenAt.narrower {t : Store} (h : OpenAt (s.graph g) n) (hst : s.Narrower t)
    (hkernel : (t.graph g).kernel = (s.graph g).kernel) : OpenAt (t.graph g) n := by
  refine ⟨fun harc => h.1 (hst.envelopeArc harc), fun hbegins => ?_⟩
  have hbegins' : Begins (s.graph g) n := by
    unfold Begins at hbegins ⊢
    rwa [← hkernel]
  obtain ⟨last, hlast, hno⟩ := h.2 hbegins'
  refine ⟨last, ?_, fun harc => hno (hst.envelopeArc harc)⟩
  rw [← hlast]
  unfold chainEnd?
  rw [hkernel, hst.order g]

/-- All nodes, one after another. -/
theorem sound_filterNodes {nodes : List Nat} (hs : s.Wf)
    (hnodes : ∀ n ∈ nodes, n < (s.graph g).order)
    (h : (Filter.pathNoCycle g source sink).Granted sat s) :
    Sound sat (nodes.forM (filterNode g)) s fun _ t =>
      (t.graph g).kernel = (s.graph g).kernel ∧ ∀ n ∈ nodes, OpenAt (t.graph g) n := by
  refine Sound.forM_reaches_done (I := fun t => (t.graph g).kernel = (s.graph g).kernel)
    (D := fun n t => OpenAt (t.graph g) n) ?_ ?_ rfl
  · intro n t u hst htu hfirst hlast hdone
    exact hdone.narrower (htu.narrower (hst.wf hs)) (hlast.trans hfirst.symm)
  · intro n hn t hst hkernel
    refine (sound_filterNode (hst.steps.wf hs) ((hst.steps.order g).symm ▸ hnodes n hn)
      (h.reaches hst)).imp fun _ u _ hpost => ⟨hpost.1.trans hkernel, hpost.2⟩

/-- A run leaves the kernel alone and nothing to do. -/
theorem sound (hs : s.Wf) (hr : (Filter.pathNoCycle g source sink).Ready s)
    (h : (Filter.pathNoCycle g source sink).Granted sat s) :
    Sound sat (filter g source sink) s fun _ t =>
      (t.graph g).kernel = (s.graph g).kernel
        ∧ Avoids (t.graph g) source sink fun m n => (t.graph g).envelope.hasArc m n = true := by
  obtain ⟨hsource, hsink⟩ := hr.ends g source sink rfl
  unfold filter
  refine Sound.bind_read ?_
  rw [if_neg (Nat.not_le.mpr hsource)]
  refine Sound.bind_read ?_
  -- the arcs into the source, those out of the sink, then node by node, and the cycle test last
  refine Sound.bind_reaches
    (sound_excludeArcs hs fun v hv hsat => Avoids.source (h.here hv hsat ⟨0⟩)) ?_
  intro _ t hst hinto
  have ht := hst.steps.wf hs
  rw [if_neg (Nat.not_le.mpr hsink)]
  refine Sound.bind_read ?_
  refine Sound.bind_reaches
    (sound_excludeArcs ht fun v hv hsat => Avoids.sink (h t hst v hv hsat ⟨0⟩)) ?_
  intro _ u htu hout
  have hu := htu.steps.wf ht
  have hsu := hst.trans htu
  refine Sound.bind_reaches (sound_filterNodes hu ?_ (h.reaches hsu)) ?_
  · intro n hn
    rw [hsu.steps.order]
    exact List.mem_range.mp hn
  intro _ v huv hnodes
  have hv := huv.steps.wf hu
  have hsv := hsu.trans huv
  refine Sound.bind_read ?_
  cases hcycle : hasKernelCycle (v.graph g) with
  | true =>
    refine Sound.refuse fun a ha hsat => ?_
    rw [Avoids.acyclic (h v hsv a ha hsat ⟨0⟩)] at hcycle
    cases hcycle
  | false =>
    refine Sound.pure ⟨hnodes.1.trans (hout.1.trans hinto.1), fun n harc => ?_, fun n harc => ?_,
      fun n harc => ?_, fun n hn hbegins => ?_, hcycle⟩
    · have hfirst := (hsv.steps.narrower hs).envelopeArc harc
      exact hinto.2 n ((hs.graph g).envelope.mem_predecessorsOf.mpr hfirst)
        (((htu.trans huv).steps.narrower ht).envelopeArc harc)
    · have hfirst := ((htu.trans huv).steps.narrower ht).envelopeArc harc
      exact hout.2 n ((ht.graph g).envelope.mem_successorsOf.mpr hfirst)
        ((huv.steps.narrower hu).envelopeArc harc)
    · have hn := ((hv.graph g).envelope.lt_of_hasArc harc).1
      exact (hnodes.2 n (List.mem_range.mpr (hsv.steps.order g ▸ hn))).1 harc
    · exact (hnodes.2 n (List.mem_range.mpr (hsv.steps.order g ▸ hn))).2 hbegins

end FiniteDomain.PathNoCycle
