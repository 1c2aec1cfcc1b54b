import FiniteDomain.Proofs.Filter.Meaning
import Mathlib.Logic.Relation

/-! # Walks along certain arcs

    A walk along arcs without a cycle ends before it has met every node twice
    (`isSome_walk`); so a walk that does not end betrays a cycle, and the arc from
    the last node of a chain to its first would close one.  `Avoids` lists what a
    graph has to avoid for that. -/

namespace FiniteDomain.PathNoCycle

open FiniteDomain.Filter

/-! ### Walks -/

section Walk

variable {next : Nat → Option Nat} {R : Nat → Nat → Prop} {start steps current last order : Nat}

theorem reaches_of_walk (hnext : ∀ m n, next m = some n → R m n)
    (h : walk next start steps current = some last) : Relation.ReflTransGen R current last := by
  induction steps generalizing current with
  | zero => cases h
  | succ steps ih =>
    unfold walk at h
    split at h
    next => exact Option.some.inj h ▸ .refl
    next n hn =>
      split at h
      · cases h
      · exact .head (hnext _ _ hn) (ih h)

/-- Without a cycle a walk ends: the nodes behind it differ from one another and from the one
    that it has come to, so after as many steps as there are nodes there is none left. -/
theorem isSome_walk
    (hnext : ∀ m n, Relation.ReflTransGen R start m → next m = some n → R m n)
    (hacyclic : ∀ n, ¬ Relation.TransGen R n n) (hlt : ∀ m n, R m n → n < order)
    (visited : List Nat) (hnodup : visited.Nodup)
    (hvisited : ∀ v ∈ visited, v < order ∧ Relation.TransGen R v current)
    (hcurrent : current < order) (henough : order ≤ steps + visited.length)
    (hstart : Relation.ReflTransGen R start current) :
    (walk next start steps current).isSome = true := by
  have hfresh : current ∉ visited := fun hmem => hacyclic current (hvisited current hmem).2
  induction steps generalizing current visited with
  | zero =>
    -- the nodes of the walk are distinct, so that there are not more of them than the order
    have hsub : current :: visited ⊆ List.range order := by
      intro v hv
      rcases List.mem_cons.mp hv with rfl | hv
      · exact List.mem_range.mpr hcurrent
      · exact List.mem_range.mpr (hvisited v hv).1
    have hlength := (List.subperm_of_subset (List.nodup_cons.mpr ⟨hfresh, hnodup⟩) hsub).length_le
    rw [List.length_range, List.length_cons] at hlength
    omega
  | succ steps ih =>
    unfold walk
    split
    next => rfl
    next n hn =>
      have hstep := hnext current n hstart hn
      by_cases heq : n = start
      · subst heq
        exact absurd (Relation.TransGen.tail' hstart hstep) (hacyclic n)
      rw [if_neg heq]
      have hreach : ∀ v ∈ current :: visited, v < order ∧ Relation.TransGen R v n := by
        intro v hv
        rcases List.mem_cons.mp hv with rfl | hv
        · exact ⟨hcurrent, .single hstep⟩
        · exact ⟨(hvisited v hv).1, (hvisited v hv).2.tail hstep⟩
      refine ih (current :: visited) (List.nodup_cons.mpr ⟨hfresh, hnodup⟩) hreach
        (hlt _ _ hstep) ?_ (hstart.tail hstep) ?_
      · rw [List.length_cons]
        omega
      · exact fun hmem => hacyclic n (hreach n hmem).2

end Walk

variable {d d' : GraphDomain} {g : GraphId} {source sink n last : Nat} {s t : Store}

/-! ### Chains -/

/-- Two nodes joined by a certain arc. -/
def Certain (d : GraphDomain) (m n : Nat) : Prop := d.kernel.hasArc m n = true

theorem certain_of_successor (hd : d.Wf) {m : Nat}
    (h : (d.kernel.successorsOf m).head? = some n) : Certain d m n :=
  hd.kernel.mem_successorsOf.mp (List.mem_of_mem_head? (Option.mem_def.mpr h))

theorem certain_of_predecessor (hd : d.Wf) {m : Nat}
    (h : (d.kernel.predecessorsOf m).head? = some n) : Certain d n m :=
  hd.kernel.mem_predecessorsOf.mp (List.mem_of_mem_head? (Option.mem_def.mpr h))

theorem reaches_chainEnd (hd : d.Wf) (h : chainEnd? d n = some last) :
    Relation.ReflTransGen (Certain d) n last :=
  reaches_of_walk (fun _ _ => certain_of_successor hd) h

theorem isSome_chainEnd? (hd : d.Wf) (hacyclic : ∀ n, ¬ Relation.TransGen (Certain d) n n)
    (hn : n < d.order) : (chainEnd? d n).isSome = true :=
  isSome_walk (fun _ _ _ => certain_of_successor hd) hacyclic
    (fun _ _ h => (hd.kernel.lt_of_hasArc h).2) [] List.nodup_nil (fun _ h => absurd h List.not_mem_nil)
    hn (Nat.le_add_right _ _) .refl

/-- Without a cycle of certain arcs none is found. -/
theorem hasKernelCycle_eq_false (hd : d.Wf)
    (hacyclic : ∀ n, ¬ Relation.TransGen (Certain d) n n) : hasKernelCycle d = false := by
  refine Bool.eq_false_iff.mpr fun hcycle => ?_
  obtain ⟨n, hn, hnode⟩ := List.any_eq_true.mp hcycle
  rw [Bool.and_eq_true, Option.isNone_iff_eq_none] at hnode
  have hback : ∀ n, ¬ Relation.TransGen (Function.swap (Certain d)) n n := fun n h =>
    hacyclic n (Relation.transGen_swap.mp h)
  have hsome : (chainStart? d n).isSome = true :=
    isSome_walk (R := Function.swap (Certain d)) (fun _ _ _ => certain_of_predecessor hd) hback
      (fun _ _ h => (hd.kernel.lt_of_hasArc h).1) [] List.nodup_nil
      (fun _ h => absurd h List.not_mem_nil) (List.mem_range.mp hn) (Nat.le_add_right _ _) .refl
  rw [hnode.2] at hsome
  cases hsome

/-- The node begins a chain of certain arcs. -/
abbrev Begins (d : GraphDomain) (n : Nat) : Prop :=
  (!(d.kernel.successorsOf n).isEmpty && (d.kernel.predecessorsOf n).isEmpty) = true

/-! ### What is not allowed -/

/-- No arc of the graph enters the source, leaves the sink, is a loop or leads from the end of a
    chain of the domain to its beginning. -/
structure Avoids (d : GraphDomain) (source sink : Nat) (arc : Nat → Nat → Prop) : Prop where
  source : ∀ n, ¬ arc n source
  sink : ∀ n, ¬ arc sink n
  loop : ∀ n, ¬ arc n n
  /-- Every chain has an end, and it is not closed. -/
  closing : ∀ n, n < d.order → Begins d n → ∃ last, chainEnd? d n = some last ∧ ¬ arc last n
  /-- No cycle is found. -/
  acyclic : hasKernelCycle d = false

/-- A path avoids all of these. -/
theorem PathsOnly.avoids {c : Subgraph} (h : PathsOnly source sink c) (hd : d.Wf)
    (hc : d.Admits c) : Avoids d source sink fun m n => (m, n) ∈ c.arcs := by
  have hacyclic : ∀ n, ¬ Relation.TransGen (Certain d) n n := fun n hcycle =>
    h.acyclic n (Relation.TransGen.mono (fun m k hmk => hc.kernelArcs m k hmk) _ _ hcycle)
  refine ⟨h.source, h.sink, fun n hn => h.acyclic n (.single hn), fun n hn _ => ?_,
    hasKernelCycle_eq_false hd hacyclic⟩
  obtain ⟨last, hlast⟩ := Option.isSome_iff_exists.mp (isSome_chainEnd? hd hacyclic hn)
  refine ⟨last, hlast, fun harc => h.acyclic n (.tail' ?_ harc)⟩
  exact Relation.ReflTransGen.mono (fun m k hmk => hc.kernelArcs m k hmk) _ _
    (reaches_chainEnd hd hlast)

/-- Nothing is left for a run to remove. -/
def Open (d : GraphDomain) (source sink : Nat) : Prop :=
  Avoids d source sink fun m n => d.envelope.hasArc m n = true

/-- Only the order and the kernel of the domain matter. -/
theorem Avoids.congr {arc arc' : Nat → Nat → Prop} (h : Avoids d source sink arc)
    (horder : d'.order = d.order) (hkernel : d'.kernel = d.kernel)
    (harc : ∀ m n, arc' m n → arc m n) : Avoids d' source sink arc' := by
  have hend : ∀ n, chainEnd? d' n = chainEnd? d n := by
    intro n
    unfold chainEnd?
    rw [horder, hkernel]
  have hcycle : hasKernelCycle d' = hasKernelCycle d := by
    unfold hasKernelCycle chainStart?
    rw [horder, hkernel]
  refine ⟨fun n hn => h.source n (harc _ _ hn), fun n hn => h.sink n (harc _ _ hn),
    fun n hn => h.loop n (harc _ _ hn), fun n hn hbegins => ?_, hcycle.trans h.acyclic⟩
  have hbegins' : Begins d n := by
    unfold Begins at hbegins ⊢
    rwa [hkernel] at hbegins
  obtain ⟨last, hlast, hno⟩ := h.closing n (horder ▸ hn) hbegins'
  exact ⟨last, (hend n).trans hlast, fun hn' => hno (harc _ _ hn')⟩

end FiniteDomain.PathNoCycle
