import FiniteDomain.Branching.Branch
import FiniteDomain.Proofs.Variable.Narrowing

/-! # What decisions mean

    A decision holds of some valuations and not of others.  Carrying it out keeps
    those of which it holds (`apply_obeys`), and it leaves only those
    (`apply_keeps`), unless it takes a value out of the middle of a bounded
    domain. -/

namespace FiniteDomain.Decision

variable {s t : Store} {d : Decision}

/-- The decision holds of the valuation. -/
def Holds : Decision → Valuation → Prop
  | .impose p, a => p.Holds a.int
  | .includeElement y e, a => e ∈ a.set y
  | .excludeElement y e, a => e ∉ a.set y
  | .includeNode g n, a => n ∈ (a.graph g).nodes
  | .excludeNode g n, a => n ∉ (a.graph g).nodes
  | .includeArc g tail head, a => (tail, head) ∈ (a.graph g).arcs
  | .excludeArc g tail head, a => (tail, head) ∉ (a.graph g).arcs

/-- The decision can be carried out: its variable exists, and so does the node it is about. -/
def Known (d : Decision) (s : Store) : Prop := d.request.check s = .ok ()

theorem run_eq (h : d.Known s) : d.request.run s = .ok (d.apply s) := by
  unfold Narrowing.run
  rw [h]
  rfl

/-- The decision does not take a value out of the middle of a bounded domain. -/
def Sharp (d : Decision) (s : Store) : Prop :=
  ∀ x k, d = .impose (.differs x k) →
    (s.int x).isEnumerated = true ∨ ¬ ((s.int x).lower < k ∧ k < (s.int x).upper)

/-- Whether a decision can be carried out depends on the variables and the orders of the
    graphs. -/
theorem check_congr (request : Narrowing) (hknows : ∀ v, t.knows v = s.knows v)
    (horder : ∀ g, (t.graph g).order = (s.graph g).order) : request.check t = request.check s := by
  have hrequire : ∀ v, t.require v = s.require v := fun v => by
    unfold Store.require
    rw [hknows]
  have hsubject : request.subject?.forM t.require = request.subject?.forM s.require := by
    cases request.subject? with
    | none => rfl
    | some v => exact hrequire v
  unfold Narrowing.check
  rw [hsubject]
  cases request with
  | excludeNode g n => simp only [horder]
  | includeNode g n => simp only [horder]
  | _ => rfl

theorem Known.steps (h : d.Known s) (hst : s.Steps t) : d.Known t :=
  (check_congr d.request hst.knows hst.order).trans h

theorem apply_keeps (hs : s.Wf) (h : d.Sharp s) : (d.apply s).Keeps s d.Holds := by
  cases d with
  | includeElement y e => exact Store.includeElement_keeps hs y e
  | excludeElement y e => exact Store.excludeElement_keeps hs y e
  | includeNode g n => exact Store.includeNode_keeps hs g n
  | excludeNode g n => exact Store.excludeNode_keeps hs g n
  | includeArc g tail head => exact Store.includeArc_keeps hs g tail head
  | excludeArc g tail head => exact Store.excludeArc_keeps hs g tail head
  | impose p =>
    cases p with
    | atLeast x k => exact Store.tightenLower_keeps hs x k
    | atMost x k => exact Store.tightenUpper_keeps hs x k
    | differs x k => exact Store.removeValue_keeps hs (h x k rfl)
    | equals x k => exact Store.instantiate_keeps hs x k
    | always => exact Narrowed.keeps_always fun _ _ => trivial
    | never => exact Narrowed.keeps_never fun _ _ hfalse => hfalse

theorem apply_obeys (hs : s.Wf) (d : Decision) : (d.apply s).Obeys s d.Holds := by
  by_cases hsharp : d.Sharp s
  · exact (apply_keeps hs hsharp).toObeys
  · cases d with
    | impose p => exact Store.impose_obeys hs p
    | _ =>
      refine absurd ?_ hsharp
      intro x k heq
      cases heq

end FiniteDomain.Decision
