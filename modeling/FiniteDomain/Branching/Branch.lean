import FiniteDomain.Narrowing

/-! # Decisions and branches

    A decision is an elementary restriction of one variable.  A branch is a list
    of at least two decisions, which a search tries one after the other. -/

namespace FiniteDomain

/-- An elementary restriction that a search can try. -/
inductive Decision where
  /-- A predicate holds. -/
  | impose (p : Predicate)
  /-- An element belongs to a set. -/
  | includeElement (y : SetId) (e : Int)
  /-- An element does not belong to a set. -/
  | excludeElement (y : SetId) (e : Int)
  /-- A node belongs to a graph. -/
  | includeNode (g : GraphId) (n : Nat)
  /-- A node does not belong to a graph. -/
  | excludeNode (g : GraphId) (n : Nat)
  /-- An arc belongs to a graph. -/
  | includeArc (g : GraphId) (tail head : Nat)
  /-- An arc does not belong to a graph. -/
  | excludeArc (g : GraphId) (tail head : Nat)
deriving DecidableEq, Repr, Inhabited

namespace Decision

/-- The narrowing that carries out the decision. -/
def request : Decision → Narrowing
  | .impose p => .impose p
  | .includeElement y e => .includeElement y e
  | .excludeElement y e => .excludeElement y e
  | .includeNode g n => .includeNode g n
  | .excludeNode g n => .excludeNode g n
  | .includeArc g tail head => .includeArc g tail head
  | .excludeArc g tail head => .excludeArc g tail head

/-- Carries out the decision. -/
def apply (d : Decision) (s : Store) : Narrowed := d.request.apply s

instance : ToString Decision where
  toString
    | .impose p => toString p
    | .includeElement y e => s!"[{e} in {y}]"
    | .excludeElement y e => s!"[{e} notin {y}]"
    | .includeNode g n => s!"[node {n} in {g}]"
    | .excludeNode g n => s!"[node {n} notin {g}]"
    | .includeArc g tail head => s!"[({tail}, {head}) in {g}]"
    | .excludeArc g tail head => s!"[({tail}, {head}) notin {g}]"

/-- The decision written out with the names of its parts. -/
def detail : Decision → String
  | .impose p => s!"Integer({p})"
  | .includeElement y e => s!"Include \x7b set: {y}, element: {e} \x7d"
  | .excludeElement y e => s!"Exclude \x7b set: {y}, element: {e} \x7d"
  | .includeNode g n => s!"NodeIn \x7b graph: {g}, node: {n} \x7d"
  | .excludeNode g n => s!"NodeOut \x7b graph: {g}, node: {n} \x7d"
  | .includeArc g tail head => s!"ArcIn \x7b graph: {g}, from: {tail}, to: {head} \x7d"
  | .excludeArc g tail head => s!"ArcOut \x7b graph: {g}, from: {tail}, to: {head} \x7d"

end Decision

/-- At least two decisions, to be tried in order. -/
structure Branch where
  /-- The decisions. -/
  alternatives : List Decision
  /-- There is a choice. -/
  two_le_length : 2 ≤ alternatives.length
deriving DecidableEq, Repr

namespace Branch

/-- The branch with two alternatives. -/
def binary (first second : Decision) : Branch := ⟨[first, second], Nat.le_refl 2⟩

instance : Inhabited Branch := ⟨binary default default⟩

/-- The branch with the listed alternatives; fewer than two are a fault. -/
def ofList (alternatives : List Decision) : Except Fault Branch :=
  if h : 2 ≤ alternatives.length then .ok ⟨alternatives, h⟩
  else .error (.tooFewAlternatives (alternatives.map Decision.detail))

end Branch

end FiniteDomain
