/-! # Identifiers

    Variables and propagators are numbered from zero, each kind for itself, in
    the order in which they are created.  In texts the number follows the letter
    of the kind: `x0`, `s0`, `g0`. -/

namespace FiniteDomain

/-- An integer variable. -/
structure IntId where
  /-- Its number among the integer variables. -/
  index : Nat
deriving DecidableEq, Repr, Inhabited

/-- A set variable. -/
structure SetId where
  /-- Its number among the set variables. -/
  index : Nat
deriving DecidableEq, Repr, Inhabited

/-- A graph variable. -/
structure GraphId where
  /-- Its number among the graph variables. -/
  index : Nat
deriving DecidableEq, Repr, Inhabited

/-- A variable of any kind. -/
inductive VariableId where
  /-- An integer variable. -/
  | int (x : IntId)
  /-- A set variable. -/
  | set (s : SetId)
  /-- A graph variable. -/
  | graph (g : GraphId)
deriving DecidableEq, Repr, Inhabited

/-- A posted propagator. -/
structure PropagatorId where
  /-- Its number among the propagators. -/
  index : Nat
deriving DecidableEq, Repr, Inhabited

/-- The position of a variable in the scope of a propagator. -/
structure LocalId where
  /-- The position. -/
  index : Nat
deriving DecidableEq, Repr, Inhabited

instance : ToString IntId := ⟨fun x => s!"x{x.index}"⟩
instance : ToString SetId := ⟨fun s => s!"s{s.index}"⟩
instance : ToString GraphId := ⟨fun g => s!"g{g.index}"⟩

instance : ToString VariableId where
  toString
    | .int x => toString x
    | .set s => toString s
    | .graph g => toString g

instance : ToString PropagatorId := ⟨fun p => s!"PropagatorId({p.index})"⟩
instance : ToString LocalId := ⟨fun l => toString l.index⟩

end FiniteDomain
