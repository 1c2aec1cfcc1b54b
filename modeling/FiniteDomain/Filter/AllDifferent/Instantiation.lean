import FiniteDomain.Filter.AllDifferent.Basic

/-! # All different, by assigned values

    The weak filter for *all different*: the value of a fixed variable is removed
    from all others.  A variable that becomes fixed on the way is put on a stack
    of positions whose value has still to be removed. -/

namespace FiniteDomain.AllDifferent

/-- Removes the value of position `i` from the variables at all other positions and pushes the
    positions that become fixed. -/
def strike (vars : List IntVar) (i : Nat) (value : Int) (stack : List Nat) :
    Filtering (List Nat) :=
  vars.zipIdx.foldlM
    (fun stack (x, j) => do
      if j = i then return stack
      let before ← Filtering.read (x.isFixed)
      Filtering.narrowing (x.removeValue · value)
      let after ← Filtering.read (x.isFixed)
      return if !before && after then j :: stack else stack)
    stack

/-- Removes the values of all positions on the stack, at most `fuel` of them. -/
def settle (vars : List IntVar) : (fuel : Nat) → (stack : List Nat) → Filtering Unit
  | _, [] => pure ()
  | 0, _ :: _ => Filtering.fault .outOfFuel
  | fuel + 1, i :: stack => do
    match vars[i]? with
    | none => Filtering.fault .indexOutOfBounds
    | some x => do
      let value ← Filtering.read x.lowerBound
      settle vars fuel (← strike vars i value stack)

/-- Removes the values of all positions on the stack: each variable becomes fixed at most
    once, so at most `vars.length` positions are pushed. -/
def settleAll (vars : List IntVar) (stack : List Nat) : Filtering Unit :=
  settle vars (stack.length + vars.length) stack

/-- Removes the value of every fixed variable from all others. -/
def byValue (vars : List IntVar) : Filtering Unit := do
  let fixed ← Filtering.read fun s =>
    (vars.zipIdx.filter fun (x, _) => x.isFixed s).map (·.2)
  settleAll vars fixed.reverse

/-- Removes the value of the variable at a position that has become fixed. -/
def byValueAt (vars : List IntVar) (i : Nat) : Filtering Unit := settleAll vars [i]

end FiniteDomain.AllDifferent
