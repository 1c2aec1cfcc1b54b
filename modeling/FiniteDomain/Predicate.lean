import FiniteDomain.Identifier

/-! # Predicates

    A predicate is an elementary statement about one integer variable, or one of
    the two constants.  Predicates are what searches decide and what objective
    cuts demand. -/

namespace FiniteDomain

/-- A statement about at most one integer variable. -/
inductive Predicate where
  /-- The variable is at least the constant. -/
  | atLeast (x : IntId) (k : Int)
  /-- The variable is at most the constant. -/
  | atMost (x : IntId) (k : Int)
  /-- The variable differs from the constant. -/
  | differs (x : IntId) (k : Int)
  /-- The variable equals the constant. -/
  | equals (x : IntId) (k : Int)
  /-- The statement that holds always. -/
  | always
  /-- The statement that holds never. -/
  | never
deriving DecidableEq, Repr, Inhabited

namespace Predicate

/-- The predicate under an assignment of values. -/
def Holds (value : IntId → Int) : Predicate → Prop
  | .atLeast x k => k ≤ value x
  | .atMost x k => value x ≤ k
  | .differs x k => value x ≠ k
  | .equals x k => value x = k
  | .always => True
  | .never => False

/-- The variable that the predicate is about. -/
def subject? : Predicate → Option IntId
  | .atLeast x _ | .atMost x _ | .differs x _ | .equals x _ => some x
  | .always | .never => none

instance : ToString Predicate where
  toString
    | .atLeast x k => s!"[{x} >= {k}]"
    | .atMost x k => s!"[{x} <= {k}]"
    | .differs x k => s!"[{x} != {k}]"
    | .equals x k => s!"[{x} == {k}]"
    | .always => "[true]"
    | .never => "[false]"

end Predicate

end FiniteDomain
