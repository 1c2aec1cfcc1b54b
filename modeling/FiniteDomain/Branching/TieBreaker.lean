import FiniteDomain.Width

/-! # Tie breakers

    A tie breaker is shown candidates with their keys, one after the other, and
    keeps the one with the least (or greatest) key; of several candidates with
    the same key the first is kept. -/

namespace FiniteDomain

/-- Which key is best. -/
inductive Extremum where
  /-- The greatest. -/
  | maximum
  /-- The least. -/
  | minimum
deriving DecidableEq, Repr, Inhabited

/-- The name of a direction. -/
def Extremum.name : Extremum → String
  | .maximum => "Maximum"
  | .minimum => "Minimum"

/-- Key `a` is better than key `b`. -/
def Extremum.better (e : Extremum) (a b : Int) : Bool :=
  match e with
  | .maximum => decide (b < a)
  | .minimum => decide (a < b)

/-- The best candidate so far. -/
structure TieBreaker (α : Type u) where
  /-- The candidate and its key. -/
  best? : Option (α × Int)
  /-- Which key is best. -/
  direction : Extremum
deriving Repr

namespace TieBreaker

variable {α : Type u}

/-- No candidate has been shown. -/
def new (direction : Extremum) : TieBreaker α := ⟨none, direction⟩

/-- Shows a candidate. -/
def consider (t : TieBreaker α) (candidate : α) (key : Int) : TieBreaker α :=
  match t.best? with
  | none => { t with best? := some (candidate, key) }
  | some (_, best) =>
    if t.direction.better key best then { t with best? := some (candidate, key) } else t

/-- The best candidate, and the tie breaker without any. -/
def select (t : TieBreaker α) : Option α × TieBreaker α :=
  (t.best?.map (·.1), { t with best? := none })

/-- The first of the candidates whose key is best. -/
def choose (direction : Extremum) (key : α → Int) (candidates : List α) : Option α :=
  (candidates.foldl (fun t c => t.consider c (key c)) (new direction)).select.1

end TieBreaker

end FiniteDomain
