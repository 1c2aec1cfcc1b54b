/-! # Measures of a search

    What a solver counts while it searches, over all searches it has made. -/

namespace FiniteDomain

/-- Counters of a search. -/
structure Measures where
  /-- The number of decisions carried out. -/
  nodes : Nat
  /-- The number of decisions that led to a contradiction, and of contradictions at the root. -/
  fails : Nat
  /-- The number of times the search went back. -/
  backtracks : Nat
  /-- The number of solutions found. -/
  solutions : Nat
  /-- The greatest number of open levels. -/
  peakDepth : Nat
  /-- The time spent, in milliseconds; no time passes in a pure computation. -/
  milliseconds : Nat
deriving DecidableEq, Repr

namespace Measures

/-- Nothing has been counted. -/
def zero : Measures := ⟨0, 0, 0, 0, 0, 0⟩

instance : Inhabited Measures := ⟨zero⟩

/-- The counters with their names, in the order in which they are reported. -/
def statistics (m : Measures) : List (String × Nat) :=
  [("num_nodes", m.nodes), ("num_fails", m.fails), ("num_backtracks", m.backtracks),
   ("num_solutions", m.solutions), ("peak_depth", m.peakDepth),
   ("time_spent_in_solver_ms", m.milliseconds)]

end Measures

end FiniteDomain
