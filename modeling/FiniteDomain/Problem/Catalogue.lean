import FiniteDomain.Problem.Chain
import FiniteDomain.Problem.HamiltonianPath
import FiniteDomain.Problem.Queens

/-! # The catalogue of problems

    The problems that come with the library, by name.  The size of a problem is a
    number of 32 bits; read with a sign it has to leave room for a greatest value
    below it. -/

namespace FiniteDomain

/-- A problem of the catalogue. -/
inductive Problem where
  /-- A chain of inequalities. -/
  | chain
  /-- Queens on a board. -/
  | queens
  /-- A path over all nodes. -/
  | hamiltonianPath
deriving DecidableEq, Repr, Inhabited

namespace Problem

/-- The name of a problem. -/
def name : Problem → String
  | .chain => "big-leq"
  | .queens => "queens"
  | .hamiltonianPath => "hamiltonian-path"

/-- All problems. -/
def all : List Problem := [.chain, .queens, .hamiltonianPath]

/-- The problem of a name. -/
def ofName? (name : String) : Option Problem := all.find? (·.name == name)

/-- The greatest value for a size: one less than the size as a number with a sign. -/
def greatestValue (size : Nat) : Except Fault Int :=
  Width.value.checked (Int.bmod size (1 <<< 32) - 1)

/-- Builds the model of a problem of a size. -/
def model {P : Type} [HasFilters P] (problem : Problem) (size : Nat) (strength : Strength) :
    Modelling P Instance :=
  match problem with
  | .chain => do Chain.model size (← Modelling.checked (greatestValue size)) strength
  | .queens => do Queens.model size (← Modelling.checked (greatestValue size)) strength
  | .hamiltonianPath => HamiltonianPath.model size

end Problem

end FiniteDomain
