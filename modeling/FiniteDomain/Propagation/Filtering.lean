import FiniteDomain.Narrowing

/-! # Filtering

    A filter narrows the domains of a store step by step.  `Filtering` is the
    monad of such programs: the store is its state, a refusal ends the program
    and leaves the narrowings made so far in place, and a fault ends everything.

    `Entailment` is what a propagator can say about the contents that are left:
    all of them satisfy the constraint, none does, or it does not know. -/

namespace FiniteDomain

/-- Why a filter gives up. -/
inductive Refusal where
  /-- A narrowing would have left a domain empty. -/
  | emptyDomain
  /-- The filter itself has found that no content satisfies its constraint. -/
  | inconsistent
deriving DecidableEq, Repr, Inhabited

/-- A program that narrows the domains of a store. -/
abbrev Filtering : Type → Type := ExceptT Refusal (StateT Store (Except Fault))

namespace Filtering

/-- Reads the store. -/
def read (view : Store → α) : Filtering α := do return view (← get)

/-- Performs a narrowing and tells whether it changed anything; a domain that would become
    empty is the given refusal. -/
def narrowOr (refusal : Refusal) (narrowing : Store → Narrowed) : Filtering Bool := do
  let changed? ← modifyGet fun s =>
    let narrowed := narrowing s
    (narrowed.changed?, narrowed.store)
  match changed? with
  | none => throw refusal
  | some changed => return changed

/-- Performs a narrowing. -/
def narrowing (narrowing : Store → Narrowed) : Filtering Unit := do
  let _ ← narrowOr .emptyDomain narrowing

/-- Finds that the constraint cannot be satisfied. -/
def refuse : Filtering α := throw .inconsistent

/-- Ends in a fault. -/
def fault (f : Fault) : Filtering α := liftM (n := Filtering) (Except.error f : Except Fault α)

/-- The value of a checked computation. -/
def checked (result : Except Fault α) : Filtering α := liftM (n := Filtering) result

/-- Makes sure that the variables exist. -/
def require (vs : List VariableId) : Filtering Unit :=
  vs.forM fun v => do
    let s ← get
    checked (s.require v)

/-- Runs a program on a store: the verdict and the store that is left, or a fault. -/
def runOn (program : Filtering α) (s : Store) : Except Fault (Except Refusal α × Store) :=
  program.run.run s

end Filtering

/-- What is known about the contents that are left. -/
inductive Entailment where
  /-- All of them satisfy the constraint. -/
  | holds
  /-- None of them satisfies the constraint. -/
  | fails
  /-- Not decided. -/
  | undecided
deriving DecidableEq, Repr, Inhabited

end FiniteDomain
