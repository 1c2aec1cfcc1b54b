import FiniteDomain.Identifier

/-! # Names of variables

    Variables can be given names.  A variable is known by the name it was given
    last, and a name stands for the variable it was given to last. -/

namespace FiniteDomain

/-- The names given to variables. -/
structure Names where
  /-- Variables with their names, the latest first. -/
  newestFirst : List (VariableId × String)
deriving DecidableEq, Repr

namespace Names

/-- No name has been given. -/
def empty : Names := ⟨[]⟩

instance : Inhabited Names := ⟨empty⟩

/-- Gives a name to a variable. -/
def add (names : Names) (v : VariableId) (name : String) : Names :=
  ⟨(v, name) :: names.newestFirst⟩

/-- The name of a variable. -/
def name? (names : Names) (v : VariableId) : Option String :=
  (names.newestFirst.find? (·.1 == v)).map (·.2)

/-- The variable of a name. -/
def owner? (names : Names) (name : String) : Option VariableId :=
  (names.newestFirst.find? (·.2 == name)).map (·.1)

theorem name?_add (names : Names) (v w : VariableId) (name : String) :
    (names.add v name).name? w = if v = w then some name else names.name? w := by
  unfold name? add
  by_cases h : v = w <;> simp [h]

theorem owner?_add (names : Names) (v : VariableId) (name other : String) :
    (names.add v name).owner? other = if name = other then some v else names.owner? other := by
  unfold owner? add
  by_cases h : name = other <;> simp [h]

end Names

end FiniteDomain
