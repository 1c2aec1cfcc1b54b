import FiniteDomain.Propagation.Propagator

/-! # All different

    The variables of a list take pairwise different values.  What can be said
    without filtering, for both strengths: the constraint fails once two fixed
    variables agree, and holds once all variables are fixed and differ. -/

namespace FiniteDomain.AllDifferent

/-- The values of the variables that are fixed. -/
def fixedValues (vars : List IntVar) (s : Store) : List Int :=
  (vars.filter (·.isFixed s)).map (·.lowerBound s)

/-- What is known about the contents that are left. -/
def entailment (vars : List IntVar) (s : Store) : Entailment :=
  let fixed := fixedValues vars s
  if fixed.eraseDups.length < fixed.length then .fails
  else if fixed.length = vars.length then .holds
  else .undecided

end FiniteDomain.AllDifferent
