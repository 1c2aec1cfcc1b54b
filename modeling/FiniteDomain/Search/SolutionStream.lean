import FiniteDomain.Search.Solution

/-! # Streams of solutions

    A stream hands out the solutions of a model one by one.  If the limit
    stops it, it can be asked again and goes on from there.  When the solutions
    are exhausted it goes back to the root.  `close` ends it at any time. -/

namespace FiniteDomain

/-- A search whose solutions are handed out one by one. -/
structure SolutionStream (P B T : Type) where
  /-- The search. -/
  search : Search P B T
  /-- A solution has been handed out. -/
  hasSolution : Bool

/-- What a stream answers when asked for a solution. -/
inductive StreamAnswer where
  /-- The next solution. -/
  | solution (sol : Solution)
  /-- All solutions have been handed out. -/
  | finished
  /-- The limit has stopped the search. -/
  | unknown
  /-- There is no solution. -/
  | unsatisfiable
deriving Repr, Inhabited

namespace SolutionStream

variable {P B T : Type}

/-- The stream of the solutions that a search finds. -/
def ofSearch (sr : Search P B T) : SolutionStream P B T := ⟨sr, false⟩

variable [Propagator P] [Brancher B] [Termination T]

/-- The next solution. -/
def next (st : SolutionStream P B T) : Except Fault (StreamAnswer × SolutionStream P B T) := do
  let (verdict, sr) ← st.search.solve
  match verdict with
  | .found => return (.solution sr.solver.solution, { search := sr, hasSolution := true })
  | .exhausted =>
    let answer := if st.hasSolution then StreamAnswer.finished else .unsatisfiable
    return (answer, { st with search := ← sr.restore })
  | .stopped => return (.unknown, { st with search := sr })

/-- Answers a number of questions for the next solution. -/
def take : (count : Nat) → SolutionStream P B T →
    Except Fault (List StreamAnswer × SolutionStream P B T)
  | 0, st => return ([], st)
  | count + 1, st => do
    let (answer, st) ← st.next
    let (answers, st) ← take count st
    return (answer :: answers, st)

/-- Hands out solutions, at most `fuel`, until there is no further one; also tells the last
    answer. -/
def drain : (fuel : Nat) → (latestFirst : List Solution) → SolutionStream P B T →
    Except Fault (List Solution × StreamAnswer × SolutionStream P B T)
  | 0, _, _ => throw .outOfFuel
  | fuel + 1, latestFirst, st => do
    let (answer, st) ← st.next
    match answer with
    | .solution sol => drain fuel (sol :: latestFirst) st
    | answer => return (latestFirst.reverse, answer, st)

/-- All solutions in order, and the answer that ended the stream. -/
def toList (st : SolutionStream P B T) :
    Except Fault (List Solution × StreamAnswer × SolutionStream P B T) :=
  st.drain st.search.stepBound []

/-- Ends the stream and goes back to the root. -/
def close (st : SolutionStream P B T) : Except Fault (Search P B T) := st.search.restore

end SolutionStream

end FiniteDomain
