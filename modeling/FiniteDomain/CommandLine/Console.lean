import FiniteDomain.CommandLine.Arguments
import FiniteDomain.Statistics

/-! # The console

    A console collects the lines that a session writes.  Messages are written
    with a leading percent sign, those for the curious only if the session is
    verbose; statistics are written only if they are asked for.  A failure ends
    the session and keeps the lines. -/

namespace FiniteDomain.CommandLine

/-- Why a session fails. -/
inductive Failure where
  /-- The model cannot be built. -/
  | invalidModel (e : ModelError)
  /-- The problem has nothing to optimise. -/
  | noObjective (problem : Problem)
  /-- There is nobody to do the work. -/
  | noWorker
  /-- A request that cannot be carried out. -/
  | fault (f : Fault)
deriving DecidableEq, Repr, Inhabited

/-- The wording of a failure. -/
def Failure.message : Failure → String
  | .invalidModel e => s!"Failed to build the model, more details: {e.message}"
  | .noObjective problem => s!"The model {problem.name} has no objective to optimise."
  | .noWorker => "The portfolio needs at least one worker."
  | .fault f => f.message

/-- The lines written so far, the last first. -/
abbrev Console : Type → Type := ExceptT Failure (StateM (List String))

namespace Console

/-- Writes a line. -/
def line (text : String) : Console Unit := modify (text :: ·)

/-- Writes lines. -/
def lines (texts : List String) : Console Unit := texts.forM line

/-- Writes a message. -/
def message (text : String) : Console Unit := line s!"% {text}"

/-- Writes a message if the session is verbose. -/
def detail (args : Arguments) (text : String) : Console Unit :=
  if args.has .verbose then message text else pure ()

/-- The value of a checked computation. -/
def checked {α : Type} (result : Except Fault α) : Console α :=
  match result with
  | .ok a => pure a
  | .error f => throw (.fault f)

/-- Tells what a solver has observed. -/
def observations {P : Type} (args : Arguments) (sv : Solver P) : Console Unit :=
  sv.history.toList.forM fun o =>
    match o.message? with
    | some text => detail args text
    | none => pure ()

/-- How statistics are written. -/
def statisticsFormat : StatisticsFormat := ⟨"%%%mzn-stat:", some "%%%mzn-stat-end", .camel⟩

/-- The lines of a group of statistics, if they are asked for. -/
def statisticsLines (args : Arguments) (entries : List (String × String)) : List String :=
  if args.has .statistics then statisticsFormat.group entries else []

/-- Counters as statistics. -/
def counters (entries : List (String × Nat)) : List (String × String) :=
  entries.map fun (name, n) => (name, toString n)

/-- The statistics of a solver, after the value of the objective if one is given. -/
def statisticsOf {P : Type} (objective? : Option Int) (sv : Solver P) : List (String × String) :=
  (objective?.map fun v => ("objective", toString v)).toList ++ counters sv.statistics

/-- Runs a session from the empty console: how it ended and the lines in order. -/
def session {α : Type} (program : Console α) : Except Failure α × List String :=
  let (result, reversed) := program.run.run []
  (result, reversed.reverse)

end Console

end FiniteDomain.CommandLine
