import FiniteDomain.CommandLine.Portfolio

/-! # The program

    `execute` is the whole program as a function of its arguments: the exit code
    and the lines it writes.  The code is zero if the session succeeds, one if it
    fails, two if the arguments are misused, and 101 if a request could not be
    carried out. -/

namespace FiniteDomain.CommandLine

/-- What a program has done. -/
structure Execution where
  /-- The exit code. -/
  code : Nat
  /-- The lines written. -/
  lines : List String
deriving DecidableEq, Repr, Inhabited

/-- The name and version of the program. -/
def versionLine : String := "squash-solver 0.1.0"

/-- How the program is called. -/
def usageLine : String := "Usage: squash-solver [OPTIONS] <MODEL>"

/-- A session for a problem. -/
def runSession (problem : Problem) (args : Arguments) : Console Unit := do
  Console.detail args "Logging successfully configured"
  if args.workers = 0 then throw .noWorker
  else if args.workers = 1 then solve problem args
  else if args.has .allSolutions then
    Console.message
      "Enumerating all solutions is not supported by a portfolio; using a single solver."
    solve problem args
  else solveTogether problem args

/-- Runs the program. -/
def execute (arguments : List String) : Execution :=
  match parse arguments with
  | .error .misuse => ⟨2, []⟩
  | .error .version => ⟨0, [versionLine]⟩
  | .error .help => ⟨0, [usageLine]⟩
  | .ok (problem, args) =>
    match (runSession problem args).session with
    | (.ok (), lines) => ⟨0, lines⟩
    | (.error (.fault _), lines) => ⟨101, lines⟩
    | (.error failure, lines) => ⟨1, lines ++ [s!"% Execution failed, error: {failure.message}"]⟩

end FiniteDomain.CommandLine
