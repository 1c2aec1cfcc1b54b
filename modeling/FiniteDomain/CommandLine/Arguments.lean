import FiniteDomain.Problem.Catalogue
import FiniteDomain.Search.Optimisation

/-! # Arguments

    The command line names a problem and sets options.  A short option is a dash
    and a letter; letters of options without value can share a dash, and the value
    of an option follows in the same word, with or without an equals sign, or in
    the next one.  A long option is two dashes and a name; its value follows an
    equals sign or in the next word.  After a lone `--` no word is an option.  No
    option can be given twice.

    Words are read from left to right and the first mistake ends the reading. -/

namespace FiniteDomain.CommandLine

/-! ### Options -/

/-- An option. -/
inductive Key where
  /-- The size of the problem. -/
  | size
  /-- The time limit in milliseconds. -/
  | timeLimit
  /-- The seed of random draws. -/
  | seed
  /-- How many workers run side by side. -/
  | workers
  /-- How strongly pairwise difference is filtered. -/
  | strength
  /-- Whether the objective is to be made great or small. -/
  | goal
  /-- Tell what happens. -/
  | verbose
  /-- Write statistics. -/
  | statistics
  /-- Use the standard strategy. -/
  | freeSearch
  /-- Write all solutions. -/
  | allSolutions
deriving DecidableEq, Repr

namespace Key

/-- All options. -/
def all : List Key :=
  [.size, .timeLimit, .seed, .workers, .strength, .goal, .verbose, .statistics, .freeSearch,
   .allSolutions]

/-- The long name of an option. -/
def long : Key → String
  | .size => "size"
  | .timeLimit => "time-limit"
  | .seed => "random-seed"
  | .workers => "portfolio"
  | .strength => "all-different-strength"
  | .goal => "optimise"
  | .verbose => "verbose"
  | .statistics => "log-statistics"
  | .freeSearch => "free-search"
  | .allSolutions => "all-solutions"

/-- The letter of an option. -/
def letter? : Key → Option Char
  | .size => some 'n'
  | .timeLimit => some 't'
  | .seed => some 'r'
  | .workers => some 'p'
  | .verbose => some 'v'
  | .statistics => some 's'
  | .freeSearch => some 'f'
  | .allSolutions => some 'a'
  | .strength | .goal => none

/-- The option takes a value. -/
def takesValue : Key → Bool
  | .verbose | .statistics | .freeSearch | .allSolutions => false
  | _ => true

end Key

/-- What the command line asks for. -/
structure Arguments where
  /-- The problem, once it has been named. -/
  problem? : Option Problem
  /-- The size of the problem. -/
  size : Nat
  /-- The time limit in milliseconds. -/
  timeLimit? : Option Nat
  /-- The seed of random draws. -/
  seed : UInt64
  /-- How many workers run side by side. -/
  workers : Nat
  /-- How strongly pairwise difference is filtered. -/
  strength : Strength
  /-- Whether the objective is to be made great or small. -/
  goal? : Option Goal
  /-- The options that have been given. -/
  given : List Key
deriving Repr

namespace Arguments

/-- Nothing has been given. -/
def initial : Arguments :=
  { problem? := none, size := 8, timeLimit? := none, seed := Random.defaultSeed, workers := 1
    strength := default, goal? := none, given := [] }

instance : Inhabited Arguments := ⟨initial⟩

/-- The option has been given. -/
def has (args : Arguments) (key : Key) : Bool := args.given.contains key

end Arguments

/-- Why the reading of a command line ends early. -/
inductive Interruption where
  /-- A mistake. -/
  | misuse
  /-- The version is asked for. -/
  | version
  /-- Help is asked for. -/
  | help
deriving DecidableEq, Repr, Inhabited

/-! ### Values -/

/-- The number written in decimal digits, at least one. -/
def digits? (text : List Char) : Option Nat :=
  if !text.isEmpty && text.all Char.isDigit then
    some (text.foldl (fun n c => 10 * n + (c.toNat - '0'.toNat)) 0)
  else none

/-- The number written without a minus sign, if it is below the limit. -/
def natural? (text : String) (limit : Nat) : Option Nat := do
  let n ← digits? (match text.toList with | '+' :: rest => rest | chars => chars)
  if n < limit then some n else none

/-- The number written with or without a sign, if it is natural and below the limit. -/
def signedNatural? (text : String) (limit : Nat) : Option Nat :=
  match text.toList with
  | '-' :: rest => if digits? rest = some 0 then some 0 else none
  | _ => natural? text limit

/-- The strength of a name. -/
def readStrength? (text : String) : Option Strength :=
  [Strength.instantiation, .bounds].find? (·.name == text)

/-- The goal of a name. -/
def readGoal? (text : String) : Option Goal := [Goal.maximise, .minimise].find? (·.name == text)

/-- Sets an option to a value. -/
def Arguments.set? (args : Arguments) (text : String) : Key → Option Arguments
  | .size => do return { args with size := ← signedNatural? text (1 <<< 32) }
  | .timeLimit => do return { args with timeLimit? := some (← natural? text (1 <<< 64)) }
  | .seed => do return { args with seed := UInt64.ofNat (← natural? text (1 <<< 64)) }
  | .workers => do return { args with workers := ← natural? text (1 <<< 64) }
  | .strength => do return { args with strength := ← readStrength? text }
  | .goal => do return { args with goal? := some (← readGoal? text) }
  | _ => none

/-! ### Words -/

/-- A part of the command line. -/
inductive Word where
  /-- An option, with the value that stands in the same word. -/
  | option (key : Key) (value? : Option String)
  /-- The end of the options. -/
  | endOfOptions
  /-- The version is asked for. -/
  | version
  /-- Help is asked for. -/
  | help
  /-- Something else. -/
  | plain (text : String)
  /-- An option that does not exist or is misspelt. -/
  | unknown
deriving DecidableEq, Repr

/-- The options in a word of letters; one that takes a value takes the rest of the word. -/
def letters : List Char → List Word
  | [] => []
  | c :: rest =>
    if c = 'V' then [.version]
    else if c = 'h' then [.help]
    else
      match Key.all.find? (·.letter? == some c) with
      | none => [.unknown]
      | some key =>
        if key.takesValue then
          match rest with
          | [] => [.option key none]
          | '=' :: value => [.option key (some (String.ofList value))]
          | value => [.option key (some (String.ofList value))]
        else if rest.head? = some '=' then [.unknown]
        else .option key none :: letters rest

/-- The option of a long name, with the value after the equals sign. -/
def longOption (text : List Char) : Word :=
  let name := String.ofList (text.takeWhile (· != '='))
  let value? :=
    match text.dropWhile (· != '=') with
    | [] => none
    | _ :: value => some (String.ofList value)
  if name = "version" then (if value?.isSome then .unknown else .version)
  else if name = "help" then (if value?.isSome then .unknown else .help)
  else
    match Key.all.find? (·.long == name) with
    | none => .unknown
    | some key =>
      if key.takesValue || value?.isNone then .option key value? else .unknown

/-- The parts of an argument. -/
def words (argument : String) : List Word :=
  match argument.toList with
  | ['-', '-'] => [.endOfOptions]
  | '-' :: '-' :: text => [longOption text]
  | '-' :: c :: rest => letters (c :: rest)
  | _ => [.plain argument]

/-! ### Reading -/

/-- Names the problem. -/
def Arguments.nameProblem (args : Arguments) (text : String) : Except Interruption Arguments :=
  match args.problem?, Problem.ofName? text with
  | none, some problem => .ok { args with problem? := some problem }
  | _, _ => .error .misuse

/-- Takes an option with its value. -/
def Arguments.take (args : Arguments) (key : Key) (value : String) :
    Except Interruption Arguments :=
  match args.set? value key with
  | some args => .ok args
  | none => .error .misuse

/-- Takes the words of an argument; also tells the option whose value is to follow. -/
def readWords (args : Arguments) : List Word → Except Interruption (Arguments × Option Key)
  | [] => .ok (args, none)
  | .plain text :: rest => do readWords (← args.nameProblem text) rest
  | .version :: _ => .error .version
  | .help :: _ => .error .help
  | .unknown :: _ => .error .misuse
  | .endOfOptions :: rest => readWords args rest
  | .option key value? :: rest =>
    if args.has key then .error .misuse
    else
      let args := { args with given := key :: args.given }
      if key.takesValue then
        match value? with
        | none => .ok (args, some key)
        | some value => do readWords (← args.take key value) rest
      else readWords args rest

/-- Reads arguments none of which is an option. -/
def readPlain (args : Arguments) : List String → Except Interruption Arguments
  | [] => .ok args
  | text :: rest => do readPlain (← args.nameProblem text) rest

/-- Reads arguments; the option whose value is to come first is given. -/
def read (args : Arguments) (awaiting? : Option Key) : List String → Except Interruption Arguments
  | [] => if awaiting?.isSome then .error .misuse else .ok args
  | argument :: rest =>
    match awaiting?, words argument with
    | some key, [.plain value] => do read (← args.take key value) none rest
    | some _, _ => .error .misuse
    | none, [.endOfOptions] => readPlain args rest
    | none, parts => do
      let (args, awaiting?) ← readWords args parts
      read args awaiting? rest

/-- Reads a command line; the problem has to be named. -/
def parse (arguments : List String) : Except Interruption (Problem × Arguments) := do
  let args ← read .initial none arguments
  match args.problem? with
  | some problem => return (problem, args)
  | none => throw .misuse

end FiniteDomain.CommandLine
