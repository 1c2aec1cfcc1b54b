/-! # Statistics

    A statistic is written as a line: a lead, the name, an equals sign and the
    value.  Names are put together from parts with underscores; they can be
    written in camel case.  A group of statistics may be followed by a closing
    line. -/

namespace FiniteDomain

/-- How names of statistics are written. -/
inductive Casing where
  /-- As they are. -/
  | verbatim
  /-- Without underscores, every word but the first with a capital. -/
  | camel
deriving DecidableEq, Repr, Inhabited

namespace Casing

/-- The word with a capital. -/
def capitalise (word : String) : String :=
  match word.toList with
  | [] => ""
  | c :: rest => String.ofList (c.toUpper :: rest)

/-- Writes a name. -/
def apply (casing : Casing) (name : String) : String :=
  match casing with
  | .verbatim => name
  | .camel =>
    match (name.splitOn "_").filter (· != "") with
    | [] => ""
    | first :: rest => first ++ String.join (rest.map capitalise)

end Casing

/-- How statistics are written. -/
structure StatisticsFormat where
  /-- What every line begins with. -/
  lead : String
  /-- The line after a group of statistics. -/
  closing? : Option String
  /-- How names are written. -/
  casing : Casing
deriving DecidableEq, Repr, Inhabited

namespace StatisticsFormat

/-- The line of a statistic. -/
def line (format : StatisticsFormat) (name value : String) : String :=
  s!"{format.lead} {format.casing.apply name}={value}"

/-- The lines of statistics. -/
def lines (format : StatisticsFormat) (entries : List (String × String)) : List String :=
  entries.map fun (name, value) => format.line name value

/-- The lines of a group of statistics, with the closing line. -/
def group (format : StatisticsFormat) (entries : List (String × String)) : List String :=
  format.lines entries ++ format.closing?.toList

end StatisticsFormat

/-! ### Names of statistics -/

/-- The name of a statistic that is put together part by part. -/
structure StatisticName where
  /-- The parts so far, joined. -/
  text : String
deriving DecidableEq, Repr, Inhabited

namespace StatisticName

/-- The name without parts. -/
def empty : StatisticName := ⟨""⟩

/-- The name of the listed parts. -/
def ofParts (parts : List String) : StatisticName := ⟨String.intercalate "_" parts⟩

/-- The name with one more part; the empty name takes the part alone. -/
def attach (name : StatisticName) (part : String) : StatisticName :=
  if name.text.isEmpty then ⟨part⟩ else ⟨s!"{name.text}_{part}"⟩

end StatisticName

end FiniteDomain
