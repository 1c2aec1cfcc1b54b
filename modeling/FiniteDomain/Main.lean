import FiniteDomain.CommandLine.Program

/-! # The command line

    Writes the lines that the program computes and ends with its exit code. -/

open FiniteDomain

/-- Runs the program on the arguments of the process. -/
def main (arguments : List String) : IO UInt32 := do
  let result := CommandLine.execute arguments
  for text in result.lines do
    IO.println text
  return UInt32.ofNat result.code
