import Univariate.CommandLine

/-!
# The program

Arguments and one variable of the environment in, two streams and an exit
code out.
-/

open Univariate in
/-- Runs the command line. -/
def main (arguments : List String) : IO UInt32 := do
  let settings ← IO.getEnv "POLYROOT_CONFIG"
  let output := CommandLine.run arguments settings
  IO.print output.stdout
  IO.eprint output.stderr
  return UInt32.ofNat output.code
