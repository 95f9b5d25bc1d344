import Codegen.CommandLine

/-!
# The program

Prints what the command line asks for.
-/

def main (args : List String) : IO UInt32 := do
  let outcome := Codegen.CommandLine.run args
  IO.print outcome.stdout
  return if outcome.ok then 0 else 1
