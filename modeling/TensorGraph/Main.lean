/-
The command line: prints the report of the demonstration.
-/
import TensorGraph.Demo

def main : IO UInt32 := do
  match TensorGraph.Demo.text with
  | .value s => do
    IO.print s
    return 0
  | .refused e => do
    IO.eprintln s!"Error: {e.message}"
    return 1
  | .halted => return 101
