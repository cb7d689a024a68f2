-- SUMMARY: The program: runs the command line on its arguments, prints, and writes the drawing.
import Conveyor.CommandLine.Session

/-!
# The program
-/

open Conveyor CommandLine

/-- What `--help` shows. -/
def usage : String :=
  "usage: conveyor [-h] [--solve SOLVE] [--buffer BUFFER] [--ticks TICKS] [--steps STEPS]\n" ++
  "                [--order upstream|downstream|registration] [--log] [--graph GRAPH] [--verbose]\n\n" ++
  "Balance and simulate the demo circuit factory\n\n" ++
  "  -s, --solve    Balance the supply chain behind a stream (repeatable)\n" ++
  "  -b, --buffer   Buffer capacities as \"stream.Product:Capacity, ...\" (optional)\n" ++
  "  -t, --ticks    Ticks per simulation step\n" ++
  "  -n, --steps    Number of simulation steps\n" ++
  "  --order        Order in which streams are advanced within a step\n" ++
  "  -l, --log      Print the rates of every named stream\n" ++
  "  -g, --graph    Write the supply graph as graphviz source ('-' for stdout)\n" ++
  "  -v, --verbose  Log debug messages\n"

def main (args : List String) : IO UInt32 := do
  match CommandLine.run args with
  | .exit .help =>
    IO.print usage
    return 0
  | .exit .usage =>
    IO.eprint usage
    return 2
  | .failed fault =>
    IO.eprintln fault.message
    return 1
  | .finished outcome =>
    IO.print outcome.output
    IO.eprint outcome.errors
    match outcome.drawing with
    | some (path, text) => IO.FS.writeFile path text
    | none => pure ()
    return outcome.code.toUInt32
