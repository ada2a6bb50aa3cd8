/-
PagedServe/Main.lean

The simulator as a program: it reads its arguments and the settings file, runs
the simulation and prints what came of it.

Exit codes: 0 after a run or a request for help, 1 after an error, 2 after a
mistake in the arguments, 101 after a fault.
-/
import PagedServe.CommandLine.Report

open PagedServe PagedServe.CommandLine

/-- The content of a file, or nothing if it cannot be read. -/
def contentOf? (path : String) : IO (Option ByteArray) := do
  try return some (← IO.FS.readBinFile path)
  catch _ => return none

/-- A run whose queue never empties does not end. -/
partial def waitForever : IO Unit := do
  IO.sleep 60000
  waitForever

/-- Run the simulator with these options and print the outcome. -/
def runWith (options : Options) : IO UInt32 := do
  let content ← match options.config with
    | some path => contentOf? path
    | none => pure none
  let begun ← IO.monoNanosNow
  let result := outcome options fun _ => content
  result.header.forM IO.println
  match result.ending with
  | .finished summary =>
    let ended ← IO.monoNanosNow
    (summary.lines ((ended - begun).toFloat / 1000000.0)).forM IO.println
    return 0
  | .stuck =>
    waitForever
    return 0
  | .failed e =>
    IO.eprintln s!"error: {e.message}"
    return 1
  | .faulted _ => return 101

/-- Do what the arguments ask for; the result is the exit code. -/
def main (arguments : List String) : IO UInt32 := do
  match Command.ofArguments arguments with
  | .run options => runWith options
  | .help =>
    usage.forM IO.println
    return 0
  | .misuse =>
    usage.forM IO.eprintln
    return 2
