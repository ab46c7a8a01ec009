import Accumulator.CommandLine.Report

/-! The program on the command line: it reads the options, and makes the report happen. -/

namespace Accumulator.CommandLine

/-- The milliseconds of a pause, none when it is not a finite positive time. -/
def milliseconds : Number.Binary64 → UInt32
  | .finite false m e => (Number.Binary64.wholePart (m * 1000) e).toUInt32
  | _ => 0

/-- Makes one output happen. -/
def produce : Output → IO Unit
  | .line text => IO.println text
  | .log text => IO.eprintln text
  | .pause seconds => do
    (← IO.getStdout).flush
    IO.sleep (milliseconds seconds)

/-- Carries out a command line, and answers its exit code. -/
def carryOut (arguments : List String) : IO UInt32 := do
  match Options.read arguments with
  | .error .help => do
    for s in Switch.all do
      IO.println (", ".intercalate s.names)
    return 0
  | .error (.misuse message) => do
    IO.eprintln ("error: " ++ message)
    return 2
  | .ok options =>
    match run options none with
    | .error fault => do
      IO.eprintln fault.message
      return 1
    | .ok report => do
      report.outputs.forM produce
      return report.exit.toUInt32

end Accumulator.CommandLine

/-- The command line program. -/
def main (arguments : List String) : IO UInt32 :=
  Accumulator.CommandLine.carryOut arguments
