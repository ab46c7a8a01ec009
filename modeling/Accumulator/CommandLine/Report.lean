import Accumulator.Assembler
import Accumulator.CommandLine.Journal
import Accumulator.CommandLine.Options
import Accumulator.Computer.Build
import Accumulator.Display.Memory
import Accumulator.Display.Program
import Accumulator.Display.Registers

/-! What the command line does. A report is an exit code and what happens on the way: lines
printed, records logged, and the pauses between the steps of a play. An interrupt may come in a
pause; it ends the play there, and the report goes on with the state that the machine is in. What
the machine refuses is part of the report; any other fault leaves no report. -/

namespace Accumulator.CommandLine

/-- Something that happens. -/
inductive Output
  | line (text : String)
  | log (text : String)
  | pause (seconds : Number.Binary64)
deriving DecidableEq, Repr

/-- What a command line comes to. -/
structure Report where
  exit : Nat
  outputs : List Output
deriving DecidableEq, Repr

namespace Report

/-- The lines printed. -/
def lines (r : Report) : List String :=
  r.outputs.filterMap fun
    | .line text => some text
    | _ => none

/-- The records logged. -/
def logs (r : Report) : List String :=
  r.outputs.filterMap fun
    | .log text => some text
    | _ => none

/-- The pauses made. -/
def pauses (r : Report) : List Number.Binary64 :=
  r.outputs.filterMap fun
    | .pause seconds => some seconds
    | _ => none

end Report

/-- What an option that is set to nothing stands for: a list without items. -/
def nothing : Value := .list []

/-- The value of an option that may be set to nothing. -/
def valueOf {α : Type} (value : α → Value) (setting : Option α) : Value :=
  (setting.map value).getD nothing

/-- Makes one of the writes that the options ask for. -/
def write (c : Computer) : Option Assignment → Except Fault Computer
  | some assignment => c.writeAll [assignment.toWrite]
  | none => .error (.notPair nothing)

/-- The text of the program that the options ask for. -/
def sourceOf (o : Options) : Except Fault String :=
  match o.inline with
  | some source => .ok source
  | none => .error (.notText nothing)

/-- The machine and the program that the options ask for: the writes come first, in order, and then
the program is read, in which semicolons end instructions. -/
def setUp (o : Options) : Except Fault Computer := do
  let c ← Computer.ofSizes (valueOf .int o.wordSize) (valueOf .int o.memorySize) .standard
  let c ← o.assignments.foldlM write c
  let source ← sourceOf o
  let instructions ← Assembler.parseProgram (source.map fun c => if c = ';' then '\n' else c)
  let entries := instructions.map Value.instruction
  let p ← Program.ofEntries c.machine.memory (.list entries) (valueOf .float o.delay)
  return { c.addProgram p with subscribers := [.recorder] }

/-- The program of the command line. -/
def programOf (c : Computer) : Program :=
  c.programs.headD { instructions := [], stepDelay := .none }

/-- Takes what has happened out of a computer: with the verbose option its journal is logged, and
the machine is printed at each notice. -/
def drain (verbose : Bool) (c : Computer) : List Output × Computer :=
  let outputs :=
    if verbose then
      (c.journal.reverse.filterMap Record.line?).map .log ++
        c.events.reverse.map fun e => .line e.moment.line
    else []
  (outputs, { c with events := [], journal := [] })

/-- How a run ends. -/
inductive Ending
  | finished
  | interrupted
  | failed (fault : Fault)

/-- Makes a call and takes out what has happened. -/
def perform (verbose : Bool) (command : Command) (c : Computer) :
    Except Fault Answer × List Output × Computer :=
  let (outcome, c) := c.perform command
  (outcome, drain verbose c)

/-- Resumes the play loop until it ends or an interrupt comes, which is in the pause that
`interrupt` counts down to; at most `limit` times. -/
def playOn (o : Options) : (limit : Nat) → (interrupt : Option Nat) → Computer →
    List Output × Ending × Computer
  | 0, _, c => ([], .finished, c)
  | limit + 1, interrupt, c =>
    match perform o.verbose (.tick 0) c with
    | (.error fault, outputs, c) => (outputs, .failed fault, c)
    | (.ok (.sleep _), outputs, c) =>
      match o.delay with
      | none => (outputs, .failed (.notPause nothing), c)
      | some seconds =>
        let outputs := outputs ++ [.pause seconds]
        if interrupt = some 1 then
          let (_, closing, c) := perform o.verbose (.cancel 0) c
          (outputs ++ closing, .interrupted, c)
        else
          let (more, ending, c) := playOn o limit (interrupt.map (· - 1)) c
          (outputs ++ more, ending, c)
    | (.ok _, outputs, c) => (outputs, .finished, c)

/-- Plays the program: with the verbose option the machine is printed first. -/
def play (o : Options) (interrupt : Option Nat) (c : Computer) :
    List Output × Ending × Computer :=
  let (shown, c) :=
    if o.verbose then (perform true (.observe (.program 0) 0) c).2 else ([], c)
  let p := programOf c
  if p.isComplete then (shown, .finished, c)
  else
    match perform o.verbose (.play 0 .none) c with
    | (.error fault, outputs, c) => (shown ++ outputs, .failed fault, c)
    | (.ok _, outputs, c) =>
      let (more, ending, c) := playOn o (2 * p.length + 1) interrupt c
      (shown ++ outputs ++ more, ending, c)

/-- Runs the program at once. -/
def runAtOnce (o : Options) (c : Computer) : List Output × Ending × Computer :=
  match perform o.verbose (.run 0) c with
  | (.error fault, outputs, c) => (outputs, .failed fault, c)
  | (.ok _, outputs, c) => (outputs, .finished, c)

/-- The line between the parts of a report. -/
def rule : String := "".pushn '-' 60

/-- The lines about the trace of a program. -/
def traceLines (p : Program) : Except Fault (List String) := do
  return [← p.writtenTrace, rule]

/-- The lines about the registers, the memory and the progress that a run ends with. -/
def fullLines (c : Computer) : Except Fault (List String) := do
  let summary := (programOf c).summary c.machine
  return [
    ← c.machine.writtenRegisterList,
    "",
    c.machine.memory.grid,
    "",
    "Steps: " ++ toString summary.steps ++ "/" ++ toString summary.length,
    "Complete: " ++ truth summary.complete]

/-- The lines about the state that a run ends in. -/
def stateLines (o : Options) (c : Computer) : Except Fault (List String) := do
  let trace ← if o.trace then traceLines (programOf c) else .ok []
  let state ← if o.quiet then c.machine.memory.writtenNonZeroLines else fullLines c
  return trace ++ state

/-- The report of a refusal by the machine, and of what has happened before. -/
def refused (heading : String) (outputs : List Output) (fault : Fault) : Except Fault Report :=
  let fault := fault.reported
  if fault.isMachineFault then .ok ⟨1, outputs ++ [.line (heading ++ fault.message)]⟩
  else .error fault

/-- The lines before a run. -/
def opening (o : Options) (c : Computer) : List Output :=
  if o.quiet then []
  else [.line ("Running " ++ toString (programOf c).length ++ " instructions"), .line rule]

/-- What the options come to. -/
def run (o : Options) (interrupt : Option Nat) : Except Fault Report :=
  match setUp o with
  | .error fault => refused "Error: " [] fault
  | .ok c => do
    let first := opening o c
    let (outputs, ending, c) := if o.play then play o interrupt c else runAtOnce o c
    let outputs := first ++ outputs
    match ending with
    | .failed fault => refused "Execution error: " outputs fault
    | .interrupted => do
      let (_, closing, c) := perform o.verbose (.stop 0) c
      return ⟨0, outputs ++ closing ++ .line "Stopped" :: (← stateLines o c).map .line⟩
    | .finished => return ⟨0, outputs ++ (← stateLines o c).map .line⟩

end Accumulator.CommandLine
