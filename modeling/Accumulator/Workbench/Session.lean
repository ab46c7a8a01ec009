import Accumulator.Assembler
import Accumulator.Assignment
import Accumulator.Computer.Build
import Accumulator.Display.Memory
import Accumulator.Display.Program
import Accumulator.Display.Registers

/-! A session at the workbench: a machine and a program that are worked by hand. The panels show
what the machine and the program last gave notice of, and a line about where the work stands. -/

namespace Accumulator.Workbench

/-- The panels and the status line. -/
structure Views where
  memory : String := ""
  registers : String := ""
  program : String := ""
  status : String
deriving DecidableEq, Repr

/-- A computer with one program, both watched by the panels, and the failures of its play loops. -/
structure Session where
  computer : Computer
  failures : List (Nat × Fault) := []

/-- The whole number that a size is stated to be: a number without its fraction, or a decimal in
text. -/
def wholeNumber : Value → Except Fault Int
  | .bool b => .ok (if b then 1 else 0)
  | .int n => .ok n
  | .word w => .ok w.value
  | .float .nan => .error .wholePartOfNaN
  | .float (.infinite _) => .error .wholePartOfInfinity
  | .float (.finite negative m e) =>
    let whole : Int := Number.Binary64.wholePart m e
    .ok (if negative then -whole else whole)
  | .text s =>
    match Number.readIn 10 s.toList with
    | .ok n => .ok n
    | .error .malformed => .error (.badLiteral 10 (.text s))
    | .error (.tooLong digits) => .error (.longLiteral digits)
  | .operation op => .error (.badLiteral 10 (.operation op))
  | got => .error (.noWholePart got)

namespace Session

/-- The number of the panels among the subscribers. -/
def panels : Nat := 0

/-- Makes a call on the computer of a session. -/
def perform (s : Session) (command : Command) : Except Fault Answer × Session :=
  let (outcome, computer) := s.computer.perform command
  (outcome, { s with computer })

/-- A session on a computer: the panels watch the machine and the program. -/
def watch (c : Computer) : Session :=
  let c := { c with subscribers := [.recorder] }
  { computer := c.performAll [.observe .machine panels, .observe (.program 0) panels] }

/-- Sets up a session: the sizes are read first, then the memory is written, and then the program is
read. -/
def setUp (source memoryInit : String) (wordSize memorySize : Value) :
    Except Fault Session := do
  let wordSize ← wholeNumber wordSize
  let memorySize ← wholeNumber memorySize
  let c ← Computer.ofSizes (.int wordSize) (.int memorySize) .standard
  let assignments ← Assignment.parseList memoryInit
  let c ← c.writeAll (assignments.map Assignment.toWrite)
  let instructions ← Assembler.parseProgram source
  let entries := instructions.map Value.instruction
  let p ← Program.ofEntries c.machine.memory (.list entries) (.float Program.defaultDelay)
  return watch (c.addProgram p)

/-- The machine as the panels saw it last. -/
def machineView (s : Session) : Option Machine :=
  s.computer.events.findSome? fun e =>
    match e.notice with
    | .machine m => some m
    | _ => none

/-- The program as the panels saw it last. -/
def programView (s : Session) : Option ProgramView :=
  s.computer.events.findSome? fun e =>
    match e.notice with
    | .program v => some v
    | _ => none

/-- Where the work on a program stands. -/
def standing (v : ProgramView) : String :=
  if v.playing then "Playing" else if v.complete then "Complete" else "Ready"

/-- The panels without a session. -/
def noViews (status : String) : Views :=
  { status := if status.isEmpty then "Load a program first" else status }

/-- The panels of a machine and a program, with a status that tells where the work stands unless
another is given. -/
def drawn (m : Machine) (p : ProgramView) (status : String) : Views where
  memory := m.memory.table (some m.registers.address)
  registers := m.panel
  program := p.listing
  status := if status.isEmpty then standing p else status

/-- What the panels show, if the numbers in them can be written. -/
def views (s : Session) (status : String) : Except Fault Views :=
  match s.machineView, s.programView with
  | some m, some p => written (m.registerNumbers ++ p.numbers) (drawn m p status)
  | _, _ => .ok (noViews status)

/-- The status after a refusal. -/
def refusal (fault : Fault) : String := "Error: " ++ fault.reported.message

/-- Loads a program. A refusal by the machine, or of a text that is no number, is shown in the
status line; any other is no business of the workbench. -/
def load (source memoryInit : String) (wordSize memorySize : Value) :
    Except Fault (Views × Option Session) :=
  match setUp source memoryInit wordSize memorySize with
  | .ok s => return (← s.views "Loaded", some s)
  | .error fault =>
    if fault.reported.isMachineFault || fault.reported.kind = .invalidValue then
      .ok (noViews (refusal fault), none)
    else .error fault

/-- What the panels show after a call: a refusal by the machine is shown in the status line. -/
def viewsAfter (s : Session) : Except Fault Answer → Except Fault Views
  | .ok _ => s.views ""
  | .error fault =>
    if fault.reported.isMachineFault then s.views (refusal fault) else .error fault

/-- Takes one step. -/
def step (s : Session) : Except Fault Views × Session :=
  let (outcome, s) := s.perform (.step 0)
  (s.viewsAfter outcome, s)

/-- Stops the program if it is playing. -/
def stop (s : Session) : Except Fault Views × Session :=
  let (_, s) := s.perform (.stop 0)
  (s.views "Stopped", s)

end Session

end Accumulator.Workbench
