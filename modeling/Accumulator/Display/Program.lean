import Accumulator.Program

/-! A program as text: the listing, which marks the instruction at the counter, and the trace, which
says for each executed instruction what it changed. -/

namespace Accumulator

/-- A number with blanks before it, up to three places. -/
def padded (n : Nat) : String :=
  let digits := toString n
  "".pushn ' ' (3 - digits.length) ++ digits

/-- The line of an instruction in a listing. The instruction at the counter is marked by an arrow,
which has a double shaft once it is decoded. -/
def listingLine (counter : Int) (phase : Phase) (index : Nat) (i : Instruction) : String :=
  let marker :=
    if (index : Int) = counter then
      match phase with
      | .decoded => "=> "
      | .fetch => "-> "
    else "   "
  marker ++ padded index ++ "  " ++ i.text

/-- The listing of instructions. -/
def listing (instructions : List Instruction) (counter : Int) (phase : Phase) (complete : Bool) :
    String :=
  if instructions.isEmpty then "(empty program)"
  else
    "\n".intercalate
      (instructions.zipIdx.map (fun (i, index) => listingLine counter phase index i) ++
        if complete then ["     (complete)"] else [])

namespace ProgramView

/-- The listing of a program. -/
def listing (v : ProgramView) : String :=
  Accumulator.listing v.instructions v.counter v.phase v.complete

/-- The numbers that stand in the instructions of a program. -/
def numbers (v : ProgramView) : List Nat := v.instructions.flatMap Instruction.args

end ProgramView

namespace TraceEntry

/-- The cells that an instruction changed, each with the content before and after. -/
def changedCells (e : TraceEntry) : List (Nat × Nat × Nat) :=
  (e.pre.memory.cells.zip e.post.memory.cells).zipIdx.filterMap fun ((old, new), a) =>
    if old = new then none else some (a, old, new)

/-- What a changed cell is written as. -/
def cellChange : Nat × Nat × Nat → String
  | (a, old, new) => "M[" ++ toString a ++ "]: " ++ toString old ++ " -> " ++ toString new

/-- The lines of an entry: the instruction, and what it changed. -/
def lines (e : TraceEntry) : List String :=
  let old := e.pre.registers.accumulator
  let new := e.post.registers.accumulator
  let heading :=
    "[" ++ toString e.step ++ "] PC=" ++ toString e.counter ++ " " ++ e.instruction.text
  let accumulator :=
    if old = new then [] else ["    ACC: " ++ toString old ++ " -> " ++ toString new]
  let cells :=
    match e.changedCells with
    | [] => []
    | changed => ["    " ++ ", ".intercalate (changed.map cellChange)]
  heading :: (accumulator ++ cells)

/-- The numbers that stand in the lines of an entry: the address of the instruction, and what it
changed. -/
def numbers (e : TraceEntry) : List Nat :=
  let old := e.pre.registers.accumulator
  let new := e.post.registers.accumulator
  let accumulator := if old = new then [] else [old, new]
  e.instruction.args ++ accumulator ++ e.changedCells.flatMap fun (_, old, new) => [old, new]

end TraceEntry

namespace Program

/-- The trace of a program in text. -/
def traceText (p : Program) : String := "\n".intercalate (p.trace.flatMap TraceEntry.lines)

/-- The trace of a program in text, if its numbers can be written. -/
def writtenTrace (p : Program) : Except Fault String :=
  written (p.trace.flatMap TraceEntry.numbers) p.traceText

end Program

end Accumulator
