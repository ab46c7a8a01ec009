import Accumulator.Machine

/-! The registers as text: on one line, as a list, and as a table with the state of the cycle. -/

namespace Accumulator

/-- A register as it is shown: its low bits and its number. -/
structure Reading where
  bits : String
  number : String
deriving DecidableEq, Repr

/-- The reading of a register of a given width. -/
def Reading.ofNat (width n : Nat) : Reading := ⟨binary width n, toString n⟩

/-- The registers as they are shown. -/
structure Readings where
  accumulator : Reading
  address : String
  data : Reading
  instruction : Option Instruction
  decoded : Bool
deriving DecidableEq, Repr

namespace Readings

/-- The readings of a machine. -/
def ofMachine (m : Machine) : Readings where
  accumulator := .ofNat m.wordSize m.registers.accumulator
  address := toString m.registers.address
  data := .ofNat m.wordSize m.registers.data
  instruction := m.registers.instruction
  decoded := m.isDecoded

/-- The readings of stated registers: the accumulator is checked first, then the width, and then
the data register. -/
def ofValues (wordSize accumulator : Value) (address : Int) (data : Value)
    (instruction : Option Instruction) (decoded : Bool) : Except Fault Readings := do
  let accumulator ← Quantity.wordValue.natural accumulator
  let wordSize ← Word.widthOf wordSize
  let data ← Quantity.wordValue.natural data
  return {
    accumulator := .ofNat wordSize accumulator
    address := toString address
    data := .ofNat wordSize data
    instruction
    decoded }

/-- The instruction register in text, or a dash. -/
def instructionText (r : Readings) : String :=
  match r.instruction with
  | some i => i.text
  | none => "-"

/-- The registers on one line. -/
def line (r : Readings) : String :=
  "ACC=" ++ r.accumulator.bits ++ " AR=" ++ r.address ++ " DR=" ++ r.data.bits ++ " IR=" ++
    r.instructionText ++ (if r.decoded then " DECODED" else "")

/-- The registers one below the other. -/
def lines (r : Readings) : List String := [
  "ACC: " ++ r.accumulator.bits ++ " (" ++ r.accumulator.number ++ ")",
  "AR:  " ++ r.address,
  "DR:  " ++ r.data.bits ++ " (" ++ r.data.number ++ ")",
  "IR:  " ++ r.instructionText]

/-- Where the machine is in its cycle. -/
def status (r : Readings) : String :=
  if r.decoded then
    "decoded `" ++ (match r.instruction with | some i => i.text | none => "None") ++
      "`, about to execute"
  else
    match r.instruction with
    | some i => "executed `" ++ i.text ++ "`"
    | none => "idle"

/-- The registers as a table, with the state of the cycle below. -/
def panel (r : Readings) : String :=
  "\n".intercalate [
    "| Register | Binary | Decimal |",
    "|---|---|---|",
    "| ACC | `" ++ r.accumulator.bits ++ "` | " ++ r.accumulator.number ++ " |",
    "| AR | | " ++ r.address ++ " |",
    "| DR | `" ++ r.data.bits ++ "` | " ++ r.data.number ++ " |",
    "| IR | `" ++ r.instructionText ++ "` | |",
    "",
    "**Status:** " ++ r.status]

end Readings

namespace Machine

/-- The numbers that stand in the registers. -/
def registerNumbers (m : Machine) : List Nat :=
  [m.registers.accumulator, m.registers.address, m.registers.data] ++
    m.registers.instruction.toList.flatMap Instruction.args

/-- The registers of a machine on one line. -/
def line (m : Machine) : String := (Readings.ofMachine m).line

/-- The registers of a machine one below the other. -/
def registerList (m : Machine) : String := "\n".intercalate (Readings.ofMachine m).lines

/-- The registers of a machine one below the other, if their numbers can be written. -/
def writtenRegisterList (m : Machine) : Except Fault String :=
  written m.registerNumbers m.registerList

/-- The registers of a machine as a table. -/
def panel (m : Machine) : String := (Readings.ofMachine m).panel

end Machine

end Accumulator
