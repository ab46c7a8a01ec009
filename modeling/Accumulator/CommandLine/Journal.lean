import Accumulator.Computer

/-! The journal as text: a level, the part of the computer that made the record, and the record.
A record with a number that cannot be written is left out. -/

namespace Accumulator

/-- A truth value as the reports show it. -/
def truth (b : Bool) : String := if b then "True" else "False"

namespace Record

/-- A line about the machine. -/
def onMachine (message : String) : String := "DEBUG:accumulator_cpu.machine:" ++ message

/-- A line about a step of a program. -/
def onStep (message : String) : String := "DEBUG:accumulator_cpu.program:" ++ message

/-- A line about a play of a program. -/
def onPlay (message : String) : String := "INFO:accumulator_cpu.program:" ++ message

/-- The line of a record. -/
def text : Record → String
  | decoded i address data =>
    onMachine ("decode " ++ i.text ++ ": AR=" ++ toString address ++ " DR=" ++ toString data)
  | executed op accumulator =>
    onMachine ("execute " ++ op.mnemonic ++ ": ACC=" ++ toString accumulator)
  | stepDecoded counter i => onStep ("step " ++ toString counter ++ ": decoded " ++ i.text)
  | stepExecuted counter i => onStep ("step " ++ toString counter ++ ": executed " ++ i.text)
  | playBegun counter => onPlay ("play: counter=" ++ toString counter)
  | playEnded counter complete =>
    onPlay ("play finished: counter=" ++ toString counter ++ " complete=" ++ truth complete)
  | stopped counter => onPlay ("stop: counter=" ++ toString counter)

/-- The numbers in a record that may be long. -/
def numbers : Record → List Nat
  | decoded i address data => i.args ++ [address, data]
  | executed _ accumulator => [accumulator]
  | stepDecoded _ i | stepExecuted _ i => i.args
  | playBegun _ | playEnded .. | stopped _ => []

/-- The line of a record, if its numbers can be written. -/
def line? (r : Record) : Option String :=
  if r.numbers.all Number.isWritable then some r.text else none

end Record

end Accumulator
