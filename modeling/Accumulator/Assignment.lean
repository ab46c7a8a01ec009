import Accumulator.Fault

/-! Assignments: an address and a value, apart by an equals sign. One is read on its own, or a
list of them is read from a text with commas or newlines between. -/

namespace Accumulator

/-- A value for the cell at an address. Neither is checked yet. -/
structure Assignment where
  address : Int
  value : Int
deriving DecidableEq, Repr

namespace Assignment

/-- The integer that a literal stands for, in the base of its tag. -/
def integer (s : List Char) : Except Fault Int :=
  match Number.readTagged s with
  | .ok n => .ok n
  | .error .malformed => .error (.badLiteral 0 (.text (String.ofList s)))
  | .error (.tooLong digits) => .error (.longLiteral digits)

/-- The texts before and after the first equals sign. -/
def splitAtEquals? (s : List Char) : Option (List Char × List Char) :=
  match s.dropWhile (· != '=') with
  | [] => none
  | _ :: after => some (s.takeWhile (· != '='), after)

/-- Reads one assignment; the refusal shows the whole text. -/
def read (s : List Char) : Except Fault Assignment :=
  match splitAtEquals? s with
  | none => .error (.badAssignment (String.ofList s))
  | some (address, value) =>
    match integer address, integer value with
    | .ok address, .ok value => .ok { address, value }
    | _, _ => .error (.badAssignment (String.ofList s))

/-- The parts of a text between commas and newlines. -/
def items : List Char → List (List Char)
  | [] => [[]]
  | c :: rest =>
    if c = ',' ∨ c = '\n' then [] :: items rest
    else
      match items rest with
      | [] => [[c]]
      | item :: items => (c :: item) :: items

/-- Reads one item of a list of assignments; the refusal shows what is wrong in it. -/
def readItem (item : List Char) : Except Fault Assignment :=
  match splitAtEquals? item with
  | none => .error (.missingEquals (String.ofList item))
  | some (address, value) => do
    let address ← integer (Text.trim address)
    let value ← integer (Text.trim value)
    return { address, value }

/-- Reads a list of assignments. Items that are blank are passed over. -/
def readList (s : List Char) : Except Fault (List Assignment) :=
  (((items s).map Text.trim).filter (!·.isEmpty)).mapM readItem

/-- The assignment that a text is. -/
def parse (text : String) : Except Fault Assignment := read text.toList

/-- The assignments in a text. -/
def parseList (text : String) : Except Fault (List Assignment) := readList text.toList

/-- The assignment as a write to a memory: the value and the address. -/
def toWrite (a : Assignment) : Value × Value := (.int a.value, .int a.address)

end Assignment

end Accumulator
