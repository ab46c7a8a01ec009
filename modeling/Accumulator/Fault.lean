import Accumulator.Capacity
import Accumulator.Value

/-! Faults: why a call was refused. A fault is a cause with the values at fault, `Fault.kind` sorts
the causes, and `Fault.message` words them. A message that would show a number with too many digits
cannot be worded, and then that is what is reported. -/

namespace Accumulator

/-- A number that a caller states. -/
inductive Quantity
  | wordValue | wordWidth | shiftAmount | instructionArgument | wordSize | memorySize | memoryValue
deriving DecidableEq, Repr

/-- A quantity in words. -/
def Quantity.phrase : Quantity → String
  | wordValue => "word value"
  | wordWidth => "word width"
  | shiftAmount => "shift amount"
  | instructionArgument => "instruction argument"
  | wordSize => "word size"
  | memorySize => "memory size"
  | memoryValue => "memory value"

/-- Which integers a quantity may be. -/
inductive Demand
  | integer | natural | positive
deriving DecidableEq, Repr

/-- A demand in words. -/
def Demand.phrase : Demand → String
  | integer => "an integer"
  | natural => "a non-negative integer"
  | positive => "a positive integer"

/-- The cause of a refusal. -/
inductive Fault
  /-- A quantity is no integer, or not one of the demanded sign. -/
  | notNumber (demand : Demand) (quantity : Quantity) (got : Value)
  | operandNotWord (got : Value)
  /-- An operand of a word has another width. -/
  | operandWidth (got expected : Nat)
  | unknownName (name : Value)
  /-- The machine's table has no entry for the operation of an instruction. -/
  | unsupported (op : Operation)
  /-- The table has no entry for an operation that is to be carried out. -/
  | noEntry (op : Operation)
  /-- The value cannot be looked up in a table. -/
  | notKey (got : Value)
  /-- The arguments of an instruction are no list and no tuple. -/
  | argsNotSequence (got : Value)
  | tooManyArgs (op : Operation) (count : Nat)
  | notIterable (got : Value)
  | notPair (got : Value)
  | badAddress (got : Value) (size : Nat)
  /-- A position is neither in the program nor at its end. -/
  | badPosition (got : Value) (length : Nat)
  | notInstruction (got : Value)
  /-- Nothing has been decoded since the last execution. -/
  | nothingDecoded
  /-- A step begins inside another step of the same program. -/
  | stepInProgress
  | programComplete
  | alreadyPlaying
  | notCallable (got : Value)
  | tableFrozen
  | duplicateEntry (op : Operation)
  | subscriberFailed (name : String)
  | badFormat (text : String)
  | badImmediate (text : String)
  /-- A line of a program, counted from 1, is refused. -/
  | onLine (line : Nat) (cause : Fault)
  /-- The text on the command line is no assignment. -/
  | badAssignment (text : String)
  /-- The item of a list of assignments has no equals sign. -/
  | missingEquals (item : String)
  /-- The value is no integer literal, in the base or, for base 0, in the base of its tag. -/
  | badLiteral (base : Nat) (got : Value)
  | longLiteral (digits : Nat)
  /-- A number has too many digits to be written in decimal. -/
  | longNumber
  | wordTooWide (width : Nat)
  | memoryTooLarge (size : Nat)
  | notText (got : Value)
  | notPause (got : Value)
  /-- The value has no whole part because it is no number at all. -/
  | wholePartOfNaN
  /-- The value has no whole part because it is infinite. -/
  | wholePartOfInfinity
  | noWholePart (got : Value)
  | emptyTable
  | noProgram (index : Nat)
  /-- The loop is resumed by one of its own steps. -/
  | loopRunning
  /-- The loop is to sleep, and nobody waits for it. -/
  | notAwaited
  | nestedTooDeep
  /-- A run takes more steps than it was allowed. -/
  | runTooLong
deriving Repr

/-- The sorts of faults. The first four are the machine's own. -/
inductive Fault.Kind
  | invalidArgument | outOfRange | unknownOperation | invalidState
  | invalidOption | invalidValue | runtime | wrongType | wrongForm | overflow | storage | badIndex
  | recursion
deriving DecidableEq, Repr

namespace Fault

/-- The sort of a fault. -/
def kind : Fault → Kind
  | notNumber .. | operandNotWord _ | operandWidth .. | argsNotSequence _ | tooManyArgs ..
  | notInstruction _ | notCallable _ | badFormat _ | badImmediate _ => .invalidArgument
  | badAddress .. | badPosition .. => .outOfRange
  | unknownName _ | unsupported _ | noEntry _ => .unknownOperation
  | nothingDecoded | stepInProgress | programComplete | alreadyPlaying => .invalidState
  | onLine _ cause => cause.kind
  | badAssignment _ => .invalidOption
  | duplicateEntry _ | missingEquals _ | badLiteral .. | longLiteral _ | longNumber
  | wholePartOfNaN | notPair _ | emptyTable | loopRunning => .invalidValue
  | tableFrozen | subscriberFailed _ | notAwaited => .runtime
  | notKey _ | notIterable _ | noWholePart _ | notPause _ => .wrongType
  | notText _ => .wrongForm
  | wholePartOfInfinity => .overflow
  | wordTooWide width => if width ≤ Capacity.reachedBits then .storage else .overflow
  | memoryTooLarge size => if size ≤ Capacity.reachedCells then .storage else .overflow
  | noProgram _ => .badIndex
  | nestedTooDeep | runTooLong => .recursion

/-- The machine itself refuses: an argument, an address, an operation or a state is wrong. -/
def isMachineFault (f : Fault) : Bool :=
  match f.kind with
  | .invalidArgument | .outOfRange | .unknownOperation | .invalidState => true
  | _ => false

/-- How many characters of a value a message about a literal shows. -/
def shownLiteralLength : Nat := 200

/-- A fault in words. -/
def message : Fault → String
  | notNumber demand quantity got =>
    quantity.phrase ++ " must be " ++ demand.phrase ++ ", got " ++ got.shown
  | operandNotWord got => "operand must be a Word, got " ++ got.shown
  | operandWidth got expected =>
    "operand width " ++ toString got ++ " does not match word width " ++ toString expected
  | unknownName name => "Unknown operation: " ++ name.shown
  | unsupported op => "Unknown operation: " ++ op.mnemonic
  | noEntry op => "Unknown operation: " ++ op.shown
  | notKey _ => "value cannot be looked up"
  | argsNotSequence got => "args must be a list or tuple, got " ++ got.shown
  | tooManyArgs op count =>
    op.mnemonic ++ " takes at most 1 argument, got " ++ toString count
  | notIterable _ => "value is not iterable"
  | notPair _ => "value is not a pair"
  | badAddress got size =>
    "address " ++ got.shown ++ " out of range [0, " ++ toString size ++ ")"
  | badPosition got length =>
    "insert position " ++ got.shown ++ " out of range [0, " ++ toString length ++ "]"
  | notInstruction got => "cannot decode " ++ got.shown ++ ": not an Instruction"
  | nothingDecoded => "execute() called with no decoded instruction"
  | stepInProgress => "step() called while a step is in progress"
  | programComplete => "program is complete"
  | alreadyPlaying => "program is already playing"
  | notCallable got => "observer must be callable, got " ++ got.shown
  | tableFrozen => "Cannot register operations: registry is frozen"
  | duplicateEntry op => "Operation already registered: " ++ op.mnemonic
  | subscriberFailed name => "subscriber " ++ name ++ " failed"
  | badFormat text => "Unknown instruction format: " ++ Text.quote text
  | badImmediate text => "Invalid argument: " ++ Text.quote text
  | onLine line cause => "line " ++ toString line ++ ": " ++ cause.message
  | badAssignment text => "expected ADDR=VALUE, got " ++ Text.quote text
  | missingEquals item => "expected ADDR=VALUE, got " ++ Text.quote item
  | badLiteral base got =>
    "invalid literal for int() with base " ++ toString base ++ ": " ++
      String.ofList (got.shown.toList.take shownLiteralLength)
  | longLiteral digits =>
    "Exceeds the limit (" ++ toString Number.maxDecimalDigits ++
      " digits) for integer string conversion: value has " ++ toString digits ++
      " digits; use sys.set_int_max_str_digits() to increase the limit"
  | longNumber =>
    "Exceeds the limit (" ++ toString Number.maxDecimalDigits ++
      " digits) for integer string conversion; " ++
      "use sys.set_int_max_str_digits() to increase the limit"
  | wordTooWide _ => "there is no room for a word of this width"
  | memoryTooLarge _ => "there is no room for a memory of this size"
  | notText got => "a program is text, got " ++ got.shown
  | notPause got => "a pause is a number, got " ++ got.shown
  | wholePartOfNaN => "cannot convert float NaN to integer"
  | wholePartOfInfinity => "cannot convert float infinity to integer"
  | noWholePart _ => "value is neither a number nor text"
  | emptyTable => "a table needs at least one cell"
  | noProgram index => "no program " ++ toString index
  | loopRunning => "play loop is already running"
  | notAwaited => "nobody waits for the play loop"
  | nestedTooDeep => "calls from inside notifications are nested too deep"
  | runTooLong => "the run does not end"

/-- The numbers that a message shows can be written. -/
def isWritable : Fault → Bool
  | notNumber _ _ got | operandNotWord got | unknownName got | argsNotSequence got
  | badAddress got _ | badPosition got _ | notInstruction got | notCallable got
  | badLiteral _ got | notText got | notPause got => got.isWritable
  | onLine _ cause => cause.isWritable
  | _ => true

/-- The fault as it is reported: one that cannot be worded gives way to the reason for that. -/
def reported (f : Fault) : Fault := if f.isWritable then f else longNumber

end Fault

/-- What has numbers written in it, if all of them can be written. Inlined, so that what cannot be
written is not made either. -/
@[macro_inline] def written {α : Type} (numbers : List Nat) (a : α) : Except Fault α :=
  if numbers.all Number.isWritable then .ok a else .error .longNumber

/-- The integer that a quantity is stated to be. -/
def Quantity.integer (q : Quantity) : Value → Except Fault Int
  | .int n => .ok n
  | got => .error (.notNumber .integer q got)

/-- The natural number that a quantity is stated to be. -/
def Quantity.natural (q : Quantity) : Value → Except Fault Nat
  | .int (.ofNat n) => .ok n
  | got => .error (.notNumber .natural q got)

/-- The positive number that a quantity is stated to be. -/
def Quantity.positive (q : Quantity) : Value → Except Fault Nat
  | .int (.ofNat (n + 1)) => .ok (n + 1)
  | got => .error (.notNumber .positive q got)

/-- A width for words that there is room for. -/
def Word.checkWidth (width : Nat) : Except Fault Unit :=
  if width ≤ Capacity.wordBits then .ok () else .error (.wordTooWide width)

/-- The width that a value states, for words that there is room for. -/
def Word.widthOf (v : Value) : Except Fault Nat := do
  let width ← Quantity.wordWidth.positive v
  Word.checkWidth width
  return width

end Accumulator
