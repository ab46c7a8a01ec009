import Accumulator.Instruction.Build
import Accumulator.Text.WordChar

/-! The assembler: instructions and programs from text. An instruction is a mnemonic, and an
argument behind it or in parentheses; a program has an instruction on a line, blank lines, and
comments from a semicolon or a hash sign to the end of the line. The first line that is refused
refuses the program, with its number. -/

namespace Accumulator.Assembler

/-- The text after the last of the blanks that it begins with. -/
def skipBlanks (s : List Char) : List Char := s.dropWhile Text.isBlank

/-- A character that separates arguments: a comma or a blank. -/
def isSeparator (c : Char) : Bool := c == ',' || Text.isBlank c

/-- The parts of a text between runs of separators; the first or the last is empty if the text
begins or ends with one. -/
def fields (s : List Char) : List (List Char) :=
  go [] false s
where
  go (field : List Char) (afterSeparator : Bool) : List Char → List (List Char)
    | [] => [field.reverse]
    | c :: rest =>
      if isSeparator c then
        if afterSeparator then go field true rest else field.reverse :: go [] true rest
      else go (c :: field) false rest

/-- A capital letter in the writing of numbers. Beyond ASCII it matters for one character alone, the
ligature that is capitalized to the hexadecimal digits `FF`. -/
def capital (c : Char) : List Char :=
  if c.toNat = 0xFB00 then ['F', 'F'] else [c.toUpper]

/-- The number of an argument: hexadecimal or binary with its tag, and decimal otherwise. -/
def immediate (token : List Char) : Except Fault Int :=
  let digits := (Text.trim token).flatMap capital
  let read :=
    match digits with
    | '0' :: 'X' :: _ => Number.readIn 16 digits
    | '0' :: 'B' :: _ => Number.readIn 2 digits
    | _ => Number.readIn 10 digits
  match read with
  | .ok n => .ok n
  | .error _ => .error (.badImmediate (String.ofList token))

/-- The text in parentheses, when the text is a pair of them with no other closing one. -/
def callArgument? : List Char → Option (List Char)
  | '(' :: rest =>
    let inner := rest.takeWhile (· != ')')
    if rest.length = inner.length + 1 then some inner else none
  | _ => none

/-- The arguments of an instruction in text: in parentheses, or behind the mnemonic up to the end of
the line. -/
def argumentText? (s : List Char) : Option (List Char) :=
  match callArgument? s with
  | some inner => some inner
  | none => if s.contains '\n' then none else some s

/-- The mnemonic that a text begins with, and the text behind it without the blanks between. -/
def splitName? : List Char → Option (List Char × List Char)
  | [] => none
  | c :: rest =>
    if Text.isNameStart c then
      some (c :: rest.takeWhile Text.isWordChar, skipBlanks (rest.dropWhile Text.isWordChar))
    else none

/-- The numbers of the arguments in a text. -/
def arguments (s : List Char) : Except Fault (List Int) :=
  match Text.trim s with
  | [] => .ok []
  | s => (fields s).mapM immediate

/-- Reads one instruction: its form is checked first, then the mnemonic, then each argument, and
then their number. -/
def readInstruction (text : List Char) : Except Fault Instruction :=
  match splitName? (Text.trim text) with
  | none => .error (.badFormat (String.ofList text))
  | some (name, rest) =>
    match argumentText? rest with
    | none => .error (.badFormat (String.ofList text))
    | some args => do
      let op ← Operation.ofValue (.text (String.ofList name))
      Instruction.ofArgs op ((← arguments args).map .int)

/-- The lines of a text, which end at newlines. -/
def linesOf : List Char → List (List Char)
  | [] => [[]]
  | c :: rest =>
    if c = '\n' then [] :: linesOf rest
    else
      match linesOf rest with
      | [] => [[c]]
      | line :: lines => (c :: line) :: lines

/-- A line without its comment and without blanks at its ends. -/
def code (line : List Char) : List Char :=
  Text.trim (line.takeWhile fun c => c != ';' && c != '#')

/-- The instruction on a line, if there is one. -/
def readLine (number : Nat) (line : List Char) : Except Fault (Option Instruction) :=
  match code line with
  | [] => .ok none
  | s =>
    match readInstruction s with
    | .ok i => .ok (some i)
    | .error fault => .error (.onLine number fault)

/-- The instructions on lines, the first of which has the given number. -/
def readLines (number : Nat) : List (List Char) → Except Fault (List Instruction)
  | [] => .ok []
  | line :: lines => do
    let first ← readLine number line
    let rest ← readLines (number + 1) lines
    return first.toList ++ rest

/-- The instruction that a text is. -/
def parseInstruction (text : String) : Except Fault Instruction := readInstruction text.toList

/-- The instructions of a program in text. -/
def parseProgram (source : String) : Except Fault (List Instruction) :=
  readLines 1 (linesOf source.toList)

end Accumulator.Assembler
