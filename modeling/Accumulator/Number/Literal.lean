import Accumulator.Text.Blank
import Accumulator.Text.Digit

/-! Integer literals. A literal may have blanks around it, a sign, and single underscores between
its digits, which may come from any script. Two readers share these rules. `readIn` reads in a given
base and lets the tag of that base stand in front. `readTagged` lets the tag choose the base, and
then a number without a tag has no leading zeros. Both refuse a decimal of more than
`maxDecimalDigits` digits, and a number with more of them is not written in decimal either. -/

namespace Accumulator.Number

/-- Why a text is not an integer literal. -/
inductive LiteralError
  | malformed
  | tooLong (digits : Nat)
deriving DecidableEq, Repr

/-- The most digits that a number in decimal may have. -/
def maxDecimalDigits : Nat := 4300

/-- The least number with more digits than that. -/
def decimalBound : Nat := Nat.pow 10 maxDecimalDigits

/-- A number can be written in decimal. -/
def isWritable (n : Nat) : Bool := n < decimalBound

/-- The number that a digit or a letter of ASCII stands for. -/
def digitValue (c : Char) : Option Nat :=
  if '0' ≤ c ∧ c ≤ '9' then some (c.toNat - '0'.toNat)
  else if 'a' ≤ c ∧ c ≤ 'z' then some (c.toNat - 'a'.toNat + 10)
  else if 'A' ≤ c ∧ c ≤ 'Z' then some (c.toNat - 'A'.toNat + 10)
  else none

/-- A digit of the base. -/
def isDigitIn (base : Nat) (c : Char) : Bool :=
  (digitValue c).any (· < base)

/-- The number written by digits of a base, the leading digit first. -/
def ofDigits (base : Nat) (digits : List Char) : Nat :=
  digits.foldl (fun n c => n * base + (digitValue c).getD 0) 0

/-- A run of digits and underscores in which each underscore stands between two digits. -/
def wellGrouped : List Char → Bool
  | [] => false
  | [c] => c != '_'
  | c :: d :: rest => c != '_' && (if d == '_' then wellGrouped rest else wellGrouped (d :: rest))

/-- Reads digits of a base, up to the end of the text. -/
def readDigits (base : Nat) (s : List Char) : Except LiteralError Nat :=
  let run := s.takeWhile fun c => isDigitIn base c || c == '_'
  let digits := run.filter (· != '_')
  if !wellGrouped run then .error .malformed
  else if base = 10 ∧ maxDecimalDigits < digits.length then .error (.tooLong digits.length)
  else if run.length ≠ s.length then .error .malformed
  else .ok (ofDigits base digits)

/-- The base that the letter after a leading zero announces. -/
def tagBase (c : Char) : Option Nat :=
  if c = 'x' ∨ c = 'X' then some 16
  else if c = 'o' ∨ c = 'O' then some 8
  else if c = 'b' ∨ c = 'B' then some 2
  else none

/-- The text after a tag, where one underscore may set the digits off. -/
def afterTag : List Char → List Char
  | '_' :: rest => rest
  | rest => rest

/-- The digits of a number in a given base, which its tag may announce. -/
def readUnsignedIn (base : Nat) : List Char → Except LiteralError Nat
  | '0' :: tag :: rest =>
    if tagBase tag = some base then readDigits base (afterTag rest)
    else readDigits base ('0' :: tag :: rest)
  | s => readDigits base s

/-- The digits of a number whose tag chooses the base; without a tag they are decimal, and only
zero may begin with a zero. -/
def readUnsignedTagged : List Char → Except LiteralError Nat
  | '0' :: tag :: rest =>
    match tagBase tag with
    | some base => readDigits base (afterTag rest)
    | none => do
      let n ← readDigits 10 ('0' :: tag :: rest)
      if n = 0 then .ok n else .error .malformed
  | s => readDigits 10 s

/-- Reads a sign, if there is one, and then a number. -/
def readSigned (read : List Char → Except LiteralError Nat) :
    List Char → Except LiteralError Int
  | '-' :: rest => (read rest).map fun n => -(n : Int)
  | '+' :: rest => (read rest).map fun n => (n : Int)
  | s => (read s).map fun n => (n : Int)

/-- A literal without the blanks around it and with the digits of ASCII. -/
def plainLiteral (s : List Char) : List Char :=
  (Text.trimBy Text.isNumberBlank s).map Text.plainDigit

/-- Reads an integer in a given base. -/
def readIn (base : Nat) (s : List Char) : Except LiteralError Int :=
  readSigned (readUnsignedIn base) (plainLiteral s)

/-- Reads an integer in the base that its tag announces. -/
def readTagged (s : List Char) : Except LiteralError Int :=
  readSigned readUnsignedTagged (plainLiteral s)

end Accumulator.Number
