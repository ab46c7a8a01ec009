import Accumulator.Text.Printable

/-! Quoted text, as messages show it. A text stands between single quotes, or between double quotes
when it holds a single quote and no double quote. The quote in use and the backslash take a
backslash before them; newline, return and tab are `\n`, `\r` and `\t`; any other character that is
not printable is `\x`, `\u` or `\U` with two, four or eight hexadecimal digits. -/

namespace Accumulator.Text

/-- The hexadecimal digits of `n` in small letters, with zeros before them up to `width`. -/
def hexDigits (width n : Nat) : List Char :=
  let digits := Nat.toDigits 16 n
  List.replicate (width - digits.length) '0' ++ digits

/-- The quote that texts stand between, unless they hold it. -/
def singleQuote : Char := Char.ofNat 0x27

/-- The quote of the texts that hold the other one alone. -/
def doubleQuote : Char := Char.ofNat 0x22

/-- How one character is written between the quotes `mark`. -/
def quoteChar (mark c : Char) : List Char :=
  if c = mark || c = '\\' then ['\\', c]
  else if c = '\n' then ['\\', 'n']
  else if c = '\r' then ['\\', 'r']
  else if c = '\t' then ['\\', 't']
  else if isPrintable c then [c]
  else if c.toNat < 0x100 then '\\' :: 'x' :: hexDigits 2 c.toNat
  else if c.toNat < 0x10000 then '\\' :: 'u' :: hexDigits 4 c.toNat
  else '\\' :: 'U' :: hexDigits 8 c.toNat

/-- The quote that a text stands between. -/
def quoteMark (s : List Char) : Char :=
  if s.contains singleQuote && !s.contains doubleQuote then doubleQuote else singleQuote

/-- A text between quotes. -/
def quote (s : String) : String :=
  let mark := quoteMark s.toList
  String.ofList (mark :: s.toList.flatMap (quoteChar mark) ++ [mark])

end Accumulator.Text
