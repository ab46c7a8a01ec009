import Accumulator.Number.Literal

/-! Binary floating point numbers of 64 bits, read from decimal text and written back with the
fewest digits that read as the same number. The arithmetic is exact, on natural numbers: a decimal
is a quotient, reading it rounds to the nearest number with ties to the even one, and writing it
searches the decimals of one digit, of two digits and so on for one in the interval of the decimals
that read as the number. -/

namespace Accumulator.Number

/-- A number of 64 bits. `finite negative m e` is `m * 2 ^ e` with its sign, where `m < 2 ^ 53` and
`-1074 ≤ e ≤ 971`, and `2 ^ 52 ≤ m` unless `e = -1074`. -/
inductive Binary64
  | nan
  | infinite (negative : Bool)
  | finite (negative : Bool) (mantissa : Nat) (exponent : Int)
deriving DecidableEq, Repr

namespace Binary64

/-- The least mantissa of a number that is not tiny, `2 ^ 52`. -/
def leastMantissa : Nat := 1 <<< 52

/-- The exponent of the tiny numbers, which is the least one. -/
def leastExponent : Int := -1074

/-- The greatest exponent. -/
def greatestExponent : Int := 971

/-- The quotient rounded to the nearest natural number, ties to the even one. -/
def roundDiv (num den : Nat) : Nat :=
  let q := num / den
  let r := num % den
  if 2 * r < den || (2 * r == den && q % 2 == 0) then q else q + 1

/-- The quotient `num * base ^ k / den`, with no negative power. -/
def scale (base num den : Nat) (k : Int) : Nat × Nat :=
  (num * Nat.pow base k.toNat, den * Nat.pow base (-k).toNat)

/-- The greatest `k` with `2 ^ k ≤ num / den`, for a positive quotient. -/
def binaryExponent (num den : Nat) : Int :=
  let k : Int := (num.log2 : Int) - (den.log2 : Int)
  let scaled := scale 2 num den (-k)
  if scaled.2 ≤ scaled.1 then k else k - 1

/-- The number nearest to a quotient, ties to the even one. -/
def ofRatio (negative : Bool) (num den : Nat) : Binary64 :=
  if num = 0 then finite negative 0 leastExponent
  else
    let e := max (binaryExponent num den - 52) leastExponent
    let scaled := scale 2 num den (-e)
    let m := roundDiv scaled.1 scaled.2
    let (m, e) := if m = 2 * leastMantissa then (leastMantissa, e + 1) else (m, e)
    if greatestExponent < e then infinite negative else finite negative m e

/-- The number nearest to `digits * 10 ^ e`, where `count` is the number of digits. -/
def ofDecimal (negative : Bool) (digits count : Nat) (e : Int) : Binary64 :=
  if digits = 0 then finite negative 0 leastExponent
  else if 400 < (count : Int) + e then infinite negative
  else if (count : Int) + e < -400 then finite negative 0 leastExponent
  else
    let scaled := scale 10 digits 1 e
    ofRatio negative scaled.1 scaled.2

/-- Each underscore stands between two digits. -/
def underscoresBetweenDigits (s : List Char) : Bool :=
  go false s
where
  go (afterDigit : Bool) : List Char → Bool
    | [] => true
    | '_' :: rest => afterDigit && (rest.head?.any (·.isDigit)) && go false rest
    | c :: rest => go c.isDigit rest

/-- The exponent of a decimal: nothing, or the letter, a sign and digits. -/
def readExponent : List Char → Option Int
  | [] => some 0
  | c :: rest =>
    if c = 'e' ∨ c = 'E' then
      let (negative, digits) :=
        match rest with
        | '-' :: digits => (true, digits)
        | '+' :: digits => (false, digits)
        | digits => (false, digits)
      if digits.isEmpty || !digits.all (·.isDigit) then none
      else
        let n : Int := ofDigits 10 digits
        some (if negative then -n else n)
    else none

/-- A decimal without sign: digits, a point, digits and an exponent. -/
def readMagnitude (negative : Bool) (s : List Char) : Option Binary64 :=
  let whole := s.takeWhile (·.isDigit)
  let rest := s.dropWhile (·.isDigit)
  let (fraction, rest) :=
    match rest with
    | '.' :: after => (after.takeWhile (·.isDigit), after.dropWhile (·.isDigit))
    | _ => ([], rest)
  let digits := whole ++ fraction
  if digits.isEmpty then none
  else
    let significant := digits.dropWhile (· == '0')
    (readExponent rest).map fun e =>
      ofDecimal negative (ofDigits 10 digits) significant.length (e - fraction.length)

/-- A number without its sign: a decimal, or a name of infinity or of no number. -/
def readUnsigned (negative : Bool) (s : List Char) : Option Binary64 :=
  let name := String.ofList (s.map Char.toLower)
  if name = "inf" ∨ name = "infinity" then some (infinite negative)
  else if name = "nan" then some nan
  else if underscoresBetweenDigits s then readMagnitude negative (s.filter (· != '_'))
  else none

/-- Reads a number from text, with blanks around it. -/
def read (s : List Char) : Option Binary64 :=
  match plainLiteral s with
  | '-' :: rest => readUnsigned true rest
  | '+' :: rest => readUnsigned false rest
  | s => readUnsigned false s

/-- The greatest `k` with `10 ^ k ≤ num / den`, for a positive quotient. -/
def decimalExponent (num den : Nat) : Int :=
  if den ≤ num then ((Nat.toDigits 10 (num / den)).length : Int) - 1
  else -(((List.range 400).countP fun k => num * Nat.pow 10 k < den : Nat) : Int)

/-- A decimal of `count` digits that reads as the number, the nearest of them, if there is one. The
number is `4 * m * 2 ^ (e - 2)`; the decimals between `low` and `high` quarter units read as it, the
ends included when `m` is even. -/
def decimalOf? (m : Nat) (e : Int) (count : Nat) : Option (Nat × Int) :=
  let value := scale 2 (4 * m) 1 (e - 2)
  let low := if m = leastMantissa ∧ leastExponent < e then 4 * m - 1 else 4 * m - 2
  let high := 4 * m + 2
  let grid := decimalExponent value.1 value.2 - ((count : Int) - 1)
  let onGrid := scale 10 value.1 value.2 (-grid)
  let below := onGrid.1 / onGrid.2
  let reads := fun d : Nat =>
    let ten := scale 10 d 1 grid
    let quarters := scale 2 ten.1 ten.2 (2 - e)
    let least := low * quarters.2
    let most := high * quarters.2
    if m % 2 = 0 then least ≤ quarters.1 && quarters.1 ≤ most
    else least < quarters.1 && quarters.1 < most
  let nearest := roundDiv onGrid.1 onGrid.2
  let other := if nearest = below then below + 1 else below
  if reads nearest then some (nearest, grid)
  else if reads other then some (other, grid)
  else none

/-- The digits of the shortest decimal that reads as `m * 2 ^ e`, and the power of ten of the last
one. -/
def shortest (m : Nat) (e : Int) : Nat × Int :=
  ((List.range 17).findSome? fun n => decimalOf? m e (n + 1)).getD (0, 0)

/-- The digits without the zeros at their end, and where the decimal point stands in them. -/
def pointed (digits : Nat) (e : Int) : List Char × Int :=
  let text := Nat.toDigits 10 digits
  ((text.reverse.dropWhile (· == '0')).reverse, (text.length : Int) + e)

/-- Digits with a decimal point after the first `point` of them. A number from `10 ^ -4` up to
`10 ^ 16` is written with its point in place, and any other with one digit before the point and an
exponent of at least two digits. -/
def layOut (digits : List Char) (point : Int) : List Char :=
  if -4 < point ∧ point ≤ 16 then
    if point ≤ 0 then '0' :: '.' :: List.replicate (-point).toNat '0' ++ digits
    else if (digits.length : Int) ≤ point then
      digits ++ List.replicate (point.toNat - digits.length) '0' ++ ['.', '0']
    else digits.take point.toNat ++ '.' :: digits.drop point.toNat
  else
    let mantissa :=
      match digits with
      | first :: second :: rest => first :: '.' :: second :: rest
      | short => short
    let power := Nat.toDigits 10 (point - 1).natAbs
    mantissa ++ 'e' :: (if point - 1 < 0 then '-' else '+') ::
      List.replicate (2 - power.length) '0' ++ power

/-- The text of a number without its sign. -/
def magnitudeText (m : Nat) (e : Int) : List Char :=
  if m = 0 then ['0', '.', '0']
  else
    let (digits, power) := shortest m e
    let (text, point) := pointed digits power
    layOut text point

/-- The text of a number: the shortest decimal that reads as it. -/
def text : Binary64 → String
  | nan => "nan"
  | infinite negative => if negative then "-inf" else "inf"
  | finite negative m e =>
    let magnitude := magnitudeText m e
    String.ofList (if negative then '-' :: magnitude else magnitude)

/-- The number is zero or less. -/
def isNonPositive : Binary64 → Bool
  | nan => false
  | infinite negative => negative
  | finite negative m _ => negative || m = 0

/-- The whole part of `m * 2 ^ e`. -/
def wholePart (m : Nat) (e : Int) : Nat :=
  let scaled := scale 2 m 1 e
  scaled.1 / scaled.2

end Binary64

end Accumulator.Number
