/-! Words: unsigned numbers of a fixed width in bits. A word never holds a bit beyond its width:
`truncate` drops the bits that do not fit, and each operation ends in it. -/

namespace Accumulator

/-- A number of `width` bits. -/
structure Word where
  value : Nat
  width : Nat
deriving DecidableEq, Repr

namespace Word

/-- The number whose `width` lowest bits are ones. -/
def mask (width : Nat) : Nat := (1 <<< width) - 1

/-- The word of the `width` lowest bits of a number. -/
def truncate (width n : Nat) : Word := ⟨n &&& mask width, width⟩

/-- The `width` lowest bits of an integer, a negative one in two's complement. -/
def lowBits (width : Nat) (n : Int) : Nat := (n % (1 <<< width : Nat)).toNat

/-- Bitwise conjunction, of a word of the same width. -/
def and (a b : Word) : Word := truncate a.width (a.value &&& b.value)

/-- Bitwise disjunction, of a word of the same width. -/
def or (a b : Word) : Word := truncate a.width (a.value ||| b.value)

/-- Bitwise difference, of a word of the same width. -/
def xor (a b : Word) : Word := truncate a.width (a.value ^^^ b.value)

/-- The word with every bit the other way round. -/
def complement (a : Word) : Word := truncate a.width (a.value ^^^ mask a.width)

/-- The word moved `n` places to the left, with zeros behind it. -/
def shiftLeft (a : Word) (n : Nat) : Word :=
  if a.width ≤ n then truncate a.width 0 else truncate a.width (a.value <<< n)

/-- The word moved `n` places to the right, with zeros before it. -/
def shiftRight (a : Word) (n : Nat) : Word := truncate a.width (a.value >>> n)

/-- The bits of a number from place `width - 1` down to place 0. -/
def bitsOf (width n : Nat) : List Char :=
  (List.range width).reverse.map fun place => if n.testBit place then '1' else '0'

/-- The word in binary, with as many digits as it has bits. -/
def bits (a : Word) : String := String.ofList (bitsOf a.width a.value)

end Word

/-- The low `width` bits of a number in binary. -/
def binary (width n : Nat) : String := (Word.truncate width n).bits

end Accumulator
