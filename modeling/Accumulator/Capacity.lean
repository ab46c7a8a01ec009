/-! Capacities: how wide a word and how large a memory can be before there is no room for them. Past
a second bound, which is that of an index, not even their size can be stated to the storage. -/

namespace Accumulator.Capacity

/-- The most bits that there is room for in a word. -/
def wordBits : Nat := 1 <<< 36

/-- The most bits of a word that an index reaches, which counts them by thirties. -/
def reachedBits : Nat := 30 * ((1 <<< 61) - 8)

/-- The most cells that there is room for in a memory. -/
def cells : Nat := 1 <<< 32

/-- The most cells that an index reaches. -/
def reachedCells : Nat := (1 <<< 63) - 1

end Accumulator.Capacity
