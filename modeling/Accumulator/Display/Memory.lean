import Accumulator.Memory

/-! The memory as text. The cells stand in binary in rows of the least length whose square holds all
of them: as a plain grid, as a table with the address of each row and the selected cell in bold, or
as a list of the cells that are not zero. -/

namespace Accumulator

/-- The least number whose square is not less than `n`: there are so many numbers whose square is
less. -/
def gridWidth (n : Nat) : Nat :=
  (List.range n).countP fun c => c * c < n

/-- The items in rows of `width`, the last of which may be shorter; at most `limit` of them. -/
def rowsOf {α : Type} (width : Nat) : Nat → List α → List (List α)
  | 0, _ => []
  | _, [] => []
  | limit + 1, items => items.take width :: rowsOf width limit (items.drop width)

namespace Memory

/-- The cells in rows of the grid's width. -/
def rows (m : Memory) : List (List String) :=
  rowsOf (gridWidth m.size) m.size m.binaryCells

/-- The cells as a grid: the cells of a row apart by spaces. -/
def grid (m : Memory) : String :=
  "\n".intercalate (m.rows.map (" ".intercalate ·))

/-- How the cell at an address stands in a table: empty past the last one, in bold when it is
selected, and as code otherwise. -/
def tableCell (m : Memory) (selected : Option Int) (a : Nat) : String :=
  match m.cells[a]? with
  | none => ""
  | some n =>
    let bits := binary m.wordSize n
    if selected = some (a : Int) then "**" ++ bits ++ "**" else "`" ++ bits ++ "`"

/-- The row of a table that begins at an address. -/
def tableRow (m : Memory) (selected : Option Int) (width start : Nat) : String :=
  "| **" ++ toString start ++ "** | " ++
    " | ".intercalate
      ((List.range width).map fun column => m.tableCell selected (start + column)) ++ " |"

/-- The lines of a table: the columns, a rule, and the rows of cells. -/
def tableLines (m : Memory) (selected : Option Int) : List String :=
  let width := gridWidth m.size
  let rowCount := (m.size + width - 1) / width
  ("| | " ++ " | ".intercalate ((List.range width).map toString) ++ " |") ::
    (String.join (List.replicate (width + 1) "|---") ++ "|") ::
    (List.range rowCount).map fun row => m.tableRow selected width (row * width)

/-- The cells as a table with the selected one in bold. -/
def table (m : Memory) (selected : Option Int) : String :=
  "\n".intercalate (m.tableLines selected)

/-- The cells that are not zero, one on a line, with their addresses. -/
def nonZeroLines (m : Memory) : List String :=
  m.cells.zipIdx.filterMap fun (n, a) =>
    if n = 0 then none else some ("M[" ++ toString a ++ "]=" ++ toString n)

/-- The cells that are not zero, one on a line, if they can be written. -/
def writtenNonZeroLines (m : Memory) : Except Fault (List String) :=
  written m.cells m.nonZeroLines

end Memory

end Accumulator
