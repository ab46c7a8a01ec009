import Accumulator.Proofs.Drawing
import Accumulator.Proofs.Interrupting
import Mathlib

/-! What the pictures of a memory keep of it. The grid, the table and the listing of the cells that
are not zero are drawn each in its own way; from each of them the cells come back, every one from
its place. -/

namespace Accumulator

/-! ### The width of the grid -/

theorem lt_gridWidth_iff {n k : Nat} : k < gridWidth n ↔ k * k < n := by
  have bounded : ∃ c, n ≤ c * c := ⟨n, Nat.le_mul_self n⟩
  let c := Nat.find bounded
  have below (j : Nat) : j * j < n ↔ j < c := by
    rw [Nat.lt_find_iff]
    exact ⟨fun h i hi => not_le.mpr ((Nat.mul_self_le_mul_self hi).trans_lt h),
      fun h => not_le.mp (h j le_rfl)⟩
  have inside : c ≤ n := Nat.find_min' bounded (Nat.le_mul_self n)
  -- The numbers whose square is less than `n` are those before the first whose square is not.
  have width : gridWidth n = c := by
    have counted : gridWidth n = Nat.count (fun j => j < c) (c + (n - c)) := by
      rw [Nat.add_sub_cancel' inside, Nat.count, gridWidth]
      simp only [below]
    rw [counted, Nat.count_add, Nat.count_iff_forall.mpr fun _ h => h,
      Nat.count_iff_forall_not.mpr (by simp)]
    rfl
  rw [width, below]

/-- The grid is as wide as the least number whose square holds all cells. -/
theorem gridWidth_spec (n : Nat) :
    n ≤ gridWidth n * gridWidth n ∧ ∀ k, n ≤ k * k → gridWidth n ≤ k :=
  ⟨not_lt.mp (mt lt_gridWidth_iff.mpr (lt_irrefl _)),
    fun _ h => not_lt.mp fun narrower => not_lt.mpr h (lt_gridWidth_iff.mp narrower)⟩

/-! ### Rows -/

/-- The number of rows that a number of items takes up. -/
def rowCount (width n : Nat) : Nat := (n + width - 1) / width

section
variable {α : Type} {width limit n : Nat} {items : List α}

/-- There are the rows whose first item there is. -/
theorem lt_rowCount_iff (hwidth : 0 < width) {row : Nat} :
    row < rowCount width n ↔ row * width < n := by
  rw [rowCount, ← Nat.succ_le_iff, Nat.le_div_iff_mul_le hwidth, Nat.succ_mul]
  omega

theorem rowCount_step (hwidth : 0 < width) (hn : 0 < n) :
    rowCount width n = rowCount width (n - width) + 1 := by
  refine eq_of_forall_lt_iff fun row => ?_
  cases row with
  | zero => simp [lt_rowCount_iff hwidth, hn]
  | succ row =>
    rw [Nat.succ_lt_succ_iff, lt_rowCount_iff hwidth, lt_rowCount_iff hwidth, Nat.succ_mul]
    omega

/-- The items in rows, row by row. -/
theorem rowsOf_eq (hwidth : 0 < width) (hlimit : items.length ≤ limit) : rowsOf width limit items =
    (List.range (rowCount width items.length)).map fun row =>
      (items.drop (row * width)).take width := by
  induction limit generalizing items with
  | zero =>
    obtain rfl : items = [] := List.eq_nil_of_length_eq_zero (Nat.le_zero.mp hlimit)
    simp [rowsOf, rowCount, hwidth]
  | succ limit ih =>
    cases items with
    | nil => simp [rowsOf, rowCount, hwidth]
    | cons item items =>
      have shorter : ((item :: items).drop width).length ≤ limit := by
        simp only [List.length_drop, List.length_cons] at hlimit ⊢
        omega
      have count := rowCount_step (n := (item :: items).length) hwidth (Nat.succ_pos _)
      rw [← List.length_drop] at count
      rw [rowsOf, ih shorter, count, List.range_succ_eq_map, List.map_cons, List.map_map,
        Nat.zero_mul, List.drop_zero]
      · refine congrArg _ (List.map_congr_left fun row _ => ?_)
        rw [Function.comp_apply, List.drop_drop, Nat.succ_mul, Nat.add_comm width]
      · exact List.cons_ne_nil _ _

theorem flatten_rowsOf (hwidth : 0 < width) (hlimit : items.length ≤ limit) :
    (rowsOf width limit items).flatten = items := by
  induction limit generalizing items with
  | zero =>
    obtain rfl : items = [] := List.eq_nil_of_length_eq_zero (Nat.le_zero.mp hlimit)
    rfl
  | succ limit ih =>
    cases items with
    | nil => rfl
    | cons item items =>
      have shorter : ((item :: items).drop width).length ≤ limit := by
        simp only [List.length_drop, List.length_cons] at hlimit ⊢
        omega
      rw [rowsOf, List.flatten_cons, ih shorter, List.take_append_drop]
      exact List.cons_ne_nil _ _

/-- An item stands in the row and the column of its number. -/
theorem rowsOf_getElem? (hwidth : 0 < width) (hlimit : items.length ≤ limit) {x : Nat}
    (hx : x < items.length) :
    (rowsOf width limit items)[x / width]?.bind (·[x % width]?) = items[x]? := by
  have row : x / width < rowCount width items.length :=
    (lt_rowCount_iff hwidth).mpr ((Nat.div_mul_le_self x width).trans_lt hx)
  rw [rowsOf_eq hwidth hlimit, List.getElem?_map, List.getElem?_range row, Option.map_some,
    Option.bind_some, List.getElem?_take_of_lt (Nat.mod_lt x hwidth), List.getElem?_drop,
    Nat.mul_comm, Nat.div_add_mod]

/-- Every row but the last is full, and the last is not empty. -/
theorem length_rowsOf (hwidth : 0 < width) (hlimit : items.length ≤ limit) :
    (∀ row ∈ (rowsOf width limit items).dropLast, row.length = width) ∧
      ∀ row ∈ (rowsOf width limit items).getLast?, 1 ≤ row.length ∧ row.length ≤ width := by
  have size (row : Nat) : ((items.drop (row * width)).take width).length =
      min width (items.length - row * width) := by simp
  rw [rowsOf_eq hwidth hlimit]
  constructor
  · intro row hrow
    rw [← List.map_dropLast] at hrow
    obtain ⟨r, hr, rfl⟩ := List.mem_map.mp hrow
    have next : r + 1 < rowCount width items.length := by
      rw [List.dropLast_eq_take, List.length_range, List.take_range] at hr
      have := List.mem_range.mp hr
      omega
    have inside := (lt_rowCount_iff hwidth).mp next
    rw [Nat.succ_mul] at inside
    rw [size]
    omega
  · intro row hrow
    obtain ⟨r, hr, rfl⟩ := List.mem_map.mp (List.mem_of_mem_getLast? hrow)
    have inside := (lt_rowCount_iff hwidth).mp (List.mem_range.mp hr)
    rw [size]
    omega

end

/-- The rows of a grid are no more than its columns. -/
theorem rowCount_le (n : Nat) : rowCount (gridWidth n) n ≤ gridWidth n := by
  by_contra more
  have wide := (gridWidth_spec n).1
  rcases Nat.eq_zero_or_pos (gridWidth n) with none | hwidth
  · rw [none, rowCount, Nat.div_zero] at more
    omega
  · have := (lt_rowCount_iff hwidth).mp (not_le.mp more)
    omega

/-! ### Digits -/

/-- A word is read off its bits. -/
theorem ofDigits_bitsOf (width n : Nat) :
    Number.ofDigits 2 (Word.bitsOf width n) = n % 2 ^ width := by
  induction width generalizing n with
  | zero => simp [Word.bitsOf, Number.ofDigits, Nat.mod_one]
  | succ width ih =>
    have split : Word.bitsOf (width + 1) n =
        Word.bitsOf width (n / 2) ++ [if n.testBit 0 then '1' else '0'] := by
      simp only [Word.bitsOf, List.range_succ_eq_map, List.reverse_cons, List.map_append,
        List.map_cons, List.map_nil, ← List.map_reverse, List.map_map, Function.comp_def,
        Nat.testBit_succ]
    have last : (Number.digitValue (if n.testBit 0 then '1' else '0')).getD 0 = n % 2 := by
      rw [Nat.testBit_zero]
      rcases Nat.mod_two_eq_zero_or_one n with even | odd
      · rw [even]; rfl
      · rw [odd]; rfl
    rw [split, Number.ofDigits_append, ih, last, Nat.pow_succ', Nat.mod_mul]
    omega

theorem ofDigits_binary {width n : Nat} (h : n < 2 ^ width) :
    Number.ofDigits 2 (binary width n).toList = n := by
  rw [binary, Word.bits, String.toList_ofList, ofDigits_bitsOf, Word.truncate]
  simp only
  rw [Word.and_mask, Nat.mod_mod, Nat.mod_eq_of_lt h]

theorem length_binary (width n : Nat) : (binary width n).toList.length = width := by
  simp [binary, Word.bits, Word.bitsOf, Word.truncate]

theorem ofDigits_number (n : Nat) : Number.ofDigits 10 (toString n).toList = n := by
  rw [Nat.toString_eq_repr, Nat.toList_repr, Number.ofDigits_toDigits (by decide) (by decide)]

namespace Panel

/-- The entries of a grid, row by row. -/
def gridEntries (grid : String) : List (List (List Char)) := (lines grid).map (·.splitOn ' ')

/-- The entry of a grid in the place of a number. -/
def gridCell? (grid : String) (width x : Nat) : Option (List Char) :=
  (gridEntries grid)[x / width]?.bind (·[x % width]?)

/-- What stands in a table below its heading and its rule: in a row, and in a column of it. -/
def tableCell? (table : String) (row column : Nat) : Option (List Char) :=
  ((lines table)[row + 2]?.map columns).bind (·[column]?)

/-- The address and the number that a line of a listing states. -/
def listedCell? (line : String) : Option (Nat × Nat) :=
  match (line.toList.drop 2).splitOn ']' with
  | [address, '=' :: number] => some (Number.ofDigits 10 address, Number.ofDigits 10 number)
  | _ => none

variable {m : Memory} {w n : Nat} {selected : Option Int}

/-! ### The grid -/

theorem mem_rows (hwidth : 0 < gridWidth m.size) {row : List String} (hrow : row ∈ m.rows) :
    row ≠ [] ∧ ∀ bits ∈ row, ∃ v ∈ m.cells, bits = binary m.wordSize v := by
  have size : m.binaryCells.length = m.size := List.length_map _
  constructor
  · rw [Memory.rows, rowsOf_eq hwidth size.le] at hrow
    obtain ⟨r, hr, rfl⟩ := List.mem_map.mp hrow
    have inside := (lt_rowCount_iff hwidth).mp (List.mem_range.mp hr)
    rw [← List.length_pos_iff, List.length_take, List.length_drop]
    omega
  · intro bits hbits
    have cell := List.mem_flatten.mpr ⟨row, hrow, hbits⟩
    rw [Memory.rows, flatten_rowsOf hwidth size.le] at cell
    obtain ⟨v, hv, rfl⟩ := List.mem_map.mp cell
    exact ⟨v, hv, rfl⟩

/-- The entries of the grid are the cells in binary. -/
theorem gridEntries_grid (hsize : 0 < m.size) :
    gridEntries m.grid = m.rows.map (·.map String.toList) := by
  have hwidth := gridWidth_pos hsize
  have entry {row : List String} (hrow : row ∈ m.rows) {c : Char} (hc : c ∉ alphabet) :
      ∀ bits ∈ row.map String.toList, c ∉ bits := by
    intro bits hbits
    obtain ⟨text, htext, rfl⟩ := List.mem_map.mp hbits
    obtain ⟨v, -, rfl⟩ := (mem_rows hwidth hrow).2 text htext
    exact (lettered_binary m.wordSize v).free hc
  have texts : lines m.grid = m.rows.map fun row => [' '].intercalate (row.map String.toList) := by
    refine lines_intercalate ?_ ?_ ?_
    · rw [List.map_map]
      refine List.map_congr_left fun row _ => ?_
      rw [Function.comp_apply, String.toList_intercalate]
      rfl
    · have size : m.binaryCells.length = m.size := List.length_map _
      have one : 0 < rowCount (gridWidth m.size) m.binaryCells.length :=
        (lt_rowCount_iff hwidth).mpr (by omega)
      rw [Memory.rows, rowsOf_eq hwidth size.le]
      simpa using one.ne'
    · intro text htext
      obtain ⟨row, hrow, rfl⟩ := List.mem_map.mp htext
      exact free_intercalate (by simp) (entry hrow (by decide))
  rw [gridEntries, texts, List.map_map]
  refine List.map_congr_left fun row hrow => ?_
  exact List.splitOn_intercalate ' ' (entry hrow (by decide))
    (by simpa using (mem_rows hwidth hrow).1)

theorem gridCell?_grid (hsize : 0 < m.size) {x v : Nat} (hx : m.cells[x]? = some v) :
    gridCell? m.grid (gridWidth m.size) x = some (binary m.wordSize v).toList := by
  have size : m.binaryCells.length = m.size := List.length_map _
  have inside : x < m.binaryCells.length :=
    size.symm ▸ (List.getElem?_eq_some_iff.mp hx).1
  have cell := rowsOf_getElem? (gridWidth_pos hsize) size.le inside
  rw [Memory.binaryCells, List.getElem?_map, hx] at cell
  obtain ⟨row, hrow, hcolumn⟩ := Option.bind_eq_some_iff.mp cell
  rw [gridCell?, gridEntries_grid hsize, List.getElem?_map, Memory.rows, Memory.binaryCells, hrow,
    Option.map_some, Option.bind_some, List.getElem?_map, hcolumn]
  rfl

/-! ### The table -/

/-- What stands between the bars of the heading: nothing above the addresses, and the numbers of
the columns. -/
def headingPieces (width : Nat) : List (List Char) :=
  " ".toList :: (List.range width).map fun column => ' ' :: (toString column).toList ++ [' ']

theorem heading_eq {width : Nat} (hwidth : 0 < width) :
    ("| | " ++ " | ".intercalate ((List.range width).map toString) ++ " |").toList =
      barred (headingPieces width) := by
  have wide : (List.range width).map (fun column => (toString column).toList) ≠ [] := by
    simpa using hwidth.ne'
  have cells := framed_cells wide
  rw [List.flatMap_map] at cells
  simp only [headingPieces, String.toList_append, String.toList_intercalate, List.map_map,
    Function.comp_def, barred, List.flatMap_cons, List.flatMap_map]
  simpa using cells

theorem rule_eq (columns : Nat) : (String.join (List.replicate columns "|---") ++ "|").toList =
    barred (List.replicate columns "---".toList) := by
  induction columns with
  | zero => rfl
  | succ columns ih =>
    rw [List.replicate_succ, List.replicate_succ, String.join_cons, barred, List.flatMap_cons]
    simpa [barred] using ih

/-- The columns of the heading, of the rule and of the rows. -/
theorem columns_table (hsize : 0 < m.size) : (lines (m.table selected)).map columns =
    headingPieces (gridWidth m.size) :: List.replicate (gridWidth m.size + 1) "---".toList ::
      (List.range (rowCount (gridWidth m.size) m.size)).map fun row =>
        rowPieces m selected (gridWidth m.size) (row * gridWidth m.size) := by
  have hwidth := gridWidth_pos hsize
  have heading : ∀ piece ∈ headingPieces (gridWidth m.size), '|' ∉ piece := by
    intro piece hpiece
    rcases List.mem_cons.mp hpiece with rfl | hpiece
    · simp
    · obtain ⟨column, -, rfl⟩ := List.mem_map.mp hpiece
      have number := (lettered_number column).free (c := '|') (by decide)
      simpa using number
  have rule : ∀ piece ∈ List.replicate (gridWidth m.size + 1) "---".toList, '|' ∉ piece := by
    intro piece hpiece
    rw [List.eq_of_mem_replicate hpiece]
    simp
  rw [Memory.table, lines_intercalate rfl (by simp [Memory.tableLines])
    (List.forall_mem_map.mpr (free_tableLines m selected hwidth))]
  simp only [Memory.tableLines, List.map_cons, List.map_map, heading_eq hwidth, rule_eq,
    columns_barred heading, columns_barred rule, rowCount]
  refine congrArg _ (congrArg _ (List.map_congr_left fun row _ => ?_))
  rw [Function.comp_apply, Function.comp_apply, tableRow_eq m selected hwidth,
    columns_barred (free_rowPieces m selected _ _ (by decide))]

theorem tableCell?_table (hsize : 0 < m.size) {row : Nat}
    (hrow : row < rowCount (gridWidth m.size) m.size) (column : Nat) :
    tableCell? (m.table selected) row column =
      (rowPieces m selected (gridWidth m.size) (row * gridWidth m.size))[column]? := by
  rw [tableCell?, ← List.getElem?_map, columns_table hsize, List.getElem?_cons_succ,
    List.getElem?_cons_succ, List.getElem?_map, List.getElem?_range hrow]
  rfl

/-! ### The listing -/

/-- The cells that are not zero, each with its address, from an address on. -/
def nonZero (first : Nat) (cells : List Nat) : List (Nat × Nat) :=
  (cells.zipIdx first).filterMap fun (v, a) => if v = 0 then none else some (a, v)

theorem nonZero_cons (first v : Nat) (cells : List Nat) : nonZero first (v :: cells) =
    if v = 0 then nonZero (first + 1) cells else (first, v) :: nonZero (first + 1) cells := by
  rw [nonZero, List.zipIdx_cons, List.filterMap_cons]
  split <;> simp_all [nonZero]

theorem lookup_nonZero_before {cells : List Nat} {first x : Nat} (h : x < first) :
    (nonZero first cells).lookup x = none := by
  induction cells generalizing first with
  | nil => rfl
  | cons v cells ih =>
    have differs : (x == first) = false := by simpa using h.ne
    rw [nonZero_cons]
    split
    · exact ih (h.trans first.lt_succ_self)
    · rw [List.lookup_cons, differs]
      exact ih (h.trans first.lt_succ_self)

/-- A cell that is not listed is zero. -/
theorem lookup_nonZero (cells : List Nat) (first x : Nat) :
    ((nonZero first cells).lookup (first + x)).getD 0 = cells.getD x 0 := by
  induction cells generalizing first x with
  | nil => rfl
  | cons v cells ih =>
    rw [nonZero_cons]
    cases x with
    | zero =>
      by_cases zero : v = 0
      · rw [if_pos zero, Nat.add_zero, lookup_nonZero_before first.lt_succ_self, zero]
        rfl
      · simp [if_neg zero]
    | succ x =>
      have later := ih (first + 1) x
      rw [Nat.add_assoc, Nat.add_comm 1] at later
      have differs : (first + (x + 1) == first) = false := by simp
      rw [List.getD_cons_succ, ← later]
      split
      · rfl
      · rw [List.lookup_cons, differs]

theorem listedCell?_line (a v : Nat) :
    listedCell? ("M[" ++ toString a ++ "]=" ++ toString v) = some (a, v) := by
  have address : ']' ∉ (toString a).toList := (lettered_number a).free (by decide)
  have number : ']' ∉ (toString v).toList := (lettered_number v).free (by decide)
  have line : (("M[" ++ toString a ++ "]=" ++ toString v).toList.drop 2) =
      [']'].intercalate [(toString a).toList, '=' :: (toString v).toList] := by
    simp
  have free := And.intro address number
  rw [listedCell?, line, List.splitOn_intercalate ']' (by simpa using free) (by simp)]
  simp only [ofDigits_number]

/-- Each line of the listing states a cell. -/
theorem map_listedCell? (m : Memory) :
    m.nonZeroLines.map listedCell? = (nonZero 0 m.cells).map some := by
  rw [Memory.nonZeroLines, nonZero, List.map_filterMap, List.map_filterMap]
  refine List.filterMap_congr fun (v, a) _ => ?_
  by_cases zero : v = 0
  · simp [zero]
  · simp only [if_neg zero, Option.map_some, listedCell?_line]

/-! ### Memories -/

/-- The grid of a memory with cells of `w` bits is `width` wide, the least width whose square holds
all `n` cells. It is filled row by row, and the cells are read off it in their order. -/
structure GridShows (m : Memory) (w n width : Nat) : Prop where
  least : n ≤ width * width ∧ ∀ k, n ≤ k * k → width ≤ k
  rows : (gridEntries m.grid).length = rowCount width n ∧ rowCount width n ≤ width
  full : ∀ row ∈ (gridEntries m.grid).dropLast, row.length = width
  last : ∀ row ∈ (gridEntries m.grid).getLast?, 1 ≤ row.length ∧ row.length ≤ width
  digits : ∀ row ∈ gridEntries m.grid, ∀ bits ∈ row,
    bits.length = w ∧ ∀ digit ∈ bits, digit = '0' ∨ digit = '1'
  cells : (gridEntries m.grid).flatten.map (Number.ofDigits 2) = m.cells

/-- The table of a memory has a column for the addresses and one for each column of the grid, in
every line. A cell stands in it where it stands in the grid, with the same digits, and in bold if it
is selected; and nothing stands past the last cell. -/
structure TableShows (m : Memory) (n width : Nat) (selected : Option Int) : Prop where
  heading : (lines (m.table selected)).head?.map columns = some (headingPieces width)
  rows : (lines (m.table selected)).length = rowCount width n + 2
  columns : ∀ line ∈ lines (m.table selected), (columns line).length = width + 1
  address : ∀ row < rowCount width n, tableCell? (m.table selected) row 0 =
    some (" **".toList ++ (toString (width * row)).toList ++ "** ".toList)
  cell : ∀ x < n, ∃ bits entry, gridCell? m.grid width x = some bits ∧
    tableCell? (m.table selected) (x / width) (x % width + 1) = some entry ∧
    (IsBold entry ↔ selected = some (x : Int)) ∧
    (entry = " **".toList ++ bits ++ "** ".toList ∨ entry = " `".toList ++ bits ++ "` ".toList)
  padding : ∀ row < rowCount width n, ∀ column < width, n ≤ width * row + column →
    tableCell? (m.table selected) row (column + 1) = some [' ', ' ']

/-- The listing of the cells that are not zero states the memory: what it does not state is zero. -/
def ListingShows (m : Memory) (lines : List String) : Prop :=
  ∃ cells : List (Nat × Nat), lines.map listedCell? = cells.map some ∧
    (∀ cell ∈ cells, cell.2 ≠ 0) ∧
    m.cells = (List.range m.size).map fun x => (cells.lookup x).getD 0

theorem gridShows (hn : 0 < n) (hm : m.Sound w n) : GridShows m w n (gridWidth n) := by
  obtain rfl := hm.size
  have hwidth := gridWidth_pos hn
  have size : m.binaryCells.length = m.size := List.length_map _
  obtain ⟨full, last⟩ := length_rowsOf hwidth size.le
  have entries := gridEntries_grid hn
  constructor
  case least => exact gridWidth_spec m.size
  case rows =>
    refine ⟨?_, rowCount_le m.size⟩
    rw [entries, List.length_map, Memory.rows, rowsOf_eq hwidth size.le, List.length_map,
      List.length_range, size]
  case full =>
    intro row hrow
    rw [entries, ← List.map_dropLast] at hrow
    obtain ⟨texts, htexts, rfl⟩ := List.mem_map.mp hrow
    rw [List.length_map]
    exact full texts htexts
  case last =>
    intro row hrow
    rw [entries, List.getLast?_map] at hrow
    obtain ⟨texts, htexts, rfl⟩ := Option.mem_map.mp hrow
    rw [List.length_map]
    exact last texts htexts
  case digits =>
    intro row hrow bits hbits
    rw [entries] at hrow
    obtain ⟨texts, htexts, rfl⟩ := List.mem_map.mp hrow
    obtain ⟨text, htext, rfl⟩ := List.mem_map.mp hbits
    obtain ⟨v, -, rfl⟩ := (mem_rows hwidth htexts).2 text htext
    exact ⟨(length_binary _ v).trans hm.wordSize, fun _ => mem_binary⟩
  case cells =>
    rw [entries, ← List.map_flatten, Memory.rows, flatten_rowsOf hwidth size.le,
      Memory.binaryCells, List.map_map, List.map_map]
    refine (List.map_congr_left fun v hv => ?_).trans (List.map_id' _)
    exact ofDigits_binary (hm.wordSize.symm ▸ hm.cells v hv)

theorem tableShows (hn : 0 < n) (hm : m.Sound w n) (selected : Option Int) :
    TableShows m n (gridWidth n) selected := by
  obtain rfl := hm.size
  have hwidth := gridWidth_pos hn
  have drawn : (lines (m.table selected)).map columns = _ := columns_table hn
  have entry {row : Nat} (hrow : row < rowCount (gridWidth m.size) m.size) (column : Nat) :
      tableCell? (m.table selected) row column = _ := tableCell?_table hn hrow column
  constructor
  case heading => rw [← List.head?_map, drawn]; rfl
  case rows =>
    rw [← List.length_map columns, drawn]
    simp
  case columns =>
    intro line hline
    have piece := List.mem_map_of_mem (f := columns) hline
    rw [drawn] at piece
    rcases List.mem_cons.mp piece with heading | piece
    · simp [heading, headingPieces]
    rcases List.mem_cons.mp piece with rule | piece
    · simp [rule]
    · obtain ⟨row, -, eq⟩ := List.mem_map.mp piece
      simp [← eq, rowPieces]
  case address =>
    intro row hrow
    rw [entry hrow, Nat.mul_comm]
    rfl
  case cell =>
    intro x hx
    have held : m.cells[x]? = some m.cells[x] := List.getElem?_eq_getElem hx
    have row : x / gridWidth m.size < rowCount (gridWidth m.size) m.size :=
      (lt_rowCount_iff hwidth).mpr ((Nat.div_mul_le_self x _).trans_lt hx)
    refine ⟨_, entryOf m selected x, gridCell?_grid hn held, ?_, isBold_entryOf held, ?_⟩
    · have place : x / gridWidth m.size * gridWidth m.size + x % gridWidth m.size = x := by
        rw [Nat.mul_comm, Nat.div_add_mod]
      rw [entry row, rowPieces, List.getElem?_cons_succ, List.getElem?_map,
        List.getElem?_range (Nat.mod_lt x hwidth), Option.map_some, place]
    · rw [entryOf_cell held]
      split
      · exact .inl rfl
      · exact .inr rfl
  case padding =>
    intro row hrow column hcolumn past
    have none : m.cells[row * gridWidth m.size + column]? = none := by
      rw [Nat.mul_comm] at past
      exact List.getElem?_eq_none past
    rw [entry hrow, rowPieces, List.getElem?_cons_succ, List.getElem?_map,
      List.getElem?_range hcolumn, Option.map_some, entryOf_none none]

theorem listingShows (m : Memory) : ListingShows m m.nonZeroLines := by
  refine ⟨nonZero 0 m.cells, map_listedCell? m, ?_, ?_⟩
  · intro cell hcell
    obtain ⟨⟨v, a⟩, -, stated⟩ := List.mem_filterMap.mp hcell
    by_cases zero : v = 0
    · simp [zero] at stated
    · obtain rfl : (a, v) = cell := by simpa [zero] using stated
      exact zero
  · refine List.ext_getElem (by simp [Memory.size]) fun x hx _ => ?_
    have cell := lookup_nonZero m.cells 0 x
    rw [Nat.zero_add, List.getD_eq_getElem _ _ hx] at cell
    simp [cell]

/-- The pictures of a memory keep all of it. The grid gives its cells back in their order; the table
shows each of them in its place with the same digits, whichever is selected; and the listing of the
cells that are not zero states the rest by leaving it out, as long as each cell can be written in
decimal. -/
theorem pictures_keep {w n : Nat} {m : Memory} (hn : 0 < n) (hm : m.Sound w n) :
    GridShows m w n (gridWidth n) ∧
      (∀ selected, TableShows m n (gridWidth n) selected) ∧
      ((∀ v ∈ m.cells, v < Number.decimalBound) →
        ∃ lines, m.writtenNonZeroLines = .ok lines ∧ ListingShows m lines) :=
  ⟨gridShows hn hm, tableShows hn hm, fun writable =>
    ⟨_, CommandLine.written_eq_ok writable _, listingShows m⟩⟩

/-- Five cells stand in two rows of three columns; the last column of the second row is empty. -/
theorem pictures_keep_ragged :
    let m : Memory := ⟨3, [0, 5, 1, 2, 0]⟩
    GridShows m 3 5 3 ∧
      (∃ entry, tableCell? (m.table (some 3)) 1 1 = some entry ∧ IsBold entry) ∧
      tableCell? (m.table (some 3)) 1 3 = some [' ', ' '] ∧
      ∃ lines, m.writtenNonZeroLines = .ok lines ∧ ListingShows m lines := by
  intro m
  have sound : m.Sound 3 5 := ⟨rfl, rfl, by decide⟩
  obtain ⟨grid, table, listing⟩ := pictures_keep (by decide) sound
  have width : gridWidth 5 = 3 := by decide
  rw [width] at grid table
  obtain ⟨-, entry, -, placed, bold, -⟩ := (table (some 3)).cell 3 (by decide)
  refine ⟨grid, ⟨entry, placed, bold.mpr rfl⟩, ?_, listing fun v hv => ?_⟩
  · exact (table (some 3)).padding 1 (by decide) 2 (by decide) (by decide)
  · have small : v < 2 ^ 3 := sound.cells v hv
    exact small.trans (by decide +kernel)

/-- With words of 14285 bits a cell can hold a number that has too many digits to be written, and
then there is no listing, and no report. -/
theorem pictures_keep_unwritable :
    let o : CommandLine.Options :=
      { inline := some ""
        wordSize := some 14285
        memorySize := some 1
        assignments := [some ⟨0, -1⟩]
        delay := some Program.defaultDelay
        quiet := true }
    (∃ c, CommandLine.setUp o = .ok c ∧ c.machine.memory.cells = [2 ^ 14285 - 1] ∧
      c.machine.memory.wordSize = 14285 ∧
      ∀ lines, c.machine.memory.writtenNonZeroLines ≠ .ok lines) ∧
    ∃ fault, CommandLine.run o none = .error fault ∧ fault.kind = .invalidValue := by
  intro o
  constructor
  · obtain ⟨c, set, held⟩ := exists_of_toOption (o := CommandLine.setUp o)
      (f := fun c => (decide (c.machine.memory = ⟨14285, [2 ^ 14285 - 1]⟩),
        c.machine.memory.writtenNonZeroLines.toOption.isNone))
      (b := (true, true)) (by decide +kernel)
    obtain ⟨memory, refused⟩ := Prod.mk.inj held
    have memory := of_decide_eq_true memory
    refine ⟨c, set, by rw [memory], by rw [memory], fun lines listed => ?_⟩
    rw [listed] at refused
    cases refused
  · exact exists_of_kind (by decide +kernel)

end Panel

end Accumulator
