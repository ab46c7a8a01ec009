import Accumulator.Proofs.Machine
import Accumulator.Proofs.Numeral
import Accumulator.Workbench.Session

/-! What can be read off the panels as they are drawn. The lines of a panel come back from its text,
and so do the columns of a table's line, since no number and no instruction has a line break or a
bar in it; the cells of the memory stand in the table in the order of their addresses. -/

namespace Accumulator

namespace Panel

/-- The lines of a panel. -/
def lines (panel : String) : List (List Char) := panel.toList.splitOn '\n'

/-- What stands in the columns of a table's line, between its bars. -/
def columns (line : List Char) : List (List Char) := ((line.splitOn '|').drop 1).dropLast

/-- The entries of the cells in the table of the memory: in each line below the heading, what stands
behind the address of the row. -/
def cellEntries (panel : String) : List (List Char) :=
  ((lines panel).drop 2).flatMap fun line => (columns line).drop 1

/-- Something in the entry is in bold. -/
def IsBold (entry : List Char) : Prop := "**".toList <:+: entry

/-- The row of a register in the table of the registers. -/
def registerRow? (label : String) (panel : String) : Option (List (List Char)) :=
  ((lines panel).map columns).find? fun row => row.head? = some label.toList

/-- The line about the cycle, below the registers. -/
def cycleLine (panel : String) : List Char := (lines panel).getLastD []

/-- The line about the cycle that names an instruction as decoded. -/
def decodedLine (instruction : String) : String :=
  "**Status:** " ++ ("decoded `" ++ instruction ++ "`, about to execute")

/-- A line of a listing begins with an arrow. -/
def hasArrow (arrow : String) (line : List Char) : Bool := arrow.toList.isPrefixOf line

/-- A line of a listing is marked. -/
def isMarked (line : List Char) : Bool := hasArrow "=> " line || hasArrow "-> " line

/-! ### Letters -/

/-- The characters of which numbers and instructions are written. -/
def alphabet : List Char :=
  ['(', ')', '0', '1', '2', '3', '4', '5', '6', '7', '8', '9',
    'a', 'd', 'e', 'f', 'h', 'i', 'l', 'n', 'o', 'r', 's', 't', 'x']

/-- A text is written in these characters alone. -/
def Lettered (s : List Char) : Prop := ∀ c ∈ s, c ∈ alphabet

theorem Lettered.free {s : List Char} (h : Lettered s) {c : Char} (hc : c ∉ alphabet) : c ∉ s :=
  fun hmem => hc (h c hmem)

theorem Lettered.append {s t : List Char} (hs : Lettered s) (ht : Lettered t) :
    Lettered (s ++ t) :=
  List.forall_mem_append.mpr ⟨hs, ht⟩

theorem lettered_number (n : Nat) : Lettered (toString n).toList := by
  intro c hc
  rw [Nat.toString_eq_repr, Nat.toList_repr] at hc
  obtain ⟨d, hd, rfl⟩ := Number.mem_toDigits (by decide) hc
  have hdigits : ∀ d < 10, Nat.digitChar d ∈ alphabet := by decide
  exact hdigits d hd

/-- A number in binary is written in zeros and ones. -/
theorem mem_binary {width n : Nat} {c : Char} (h : c ∈ (binary width n).toList) :
    c = '0' ∨ c = '1' := by
  simp only [binary, Word.bits, String.toList_ofList, Word.bitsOf, List.mem_map] at h
  obtain ⟨place, -, rfl⟩ := h
  split
  · exact .inr rfl
  · exact .inl rfl

theorem lettered_binary (width n : Nat) : Lettered (binary width n).toList := by
  intro c hc
  rcases mem_binary hc with rfl | rfl <;> decide

theorem lettered_mnemonic (op : Operation) : Lettered op.mnemonic.toList := by
  cases op <;> simp [Lettered, alphabet, Operation.mnemonic]

theorem lettered_instruction (i : Instruction) : Lettered i.text.toList := by
  have hname : Lettered i.name.toList := lettered_mnemonic i.operation
  unfold Instruction.text
  cases i.address with
  | none =>
    rw [String.toList_append]
    exact hname.append (by simp [Lettered, alphabet])
  | some a =>
    have hopening : Lettered "(".toList := by simp [Lettered, alphabet]
    have hclosing : Lettered ")".toList := by simp [Lettered, alphabet]
    simp only [String.toList_append]
    exact ((hname.append hopening).append (lettered_number a)).append hclosing

/-! ### Lines and columns -/

theorem lines_intercalate {items : List String} {texts : List (List Char)}
    (heq : items.map String.toList = texts) (hne : texts ≠ []) (h : ∀ text ∈ texts, '\n' ∉ text) :
    lines ("\n".intercalate items) = texts := by
  rw [lines, String.toList_intercalate, heq]
  exact List.splitOn_intercalate '\n' h hne

/-- A line of a table: bars, and what stands between them. -/
def barred (pieces : List (List Char)) : List Char := '|' :: pieces.flatMap (· ++ ['|'])

theorem intercalate_bars (first : List Char) (pieces : List (List Char)) :
    ['|'].intercalate (first :: (pieces ++ [[]])) = first ++ barred pieces := by
  induction pieces generalizing first with
  | nil => simp [barred]
  | cons piece pieces ih =>
    rw [List.cons_append, List.intercalate_cons_cons, ih]
    simp [barred]

theorem columns_barred {pieces : List (List Char)} (h : ∀ piece ∈ pieces, '|' ∉ piece) :
    columns (barred pieces) = pieces := by
  have hbars := intercalate_bars [] pieces
  rw [List.nil_append] at hbars
  rw [columns, ← hbars, List.splitOn_intercalate '|' ?_ (by simp)]
  · simp
  · simpa [or_imp, forall_and] using h

/-! ### The memory -/

theorem gridWidth_pos {n : Nat} (h : 0 < n) : 0 < gridWidth n := by
  rw [gridWidth, List.countP_pos_iff]
  exact ⟨0, List.mem_range.mpr h, by simpa using h⟩

/-- Rows of a width hold what stands in one row of them all. -/
theorem flatMap_rows {α : Type} (f : Nat → α) (width rows : Nat) :
    ((List.range rows).flatMap fun row => (List.range width).map fun column =>
      f (row * width + column)) = (List.range (rows * width)).map f := by
  induction rows with
  | zero => simp
  | succ rows ih =>
    rw [List.range_succ, List.flatMap_append, ih, Nat.succ_mul, List.range_add]
    simp

/-- Cells apart by bars, with a blank on either side of each, and a bar at the end. -/
theorem framed_cells {cells : List (List Char)} (hne : cells ≠ []) :
    ' ' :: " | ".toList.intercalate cells ++ " |".toList =
      cells.flatMap fun cell => ' ' :: cell ++ [' ', '|'] := by
  induction cells with
  | nil => contradiction
  | cons cell cells ih =>
    cases cells with
    | nil => simp
    | cons next cells =>
      rw [List.flatMap_cons, ← ih (List.cons_ne_nil next cells), List.intercalate_cons_cons]
      simp

variable {m : Memory} {selected : Option Int} {width a : Nat}

/-- The entry of a cell in the table of a memory. -/
def entryOf (m : Memory) (selected : Option Int) (a : Nat) : List Char :=
  ' ' :: (m.tableCell selected a).toList ++ [' ']

/-- What stands between the bars of a row: the address at which it begins, and its entries. -/
def rowPieces (m : Memory) (selected : Option Int) (width start : Nat) : List (List Char) :=
  (" **".toList ++ (toString start).toList ++ "** ".toList) ::
    (List.range width).map fun column => entryOf m selected (start + column)

theorem tableRow_eq (m : Memory) (selected : Option Int) (hwidth : 0 < width) (start : Nat) :
    (m.tableRow selected width start).toList = barred (rowPieces m selected width start) := by
  have hne : (List.range width).map (fun column =>
      (m.tableCell selected (start + column)).toList) ≠ [] := by
    simpa using hwidth.ne'
  have hcells := framed_cells hne
  rw [List.flatMap_map] at hcells
  simp only [Memory.tableRow, rowPieces, String.toList_append, String.toList_intercalate,
    List.map_map, Function.comp_def, barred, List.flatMap_cons, List.flatMap_map, entryOf]
  simp only [List.append_assoc, List.cons_append, List.nil_append] at hcells ⊢
  simp [← hcells]

/-- An entry is in bold if its cell is the selected one, and shows the cell in binary. -/
theorem entryOf_cell {n : Nat} (hn : m.cells[a]? = some n) : entryOf m selected a =
    if selected = some (a : Int) then " **".toList ++ (binary m.wordSize n).toList ++ "** ".toList
    else " `".toList ++ (binary m.wordSize n).toList ++ "` ".toList := by
  simp only [entryOf, Memory.tableCell, hn]
  split <;> simp

theorem entryOf_none (hn : m.cells[a]? = none) : entryOf m selected a = [' ', ' '] := by
  simp [entryOf, Memory.tableCell, hn]

theorem mem_entryOf {c : Char} (h : c ∈ entryOf m selected a) : c ∈ [' ', '*', '`', '0', '1'] := by
  cases hn : m.cells[a]? with
  | none =>
    rw [entryOf_none hn] at h
    obtain rfl : c = ' ' := by simpa using h
    exact List.mem_cons_self
  | some n =>
    rw [entryOf_cell hn] at h
    have hbits : ∀ c ∈ (binary m.wordSize n).toList, c = '0' ∨ c = '1' := fun _ => mem_binary
    split at h <;> grind

theorem free_rowPieces (m : Memory) (selected : Option Int) (width start : Nat) {c : Char}
    (hc : c ∉ ' ' :: '*' :: '`' :: alphabet) :
    ∀ piece ∈ rowPieces m selected width start, c ∉ piece := by
  intro piece hpiece hmem
  refine hc ?_
  rcases List.mem_cons.mp hpiece with rfl | hpiece
  · have hstart := lettered_number start c
    grind
  · obtain ⟨column, -, rfl⟩ := List.mem_map.mp hpiece
    have hentry := mem_entryOf hmem
    simp only [alphabet]
    grind

theorem isBold_entryOf {n : Nat} (hn : m.cells[a]? = some n) :
    IsBold (entryOf m selected a) ↔ selected = some (a : Int) := by
  rw [entryOf_cell hn]
  split
  · rename_i hselected
    exact iff_of_true ⟨[' '], (binary m.wordSize n).toList ++ "** ".toList, by simp⟩ hselected
  · rename_i hselected
    refine iff_of_false (fun hbold => ?_) hselected
    have hstar := hbold.subset (show '*' ∈ "**".toList by simp)
    simp at hstar
    rcases mem_binary hstar with h | h <;> cases h

theorem free_intercalate {c : Char} {separator : List Char} {items : List (List Char)}
    (hseparator : c ∉ separator) (hitems : ∀ item ∈ items, c ∉ item) :
    c ∉ separator.intercalate items := by
  induction items with
  | nil => simp
  | cons item items ih =>
    have hitem := hitems item List.mem_cons_self
    cases items with
    | nil => simpa using hitem
    | cons next items =>
      rw [List.intercalate_cons_cons]
      have hrest := ih fun other hother => hitems other (List.mem_cons_of_mem item hother)
      simp [hitem, hseparator, hrest]

theorem free_barred {c : Char} {pieces : List (List Char)} (hc : c ≠ '|')
    (h : ∀ piece ∈ pieces, c ∉ piece) : c ∉ barred pieces := by
  simpa [barred, hc] using h

/-- No line of the table has a line break in it. -/
theorem free_tableLines (m : Memory) (selected : Option Int) (hwidth : 0 < gridWidth m.size) :
    ∀ line ∈ m.tableLines selected, '\n' ∉ line.toList := by
  intro line hline
  simp only [Memory.tableLines, List.mem_cons, List.mem_map] at hline
  rcases hline with rfl | rfl | ⟨row, -, rfl⟩
  · have hcolumns : '\n' ∉ " | ".toList.intercalate
        (((List.range (gridWidth m.size)).map toString).map String.toList) := by
      refine free_intercalate (by simp) ?_
      simp only [List.map_map, List.forall_mem_map, Function.comp_apply]
      exact fun n _ => (lettered_number n).free (by decide)
    simp only [String.toList_append, String.toList_intercalate, List.mem_append, hcolumns]
    simp
  · simp [String.toList_join]
  · rw [tableRow_eq m selected hwidth]
    exact free_barred (by decide) (free_rowPieces m selected _ _ (by decide))

/-- The cells stand in the table in the order of their addresses, and at its end there may be places
without a cell. -/
theorem cellEntries_table (m : Memory) (selected : Option Int) (hsize : 0 < m.size) :
    cellEntries (m.table selected) =
      (List.range ((m.size + gridWidth m.size - 1) / gridWidth m.size * gridWidth m.size)).map
        (entryOf m selected) := by
  have hwidth := gridWidth_pos hsize
  have hrow : ∀ start, (columns (m.tableRow selected (gridWidth m.size) start).toList).drop 1 =
      (List.range (gridWidth m.size)).map fun column => entryOf m selected (start + column) := by
    intro start
    rw [tableRow_eq m selected hwidth, columns_barred (free_rowPieces m selected _ _ (by decide))]
    rfl
  rw [cellEntries, Memory.table, lines_intercalate rfl (by simp [Memory.tableLines])
    (List.forall_mem_map.mpr (free_tableLines m selected hwidth))]
  simp only [Memory.tableLines, List.map_cons, List.drop_succ_cons, List.drop_zero, List.map_map,
    List.flatMap_map, Function.comp_apply, hrow]
  exact flatMap_rows (entryOf m selected) _ _

/-! ### The registers -/

/-- The reading of a register as the table shows it. -/
def readingPieces (r : Reading) : List (List Char) :=
  [" `".toList ++ r.bits.toList ++ "` ".toList, ' ' :: r.number.toList ++ [' ']]

theorem free_readingPieces (width n : Nat) {c : Char} (hc : c ∉ ' ' :: '`' :: alphabet) :
    ∀ piece ∈ readingPieces (.ofNat width n), c ∉ piece := by
  have hbits := lettered_binary width n c
  have hnumber := lettered_number n c
  simp only [readingPieces, Reading.ofNat, List.forall_mem_cons, List.not_mem_nil, false_implies,
    implies_true, and_true]
  grind

theorem free_status (r : Readings) : '\n' ∉ r.status.toList := by
  have htext : ∀ i : Instruction, '\n' ∉ i.text.toList := fun i =>
    (lettered_instruction i).free (by decide)
  unfold Readings.status
  split
  · cases r.instruction <;> simp [htext]
  · cases r.instruction <;> simp [htext]

theorem free_instructionText (r : Readings) : '\n' ∉ r.instructionText.toList := by
  unfold Readings.instructionText
  split
  · exact (lettered_instruction _).free (by decide)
  · simp

theorem lines_panel (m : Machine) : lines m.panel =
    [barred [" Register ".toList, " Binary ".toList, " Decimal ".toList],
      barred ["---".toList, "---".toList, "---".toList],
      barred (" ACC ".toList :: readingPieces (.ofNat m.wordSize m.registers.accumulator)),
      barred [" AR ".toList, " ".toList, ' ' :: (toString m.registers.address).toList ++ [' ']],
      barred (" DR ".toList :: readingPieces (.ofNat m.wordSize m.registers.data)),
      barred [" IR ".toList, " `".toList ++ (Readings.ofMachine m).instructionText.toList ++
        "` ".toList, " ".toList],
      [],
      "**Status:** ".toList ++ (Readings.ofMachine m).status.toList] := by
  refine lines_intercalate ?_ (List.cons_ne_nil _ _) ?_
  · simp [Readings.ofMachine, barred, readingPieces, Reading.ofNat]
  · simp only [List.forall_mem_cons, List.not_mem_nil, false_implies, implies_true, and_true]
    have hregister (label : List Char) (n : Nat) (hlabel : '\n' ∉ label) :
        '\n' ∉ barred (label :: readingPieces (.ofNat m.wordSize n)) :=
      free_barred (by decide)
        (List.forall_mem_cons.mpr ⟨hlabel, free_readingPieces m.wordSize n (by decide)⟩)
    have haddress := (lettered_number m.registers.address).free (c := '\n') (by decide)
    have hinstruction := free_instructionText (.ofMachine m)
    have hstatus := free_status (.ofMachine m)
    refine ⟨by simp [barred], by simp [barred], hregister _ _ (by simp), ?_,
      hregister _ _ (by simp), ?_, not_false, ?_⟩
    · exact free_barred (by decide) (by grind)
    · exact free_barred (by decide) (by grind)
    · simp [hstatus]

/-- The columns of the registers that have a number. -/
theorem columns_register {label : List Char} (hlabel : '|' ∉ label) (width n : Nat) :
    columns (barred (label :: readingPieces (.ofNat width n))) =
      label :: readingPieces (.ofNat width n) :=
  columns_barred (List.forall_mem_cons.mpr ⟨hlabel, free_readingPieces width n (by decide)⟩)

theorem columns_address (m : Machine) :
    columns (barred [" AR ".toList, " ".toList,
        ' ' :: (toString m.registers.address).toList ++ [' ']]) =
      [" AR ".toList, " ".toList, ' ' :: (toString m.registers.address).toList ++ [' ']] := by
  have haddress := (lettered_number m.registers.address).free (c := '|') (by decide)
  exact columns_barred (by grind)

/-- The first columns of the registers' lines, down to the data register. -/
theorem columns_panel (m : Machine) : ∃ rest, (lines m.panel).map columns =
    [" Register ".toList, " Binary ".toList, " Decimal ".toList] ::
      ["---".toList, "---".toList, "---".toList] ::
      (" ACC ".toList :: readingPieces (.ofNat m.wordSize m.registers.accumulator)) ::
      [" AR ".toList, " ".toList, ' ' :: (toString m.registers.address).toList ++ [' ']] ::
      (" DR ".toList :: readingPieces (.ofNat m.wordSize m.registers.data)) :: rest := by
  have hheading :
      columns (barred [" Register ".toList, " Binary ".toList, " Decimal ".toList]) = _ :=
    columns_barred (by simp)
  have hrule : columns (barred ["---".toList, "---".toList, "---".toList]) = _ :=
    columns_barred (by simp)
  rw [lines_panel]
  simp only [List.map_cons, hheading, hrule, columns_address,
    columns_register (show '|' ∉ " ACC ".toList by simp),
    columns_register (show '|' ∉ " DR ".toList by simp)]
  exact ⟨_, rfl⟩

theorem registerRow_address (m : Machine) : registerRow? " AR " m.panel =
    some [" AR ".toList, " ".toList, ' ' :: (toString m.registers.address).toList ++ [' ']] := by
  obtain ⟨rest, hrest⟩ := columns_panel m
  rw [registerRow?, hrest]
  simp

theorem registerRow_data (m : Machine) : registerRow? " DR " m.panel =
    some (" DR ".toList :: readingPieces (.ofNat m.wordSize m.registers.data)) := by
  obtain ⟨rest, hrest⟩ := columns_panel m
  rw [registerRow?, hrest]
  simp

theorem cycleLine_panel (m : Machine) :
    cycleLine m.panel = ("**Status:** " ++ (Readings.ofMachine m).status).toList := by
  rw [cycleLine, lines_panel, String.toList_append]
  rfl

theorem cycleLine_decoded {m : Machine} {i : Instruction} (hdecoded : m.isDecoded = true)
    (hi : m.registers.instruction = some i) : cycleLine m.panel = (decodedLine i.text).toList := by
  have hstatus : (Readings.ofMachine m).status =
      "decoded `" ++ i.text ++ "`, about to execute" := by
    simp only [Readings.status, Readings.ofMachine, hdecoded, hi, if_true]
  rw [cycleLine_panel, hstatus, decodedLine]

/-- The line about the cycle names no instruction as decoded after it was executed, and before any
is. -/
theorem cycleLine_idle {m : Machine} (hidle : m.isDecoded = false) (instruction : String) :
    cycleLine m.panel ≠ (decodedLine instruction).toList := by
  intro heq
  rw [cycleLine_panel, decodedLine] at heq
  simp only [String.toList_append] at heq
  have hstatus := congrArg List.head? (List.append_cancel_left heq)
  simp only [Readings.status, Readings.ofMachine, hidle, Bool.false_eq_true, if_false] at hstatus
  cases hi : m.registers.instruction <;> simp [hi] at hstatus

/-! ### The listing -/

theorem free_pushn {c blank : Char} {s : String} (hs : c ∉ s.toList) (hc : c ≠ blank) (n : Nat) :
    c ∉ (s.pushn blank n).toList := by
  rw [String.pushn_eq_repeat_push]
  induction n with
  | zero => exact hs
  | succ n ih =>
    rw [Nat.repeat, String.toList_push]
    simp [ih, hc]

/-- The mark before the line of an instruction. -/
def marker (counter : Int) (phase : Phase) (index : Nat) : String :=
  if (index : Int) = counter then
    match phase with
    | .decoded => "=> "
    | .fetch => "-> "
  else "   "

theorem listingLine_eq (counter : Int) (phase : Phase) (index : Nat) (i : Instruction) :
    (listingLine counter phase index i).toList = (marker counter phase index).toList ++
      ((padded index).toList ++ "  ".toList ++ i.text.toList) := by
  have hline : listingLine counter phase index i =
      marker counter phase index ++ padded index ++ "  " ++ i.text := rfl
  simp only [hline, String.toList_append, List.append_assoc]

theorem free_listingLine (counter : Int) (phase : Phase) (index : Nat) (i : Instruction) {c : Char}
    (hc : c ∉ ' ' :: '=' :: '-' :: '>' :: alphabet) :
    c ∉ (listingLine counter phase index i).toList := by
  have hmarker : c ∉ (marker counter phase index).toList := by
    unfold marker
    cases phase <;> split <;> simp <;> grind
  have hblanks : c ∉ ("".pushn ' ' (3 - (toString index).length)).toList :=
    free_pushn (by simp) (by grind) _
  have hindex := (lettered_number index).free (c := c) (by grind)
  have htext := (lettered_instruction i).free (c := c) (by grind)
  have hpadded : c ∉ (padded index).toList := by
    rw [padded, String.toList_append, List.mem_append, not_or]
    exact ⟨hblanks, hindex⟩
  rw [listingLine_eq]
  simp only [List.mem_append, not_or]
  exact ⟨hmarker, ⟨hpadded, by simp; grind⟩, htext⟩

/-- A line begins with the double arrow at the counter of a program that has decoded, and with the
single one at the counter of another. -/
theorem hasArrow_listingLine (counter : Int) (phase : Phase) (index : Nat) (i : Instruction) :
    hasArrow "=> " (listingLine counter phase index i).toList =
        decide ((index : Int) = counter ∧ phase = .decoded) ∧
      isMarked (listingLine counter phase index i).toList = decide ((index : Int) = counter) := by
  rw [isMarked, hasArrow, hasArrow, listingLine_eq]
  unfold marker
  by_cases hindex : (index : Int) = counter
  · cases phase <;> simp [hindex, List.isPrefixOf]
  · simp [hindex, List.isPrefixOf]

/-- The lines of a listing that is not empty. -/
theorem lines_listing (v : ProgramView) (hne : v.instructions ≠ []) : lines v.listing =
    v.instructions.zipIdx.map (fun (i, index) =>
      (listingLine v.counter v.phase index i).toList) ++
        if v.complete then ["     (complete)".toList] else [] := by
  have hlisting : v.listing = "\n".intercalate (v.instructions.zipIdx.map (fun (i, index) =>
      listingLine v.counter v.phase index i) ++
        if v.complete then ["     (complete)"] else []) := by
    rw [ProgramView.listing, listing, List.isEmpty_eq_false_iff.mpr hne]
    rfl
  rw [hlisting]
  refine lines_intercalate ?_ ?_ ?_
  · rw [List.map_append, List.map_map]
    cases v.complete <;> rfl
  · exact List.append_ne_nil_of_left_ne_nil (by simpa using hne) _
  · intro text htext
    rcases List.mem_append.mp htext with htext | htext
    · obtain ⟨⟨i, index⟩, -, rfl⟩ := List.mem_map.mp htext
      exact free_listingLine _ _ _ _ (by decide)
    · split at htext
      · obtain rfl := List.mem_singleton.mp htext
        simp
      · cases htext

theorem lines_empty (v : ProgramView) (hempty : v.instructions = []) :
    lines v.listing = ["(empty program)".toList] := by
  have hlisting : v.listing = "\n".intercalate ["(empty program)"] := by
    rw [ProgramView.listing, listing, hempty]
    rfl
  rw [hlisting]
  exact lines_intercalate rfl (List.cons_ne_nil _ _) (by simp)

/-- A line that is marked is that of the instruction at the counter. -/
theorem mem_lines_listing {v : ProgramView} {line : List Char} (hline : line ∈ lines v.listing)
    (hmarked : isMarked line = true) : ∃ i, v.instructions[v.counter]? = some i ∧
      line = (listingLine v.counter v.phase v.counter i).toList := by
  by_cases hne : v.instructions = []
  · rw [lines_empty v hne] at hline
    obtain rfl := List.mem_singleton.mp hline
    simp [isMarked, hasArrow, List.isPrefixOf] at hmarked
  · rw [lines_listing v hne] at hline
    rcases List.mem_append.mp hline with hline | hline
    · obtain ⟨⟨i, index⟩, hi, rfl⟩ := List.mem_map.mp hline
      rw [(hasArrow_listingLine _ _ _ _).2, decide_eq_true_iff] at hmarked
      obtain rfl : index = v.counter := by exact_mod_cast hmarked
      exact ⟨i, List.mk_mem_zipIdx_iff_getElem?.mp hi, rfl⟩
    · split at hline
      · obtain rfl := List.mem_singleton.mp hline
        simp [isMarked, hasArrow, List.isPrefixOf] at hmarked
      · cases hline

/-- The line of the instruction at the counter is in the listing. -/
theorem listingLine_mem {v : ProgramView} {i : Instruction}
    (hi : v.instructions[v.counter]? = some i) :
    (listingLine v.counter v.phase v.counter i).toList ∈ lines v.listing := by
  have hne : v.instructions ≠ [] := by
    rintro heq
    rw [heq] at hi
    cases hi
  rw [lines_listing v hne]
  exact List.mem_append_left _ (List.mem_map.mpr
    ⟨(i, v.counter), List.mk_mem_zipIdx_iff_getElem?.mpr hi, rfl⟩)

theorem countP_isMarked {v : ProgramView} (hne : v.instructions ≠ []) :
    (lines v.listing).countP isMarked = if v.counter < v.instructions.length then 1 else 0 := by
  have hrest : (if v.complete then ["     (complete)".toList] else []).countP isMarked = 0 := by
    cases v.complete <;> simp [isMarked, hasArrow, List.isPrefixOf]
  have hmarks : (v.instructions.zipIdx.map fun (i, index) =>
      (listingLine v.counter v.phase index i).toList).countP isMarked =
        (v.instructions.zipIdx.map Prod.snd).count v.counter := by
    rw [List.countP_map, List.count, List.countP_map]
    refine List.countP_congr fun x _ => ?_
    simp [(hasArrow_listingLine _ _ _ _).2]
  rw [lines_listing v hne, List.countP_append, hrest, hmarks, List.zipIdx_map_snd,
    ← List.range_eq_range', List.count_range, Nat.add_zero]

/-- The line that says that the program is complete stands in the listing if it is. -/
theorem complete_line_iff {v : ProgramView} (hne : v.instructions ≠ []) :
    (∀ line ∈ lines v.listing, ¬ "(complete)".toList <:+: line) ↔ v.complete = false := by
  rw [lines_listing v hne]
  constructor
  · intro hnone
    by_contra hcomplete
    rw [Bool.not_eq_false] at hcomplete
    refine hnone "     (complete)".toList (List.mem_append_right _ ?_) ⟨"     ".toList, [], ?_⟩
    · rw [hcomplete]
      exact List.mem_cons_self
    · simp
  · intro hcomplete line hline hwithin
    rw [hcomplete, if_neg Bool.false_ne_true, List.append_nil] at hline
    obtain ⟨⟨i, index⟩, -, rfl⟩ := List.mem_map.mp hline
    have hletter : 'c' ∈ "(complete)".toList := by simp
    exact free_listingLine _ _ _ _ (by decide) (hwithin.subset hletter)

end Panel

end Accumulator
