import Accumulator.Display.Program
import Accumulator.Proofs.Reference
import Accumulator.Proofs.Tabulating

/-! The trace of a program as it is printed. What it tells can be read off its lines: for each
execution a heading, and the changes below it. A change says what was there before it, so that
changes can be replayed on the contents of a machine, one after the other, and each is checked. -/

namespace Accumulator

/-- What a trace tells of: the accumulator and the cells. -/
@[ext] structure Contents where
  accumulator : Nat
  cells : List Nat
deriving DecidableEq, Repr

def Core.contents (s : Core) : Contents := ⟨s.accumulator, s.cells⟩

/-- A change of a cell or, if no cell is stated, of the accumulator. -/
structure Alteration where
  cell : Option Nat
  old : Nat
  new : Nat
deriving DecidableEq, Repr

/-- The contents after a change, if before it there is what the change says. -/
def Alteration.apply? (s : Contents) (a : Alteration) : Option Contents :=
  match a.cell with
  | none => if s.accumulator = a.old then some { s with accumulator := a.new } else none
  | some x =>
    if s.cells[x]? = some a.old then some { s with cells := s.cells.set x a.new } else none

/-- The contents after changes, if each of them fits what those before it have left. -/
def replay (s : Contents) (changes : List Alteration) : Option Contents :=
  changes.foldlM Alteration.apply? s

theorem replay_append (s : Contents) (before after : List Alteration) :
    replay s (before ++ after) = (replay s before).bind (replay · after) :=
  List.foldlM_append

/-- What is printed of an execution: its position in the trace, the counter, the instruction, and
what changed. -/
structure PrintedEntry where
  position : Nat
  counter : Nat
  instruction : String
  changes : List Alteration
deriving DecidableEq, Repr

namespace PrintedEntry

/-- The position, the counter and the instruction that a heading states. -/
def heading? (line : List Char) : Option (Nat × Nat × String) :=
  match line.splitOn ' ' with
  | ['[' :: position, 'P' :: 'C' :: '=' :: counter, instruction] =>
    some (Number.ofDigits 10 position.dropLast, Number.ofDigits 10 counter,
      String.ofList instruction)
  | _ => none

/-- The change that a line states. -/
def change? (line : List Char) : Option Alteration :=
  match line.splitOn ' ' with
  | [[], [], [], [], 'A' :: 'C' :: 'C' :: _, old, _, new] =>
    some ⟨none, Number.ofDigits 10 old, Number.ofDigits 10 new⟩
  | [[], [], [], [], 'M' :: '[' :: cell, old, _, new] =>
    some ⟨some (Number.ofDigits 10 cell.dropLast.dropLast), Number.ofDigits 10 old,
      Number.ofDigits 10 new⟩
  | _ => none

/-- The entries that lines state, and the changes before the first heading. -/
def readLines : List (List Char) → Option (List Alteration × List PrintedEntry)
  | [] => some ([], [])
  | line :: rest => do
    let (changes, entries) ← readLines rest
    match heading? line with
    | some (position, counter, instruction) =>
      some ([], ⟨position, counter, instruction, changes⟩ :: entries)
    | none => (change? line).map fun change => (change :: changes, entries)

/-- The entries that a trace states, if there is nothing else in it. -/
def readTrace (text : String) : Option (List PrintedEntry) :=
  if text = "" then some []
  else
    match readLines (Panel.lines text) with
    | some ([], entries) => some entries
    | _ => none

end PrintedEntry

namespace TraceEntry

/-- The contents before the execution. -/
def before (e : TraceEntry) : Contents := e.pre.core.contents

/-- The contents after the execution. -/
def after (e : TraceEntry) : Contents := e.post.core.contents

/-- What the execution changed. -/
def changes (e : TraceEntry) : List Alteration :=
  (if e.before.accumulator = e.after.accumulator then []
    else [⟨none, e.before.accumulator, e.after.accumulator⟩]) ++
  e.changedCells.map fun (x, old, new) => ⟨some x, old, new⟩

/-- The entry as it is to be read. -/
def printed (e : TraceEntry) : PrintedEntry := ⟨e.step, e.counter, e.instruction.text, e.changes⟩

variable {e : TraceEntry} {a v : Nat}

/-! ### What an execution changes -/

theorem changed_same (cells : List Nat) (first : Nat) :
    (((cells.zip cells).zipIdx first).filterMap fun ((old, new), x) =>
      if old = new then none else some (x, old, new)) = [] := by
  induction cells generalizing first with
  | nil => rfl
  | cons v cells ih =>
    rw [List.zip_cons_cons, List.zipIdx_cons, List.filterMap_cons]
    simpa using ih (first + 1)

theorem changed_set (cells : List Nat) (first a v : Nat) :
    (((cells.zip (cells.set a v)).zipIdx first).filterMap fun ((old, new), x) =>
      if old = new then none else some (x, old, new)) =
      (cells[a]?.toList.filter (· ≠ v)).map fun old => (first + a, old, v) := by
  induction cells generalizing first a with
  | nil => rfl
  | cons u cells ih =>
    cases a with
    | zero =>
      rw [List.set_cons_zero, List.zip_cons_cons, List.zipIdx_cons, List.filterMap_cons,
        changed_same]
      by_cases same : u = v <;> simp [same]
    | succ a =>
      rw [List.set_cons_succ, List.zip_cons_cons, List.zipIdx_cons, List.filterMap_cons, ih]
      simp [Nat.add_assoc, Nat.add_comm 1]

/-- What an entry tells of an execution that changed the accumulator alone, or one cell. -/
structure Told (e : TraceEntry) : Prop where
  single : e.changes.length ≤ 1
  replay : replay e.before e.changes = some e.after
  absent : e.changes = [] ↔ e.after = e.before

theorem Told.unchanged (changes : e.changes = []) (after : e.after = e.before) : e.Told where
  single := by simp [changes]
  replay := by
    rw [changes, after]
    rfl
  absent := iff_of_true changes after

theorem Told.changed {alteration : Alteration} (changes : e.changes = [alteration])
    (apply : alteration.apply? e.before = some e.after) (after : e.after ≠ e.before) :
    e.Told where
  single := by simp [changes]
  replay := by simp [Accumulator.replay, changes, apply]
  absent := iff_of_false (by simp [changes]) after

theorem told_of_accumulator (h : e.after = { e.before with accumulator := v }) : e.Told := by
  have cells : e.changedCells = [] := by
    have same : e.post.memory.cells = e.pre.memory.cells := congrArg Contents.cells h
    rw [changedCells, same]
    exact changed_same e.pre.memory.cells 0
  have changes : e.changes = if e.before.accumulator = v then []
      else [⟨none, e.before.accumulator, v⟩] := by
    rw [TraceEntry.changes, cells, h]
    exact List.append_nil _
  by_cases same : e.before.accumulator = v
  · rw [if_pos same] at changes
    exact .unchanged changes (by rw [h, ← same])
  · rw [if_neg same] at changes
    refine .changed changes ?_ fun kept => same (kept ▸ h ▸ rfl)
    rw [h]
    exact if_pos rfl

theorem told_of_cell (h : e.after = { e.before with cells := e.before.cells.set a v }) :
    e.Told := by
  have cells : e.changedCells =
      (e.before.cells[a]?.toList.filter (· ≠ v)).map fun old => (a, old, v) := by
    have set : e.post.memory.cells = e.pre.memory.cells.set a v := congrArg Contents.cells h
    have changed := changed_set e.pre.memory.cells 0 a v
    simp only [Nat.zero_add] at changed
    rw [changedCells, set]
    exact changed
  have changes : e.changes =
      (e.before.cells[a]?.toList.filter (· ≠ v)).map fun old => ⟨some a, old, v⟩ := by
    have accumulator : e.before.accumulator = e.after.accumulator := by rw [h]
    rw [TraceEntry.changes, if_pos accumulator, cells, List.nil_append, List.map_map]
    rfl
  cases held : e.before.cells[a]? with
  | none =>
    -- There is no such cell, and nothing is stored.
    rw [held] at changes
    refine .unchanged changes ?_
    rw [h, List.set_eq_of_length_le (List.getElem?_eq_none_iff.mp held)]
  | some old =>
    rw [held] at changes
    obtain ⟨inside, content⟩ := List.getElem?_eq_some_iff.mp held
    by_cases same : old = v
    · refine .unchanged (by simp [changes, same]) ?_
      rw [h, ← same, ← content, List.set_getElem_self]
    · have changed : e.changes = [⟨some a, old, v⟩] := by simp [changes, same]
      refine .changed changed ?_ fun kept => same ?_
      · rw [h]
        exact if_pos held
      · have new : e.after.cells[a]? = some v := by
          rw [h]
          exact List.getElem?_set_self inside
        rw [kept, held] at new
        exact Option.some.inj new

end TraceEntry

/-- A step of the instruction set changes the accumulator alone, or one cell. -/
theorem Core.step_contents (w : Nat) (s : Core) (i : Instruction) :
    (∃ v, (s.step w i).contents = { s.contents with accumulator := v }) ∨
      ∃ a v, (s.step w i).contents = { s.contents with cells := s.contents.cells.set a v } := by
  cases h : i.operation with
  | store =>
    refine .inr ⟨(s.select i.address).address, s.accumulator, ?_⟩
    rw [step, h]
    rfl
  | _ =>
    refine .inl ⟨((s.select i.address).apply w i.operation).accumulator, ?_⟩
    rw [step, h]
    rfl

/-- What an entry tells of an execution of the instruction set. -/
theorem TraceEntry.told_of_step {e : TraceEntry} {w : Nat} {s : Core} {i : Instruction}
    (before : e.before = s.contents) (after : e.after = (s.step w i).contents) : e.Told := by
  rcases s.step_contents w i with ⟨v, changed⟩ | ⟨a, v, changed⟩
  · rw [← before, ← after] at changed
    exact told_of_accumulator changed
  · rw [← before, ← after] at changed
    exact told_of_cell changed

/-! ### Reading the lines -/

/-- The line of a change. -/
def Alteration.line (a : Alteration) : String :=
  match a.cell with
  | none => "    ACC: " ++ toString a.old ++ " -> " ++ toString a.new
  | some x => "    " ++ TraceEntry.cellChange (x, a.old, a.new)

/-- The line of an instruction. -/
def TraceEntry.heading (e : TraceEntry) : String :=
  "[" ++ toString e.step ++ "] PC=" ++ toString e.counter ++ " " ++ e.instruction.text

theorem TraceEntry.lines_eq {e : TraceEntry} (h : e.changes.length ≤ 1) :
    e.lines = e.heading :: e.changes.map Alteration.line := by
  have few : e.changedCells.length ≤ 1 := by
    rw [changes, List.length_append, List.length_map] at h
    omega
  have accumulator : (if e.pre.registers.accumulator = e.post.registers.accumulator then []
      else ["    ACC: " ++ toString e.pre.registers.accumulator ++ " -> " ++
        toString e.post.registers.accumulator]) =
      (if e.before.accumulator = e.after.accumulator then []
        else [⟨none, e.before.accumulator, e.after.accumulator⟩]).map Alteration.line := by
    show (if e.before.accumulator = e.after.accumulator then [] else [_]) = _
    split <;> rfl
  rw [lines, changes, List.map_append, ← accumulator]
  match hcells : e.changedCells with
  | [] => rfl
  | [(x, old, new)] => simp [Alteration.line, heading]
  | _ :: _ :: _ =>
    rw [hcells] at few
    simp at few

theorem TraceEntry.lines_toList {e : TraceEntry} (h : e.changes.length ≤ 1) :
    e.lines.map String.toList = e.heading.toList :: e.changes.map (·.line.toList) := by
  rw [lines_eq h, List.map_cons, List.map_map]
  rfl

theorem Panel.Lettered.apart {s : List Char} (h : Panel.Lettered s) : ' ' ∉ s ∧ '\n' ∉ s :=
  ⟨h.free (by decide), h.free (by decide)⟩

@[simp] theorem Panel.apart_digits (n : Nat) :
    ' ' ∉ Nat.toDigits 10 n ∧ '\n' ∉ Nat.toDigits 10 n := by
  have number := (lettered_number n).apart
  rwa [Nat.toString_eq_repr, Nat.toList_repr] at number

namespace PrintedEntry

open Panel

/-- A line is made of words, with a blank between one and the next. -/
structure Spaced (line : String) (words : List (List Char)) : Prop where
  text : line.toList = [' '].intercalate words
  free : ∀ word ∈ words, ' ' ∉ word ∧ '\n' ∉ word

variable {line : String} {words : List (List Char)}

theorem Spaced.splitOn (h : Spaced line words) (hne : words ≠ []) :
    line.toList.splitOn ' ' = words := by
  rw [h.text, List.splitOn_intercalate ' ' (fun word hword => (h.free word hword).1) hne]

theorem Spaced.oneLine (h : Spaced line words) : '\n' ∉ line.toList := by
  rw [h.text]
  exact free_intercalate (by decide) fun word hword => (h.free word hword).2

theorem spaced_heading (e : TraceEntry) : Spaced e.heading
    ['[' :: ((toString e.step).toList ++ [']']), 'P' :: 'C' :: '=' :: (toString e.counter).toList,
      e.instruction.text.toList] where
  text := by simp [TraceEntry.heading]
  free := by
    have instruction := (lettered_instruction e.instruction).apart
    simp [instruction]

theorem spaced_accumulator (old new : Nat) : Spaced (Alteration.line ⟨none, old, new⟩)
    [[], [], [], [], "ACC:".toList, (toString old).toList, "->".toList, (toString new).toList] where
  text := by simp [Alteration.line]
  free := by simp

theorem spaced_cell (x old new : Nat) : Spaced (Alteration.line ⟨some x, old, new⟩)
    [[], [], [], [], 'M' :: '[' :: ((toString x).toList ++ [']', ':']), (toString old).toList,
      "->".toList, (toString new).toList] where
  text := by simp [Alteration.line, TraceEntry.cellChange]
  free := by simp

theorem heading?_heading (e : TraceEntry) :
    heading? e.heading.toList = some (e.step, e.counter, e.instruction.text) := by
  rw [heading?, (spaced_heading e).splitOn (by simp)]
  simp only [List.dropLast_concat, ofDigits_number, String.ofList_toList]

theorem change?_line (a : Alteration) :
    heading? a.line.toList = none ∧ change? a.line.toList = some a := by
  have digits (n : Nat) : Number.ofDigits 10 (Nat.toDigits 10 n) = n :=
    Number.ofDigits_toDigits (by decide) (by decide) n
  obtain ⟨_ | x, old, new⟩ := a
  · rw [heading?, change?, (spaced_accumulator old new).splitOn (by simp)]
    simp [digits]
  · rw [heading?, change?, (spaced_cell x old new).splitOn (by simp)]
    simp [digits]

theorem oneLine_change (a : Alteration) : '\n' ∉ a.line.toList := by
  obtain ⟨_ | x, old, new⟩ := a
  · exact (spaced_accumulator old new).oneLine
  · exact (spaced_cell x old new).oneLine

/-- Lines of changes come before what the lines behind them state. -/
theorem readLines_changes (as : List Alteration) (rest : List (List Char)) :
    readLines (as.map (·.line.toList) ++ rest) =
      (readLines rest).map fun read => (as ++ read.1, read.2) := by
  induction as with
  | nil => simp
  | cons a as ih =>
    rw [List.map_cons, List.cons_append, readLines, ih, (change?_line a).1, (change?_line a).2]
    cases readLines rest <;> rfl

/-- The lines of entries with at most one change each. -/
theorem readLines_entries {es : List TraceEntry} (h : ∀ e ∈ es, e.changes.length ≤ 1) :
    readLines (es.flatMap fun e => e.lines.map String.toList) =
      some ([], es.map TraceEntry.printed) := by
  induction es with
  | nil => rfl
  | cons e es ih =>
    obtain ⟨first, rest⟩ := List.forall_mem_cons.mp h
    rw [List.flatMap_cons, TraceEntry.lines_toList first, List.cons_append, readLines,
      readLines_changes, ih rest, Option.map_some]
    simp only [Option.bind_eq_bind, Option.bind_some, heading?_heading, List.append_nil]
    rfl

/-- What is printed of executions that changed one thing at most is read back. -/
theorem readTrace_traceText {p : Program} (h : ∀ e ∈ p.trace, e.changes.length ≤ 1) :
    readTrace p.traceText = some (p.trace.map TraceEntry.printed) := by
  have texts : (p.trace.flatMap TraceEntry.lines).map String.toList =
      p.trace.flatMap fun e => e.lines.map String.toList := List.map_flatMap
  have entries := readLines_entries h
  unfold readTrace Program.traceText
  cases htrace : p.trace with
  | nil => rfl
  | cons e es =>
    rw [htrace] at h texts entries
    have first := (List.forall_mem_cons.mp h).1
    have heading : (e :: es).flatMap (fun e => e.lines.map String.toList) =
        e.heading.toList :: (e.changes.map (·.line.toList) ++
          es.flatMap fun e => e.lines.map String.toList) := by
      rw [List.flatMap_cons, TraceEntry.lines_toList first, List.cons_append]
    have oneLine : ∀ text ∈ (e :: es).flatMap (fun e => e.lines.map String.toList),
        '\n' ∉ text := by
      intro text htext
      obtain ⟨f, hf, htext⟩ := List.mem_flatMap.mp htext
      rw [TraceEntry.lines_toList (h f hf)] at htext
      rcases List.mem_cons.mp htext with rfl | htext
      · exact (spaced_heading f).oneLine
      · obtain ⟨a, -, rfl⟩ := List.mem_map.mp htext
        exact oneLine_change a
    have lines := lines_intercalate texts (by rw [heading]; simp) oneLine
    have visible : "\n".intercalate ((e :: es).flatMap TraceEntry.lines) ≠ "" := by
      intro blank
      rw [blank, heading] at lines
      have same : [] = e.heading.toList := (List.cons_eq_cons.mp lines).1
      simp [TraceEntry.heading] at same
    rw [if_neg visible, lines, entries]

example : readTrace "[0] PC=1 not()\n    ACC: 0 -> 15\n[1] PC=2 store(1)\n    M[1]: 0 -> 15" =
    some [⟨0, 1, "not()", [⟨none, 0, 15⟩]⟩, ⟨1, 2, "store(1)", [⟨some 1, 0, 15⟩]⟩] := by
  decide +kernel

end PrintedEntry

end Accumulator
