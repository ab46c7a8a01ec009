import Accumulator.Proofs.Grammar
import Mathlib

/-! Programs line by line. A program in text is read as the instructions of its lines, and refused
for the first line with code that is no instruction. So what two texts come to that a newline joins
follows from what each of them comes to, with the numbers of the lines moved on. -/

namespace Accumulator

/-- A refusal as it is when that many lines stand before the text. -/
def Fault.later (lines : Nat) : Fault → Fault
  | onLine line cause => onLine (line + lines) cause
  | f => f

namespace Assembler

/-- There is code on the line, and it is refused as an instruction. -/
def Refused (line : List Char) (cause : Fault) : Prop :=
  code line ≠ [] ∧ parseInstruction (String.ofList (code line)) = .error cause

/-- The line is blank but for a comment, or what it has for code is an instruction. -/
def Clean (line : List Char) : Prop := ∀ cause, ¬Refused line cause

/-! ### Lines -/

theorem linesOf_eq_splitOn (s : List Char) : linesOf s = s.splitOn '\n' := by
  induction s with
  | nil => rfl
  | cons c s ih =>
    rw [List.splitOn] at ih ⊢
    rw [List.splitOnP_cons_eq_if_modifyHead, ← ih]
    by_cases hc : c = '\n'
    · simp [linesOf, hc]
    · simp [linesOf_cons_of_ne hc, hc]

theorem length_linesOf (s : List Char) : (linesOf s).length = s.count '\n' + 1 := by
  induction s with
  | nil => rfl
  | cons c s ih =>
    by_cases hc : c = '\n'
    · simp [linesOf, hc, ih]
    · simp [linesOf_cons_of_ne hc, hc, ih]

/-- Whatever its number and whatever comes behind it, a line is refused, and then so are the lines
from it on, or it adds its instruction to those of the lines behind it. -/
theorem readLines_cons (line : List Char) :
    (∃ cause, Refused line cause ∧
      ∀ number lines, readLines number (line :: lines) = .error (.onLine number cause)) ∨
    Clean line ∧ ∃ is, ∀ number lines,
      readLines number (line :: lines) = (readLines (number + 1) lines).map (is ++ ·) := by
  have skipped : ∀ {i : Option Instruction}, (∀ number, readLine number line = .ok i) →
      ∀ number lines, readLines number (line :: lines) =
        (readLines (number + 1) lines).map (i.toList ++ ·) := by
    intro i read number lines
    rw [readLines, read]
    cases readLines (number + 1) lines <;> rfl
  simp only [Clean, Refused, parseInstruction, String.toList_ofList]
  rcases hcode : code line with _ | ⟨c, s⟩
  · exact .inr ⟨by simp, _, skipped (i := none) fun number => by rw [readLine, hcode]⟩
  · cases outcome : readInstruction (c :: s) with
    | ok i =>
      have read : ∀ number, readLine number line = .ok (some i) := by
        simp [readLine, hcode, outcome]
      exact .inr ⟨by simp, _, skipped read⟩
    | error cause =>
      refine .inl ⟨cause, ⟨by simp, rfl⟩, fun number lines => ?_⟩
      have read : readLine number line = .error (.onLine number cause) := by
        simp [readLine, hcode, outcome]
      rw [readLines, read]
      rfl

theorem Refused.cause_eq {line : List Char} {cause cause' : Fault} (h : Refused line cause)
    (h' : Refused line cause') : cause = cause' :=
  Except.error.inj (h.2.symm.trans h'.2)

/-- Lines are refused for the first one that is refused, with its number. -/
theorem readLines_eq_error {lines : List (List Char)} {number : Nat} {f : Fault} :
    readLines number lines = .error f ↔ ∃ before line after cause,
      lines = before ++ line :: after ∧ (∀ l ∈ before, Clean l) ∧ Refused line cause ∧
        f = .onLine (number + before.length) cause := by
  induction lines generalizing number with
  | nil =>
    constructor
    · rintro ⟨⟩
    · rintro ⟨before, line, after, cause, eq, -⟩
      simp at eq
  | cons line lines ih =>
    rcases readLines_cons line with ⟨cause, refused, read⟩ | ⟨clean, is, read⟩
    · rw [read]
      constructor
      · rintro ⟨⟩
        exact ⟨[], line, lines, cause, rfl, by simp, refused, rfl⟩
      · rintro ⟨_ | ⟨b, before⟩, line', after, cause', eq, clean, refused', rfl⟩
        · obtain ⟨rfl, -⟩ := List.cons_eq_cons.mp eq
          rw [refused.cause_eq refused']
          rfl
        · obtain ⟨rfl, -⟩ := List.cons_eq_cons.mp eq
          exact absurd refused (clean line (by simp) cause)
    · rw [read, map_eq_error, ih]
      constructor
      · rintro ⟨before, line', after, cause, rfl, clean', refused, rfl⟩
        refine ⟨line :: before, line', after, cause, rfl,
          List.forall_mem_cons.mpr ⟨clean, clean'⟩, refused, ?_⟩
        rw [List.length_cons, Nat.add_right_comm, Nat.add_assoc]
      · rintro ⟨_ | ⟨b, before⟩, line', after, cause, eq, clean', refused, rfl⟩
        · obtain ⟨rfl, -⟩ := List.cons_eq_cons.mp eq
          exact absurd refused (clean cause)
        · obtain ⟨-, rfl⟩ := List.cons_eq_cons.mp eq
          refine ⟨before, line', after, cause, rfl, (List.forall_mem_cons.mp clean').2, refused, ?_⟩
          rw [List.length_cons, Nat.add_right_comm, Nat.add_assoc]

/-- Behind more lines, the same lines are read as the same instructions or refused further down. -/
theorem readLines_later (lines : List (List Char)) (number more : Nat) :
    readLines (number + more) lines = (readLines number lines).mapError (.later more) := by
  induction lines generalizing number with
  | nil => rfl
  | cons line lines ih =>
    rcases readLines_cons line with ⟨cause, -, read⟩ | ⟨-, is, read⟩
    · rw [read, read]
      rfl
    · rw [read, read, Nat.add_right_comm, ih]
      cases readLines (number + 1) lines <;> rfl

theorem readLines_append (number : Nat) (s t : List (List Char)) :
    readLines number (s ++ t) = do
      let first ← readLines number s
      let rest ← readLines (number + s.length) t
      return first ++ rest := by
  induction s generalizing number with
  | nil =>
    change readLines number t = _
    cases readLines number t <;> rfl
  | cons line s ih =>
    rcases readLines_cons line with ⟨cause, -, read⟩ | ⟨-, is, read⟩
    · rw [List.cons_append, read, read]
      rfl
    · rw [List.cons_append, read, read, ih, List.length_cons, Nat.add_right_comm, ← Nat.add_assoc]
      cases readLines (number + 1) s with
      | error f => rfl
      | ok first =>
        cases readLines (number + s.length + 1) t with
        | error f => rfl
        | ok rest => exact congrArg Except.ok (List.append_assoc is first rest).symm

/-! ### Programs -/

/-- A refused program is refused on a line, for a cause that can be shown. -/
theorem parseProgram_reported {s : String} {f : Fault} (h : parseProgram s = .error f) :
    ∃ line cause, f = .onLine line cause ∧ f.isWritable = true := by
  obtain ⟨before, line, after, cause, -, -, ⟨-, refused⟩, rfl⟩ := readLines_eq_error.mp h
  exact ⟨_, cause, rfl, (readInstruction_eq_error refused).1⟩

/-- A program is read line by line. What a newline joins to a program is read as if it stood alone,
its lines being counted on from those of the program; a program that is refused is refused whatever
is joined to it. It is refused just if there is a line whose code is no instruction, and for the
first of these with its place among all lines. In the message of a refusal the number of the line
stands before the message of the line alone, and nothing else depends on it. -/
theorem parse_line_by_line :
    (∀ s t : String, parseProgram (s ++ "\n" ++ t) =
      match parseProgram s, parseProgram t with
      | .error f, _ => .error f
      | .ok is, .ok js => .ok (is ++ js)
      | .ok _, .error f => .error (f.later (s.toList.count '\n' + 1))) ∧
    (∀ (s : String) (f : Fault), parseProgram s = .error f ↔ ∃ before line after cause,
      s.toList.splitOn '\n' = before ++ line :: after ∧ (∀ l ∈ before, Clean l) ∧
        Refused line cause ∧ f = .onLine (before.length + 1) cause) ∧
    ∀ (s : String) (f : Fault), parseProgram s = .error f → ∃ line cause, ∀ more,
      (f.later more).reported = .onLine (line + more) cause ∧
      (f.later more).reported.kind = f.reported.kind ∧
      (f.later more).reported.message =
        "line " ++ toString (line + more) ++ ": " ++ cause.message := by
  refine ⟨fun s t => ?_, fun s f => ?_, fun s f h => ?_⟩
  · have text : (s ++ "\n" ++ t).toList = s.toList ++ '\n' :: t.toList := by simp
    rw [parseProgram, text, linesOf_append, readLines_append, length_linesOf, readLines_later]
    rw [parseProgram, parseProgram]
    cases readLines 1 (linesOf s.toList) with
    | error f => rfl
    | ok is => cases readLines 1 (linesOf t.toList) <;> rfl
  · rw [parseProgram, readLines_eq_error, linesOf_eq_splitOn]
    simp only [Nat.add_comm]
  · obtain ⟨line, cause, rfl, writable⟩ := parseProgram_reported h
    refine ⟨line, cause, fun more => ?_⟩
    have moved : ((Fault.onLine line cause).later more).reported = .onLine (line + more) cause :=
      Fault.reported_of_writable writable
    rw [moved, Fault.reported_of_writable writable]
    exact ⟨rfl, rfl, rfl⟩

/-- Programs in two layouts are read as their instructions, alone and joined; behind another line a
program with a bad line behind a comment is refused for a later line. -/
theorem parse_line_by_line_moved :
    parseProgram "load 1 ; first

  NOT()" = .ok [⟨.load, some 1⟩, ⟨.not, none⟩] ∧
    parseProgram ("load 1 ; first

  NOT()" ++ "
" ++ "# last
store(0x2)") =
      .ok [⟨.load, some 1⟩, ⟨.not, none⟩, ⟨.store, some 2⟩] ∧
    parseProgram "; first
nop" = .error (.onLine 2 (.unknownName (.text "nop"))) ∧
    parseProgram ("load 1" ++ "
" ++ "; first
nop") =
      .error (.onLine 3 (.unknownName (.text "nop"))) ∧
    (Fault.onLine 3 (.unknownName (.text "nop"))).reported.message =
      "line 3: Unknown operation: 'nop'" := by
  have first : parseProgram "load 1 ; first

  NOT()" = .ok [⟨.load, some 1⟩, ⟨.not, none⟩] := by
    cbv
  have last : parseProgram "# last
store(0x2)" = .ok [⟨.store, some 2⟩] := by
    cbv
  have alone : parseProgram "; first
nop" = .error (.onLine 2 (.unknownName (.text "nop"))) := rfl
  refine ⟨first, ?_, alone, ?_, ?_⟩
  · rw [parse_line_by_line.1, first, last]
    rfl
  · have before : parseProgram "load 1" = .ok [⟨.load, some 1⟩] := rfl
    rw [parse_line_by_line.1, before, alone]
    rfl
  · obtain ⟨line, cause, moved⟩ := parse_line_by_line.2.2 _ _ alone
    obtain ⟨rfl, rfl⟩ := Fault.onLine.inj (moved 0).1
    exact (moved 1).2.2.trans (by decide)

end Assembler

end Accumulator
