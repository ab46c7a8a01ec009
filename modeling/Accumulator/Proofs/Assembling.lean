import Accumulator.Proofs.Numeral

/-! Programs as they may be written. A line has an instruction with blanks around it, or none, and
ends in a comment or a carriage return or neither. Whatever the layout, the assembler makes of the
lines the instructions that they are of. -/

namespace Accumulator.Assembler

/-- Spaces and tabs. -/
def Gap (s : List Char) : Prop := ∀ c ∈ s, c = ' ' ∨ c = '\t'

/-- The name of an operation, in any mixture of letter cases. -/
def Mnemonic (op : Operation) (s : List Char) : Prop :=
  s.map Char.toLower = op.mnemonic.toList

/-- The ways to write an instruction. -/
inductive Spelling : Instruction → List Char → Prop
  | name {op : Operation} {s : List Char} (spelled : Mnemonic op s) : Spelling ⟨op, none⟩ s
  | emptyCall {op : Operation} {s gap inside : List Char} (spelled : Mnemonic op s)
      (blank : Gap gap) (empty : Gap inside) :
      Spelling ⟨op, none⟩ (s ++ (gap ++ '(' :: (inside ++ [')'])))
  | bare {op : Operation} {n : Nat} {s gap number : List Char} (spelled : Mnemonic op s)
      (blank : Gap gap) (apart : gap ≠ []) (written : Number.Numeral n number) :
      Spelling ⟨op, some n⟩ (s ++ (gap ++ number))
  | call {op : Operation} {n : Nat} {s gap before number after : List Char}
      (spelled : Mnemonic op s) (blank : Gap gap) (left : Gap before)
      (written : Number.Numeral n number) (right : Gap after) :
      Spelling ⟨op, some n⟩ (s ++ (gap ++ '(' :: (before ++ number ++ after ++ [')'])))

/-- How a line may end: in a comment or not, and with a carriage return or not. -/
inductive Ending : List Char → Prop
  | plain : Ending []
  | carriageReturn : Ending ['\r']
  | comment {mark : Char} {text : List Char} (marked : mark = ';' ∨ mark = '#')
      (oneLine : '\n' ∉ text) : Ending (mark :: text)

/-- The lines that instructions may be written on. -/
inductive Listing : List Instruction → List String → Prop
  | done : Listing [] []
  | blank {is : List Instruction} {line : String} {lines : List String} {gap ending : List Char}
      (text : line.toList = gap ++ ending) (blank : Gap gap) (ends : Ending ending)
      (rest : Listing is lines) : Listing is (line :: lines)
  | instruction {i : Instruction} {is : List Instruction} {line : String} {lines : List String}
      {before spelling after ending : List Char}
      (text : line.toList = before ++ spelling ++ after ++ ending) (left : Gap before)
      (spelled : Spelling i spelling) (right : Gap after) (ends : Ending ending)
      (rest : Listing is lines) : Listing (i :: is) (line :: lines)

/-! ### Lines -/

theorem linesOf_ne_nil (s : List Char) : linesOf s ≠ [] := by
  cases s with
  | nil => simp [linesOf]
  | cons c s =>
    rw [linesOf]
    split
    · simp
    · split <;> simp

theorem linesOf_cons_of_ne {c : Char} (hc : c ≠ '\n') (s : List Char) :
    linesOf (c :: s) = (linesOf s).modifyHead (c :: ·) := by
  obtain ⟨line, lines, eq⟩ := List.exists_cons_of_ne_nil (linesOf_ne_nil s)
  simp [linesOf, hc, eq]

theorem linesOf_line {line : List Char} (h : '\n' ∉ line) : linesOf line = [line] := by
  induction line with
  | nil => rfl
  | cons c line ih =>
    obtain ⟨hc, hline⟩ := List.ne_and_not_mem_of_not_mem_cons h
    simp [linesOf, hc.symm, ih hline]

/-- The lines of texts that a newline joins are those of the one and then those of the other. -/
theorem linesOf_append (s t : List Char) :
    linesOf (s ++ '\n' :: t) = linesOf s ++ linesOf t := by
  induction s with
  | nil => rfl
  | cons c s ih =>
    by_cases hc : c = '\n'
    · simp [linesOf, hc, ih]
    · obtain ⟨line, lines, eq⟩ := List.exists_cons_of_ne_nil (linesOf_ne_nil s)
      simp [linesOf_cons_of_ne hc, ih, eq]

theorem linesOf_intercalate {lines : List (List Char)} (ne : lines ≠ [])
    (h : ∀ line ∈ lines, '\n' ∉ line) : linesOf (['\n'].intercalate lines) = lines := by
  induction lines with
  | nil => contradiction
  | cons line lines ih =>
    have hline := h line (by simp)
    cases lines with
    | nil => simpa using linesOf_line hline
    | cons next lines =>
      have rest := ih (by simp) fun l hl => h l (by simp [hl])
      rw [List.intercalate_cons_cons, List.append_assoc, List.singleton_append,
        linesOf_append, linesOf_line hline, rest, List.singleton_append]

/-! ### Pieces of a line -/

theorem Gap.nil : Gap [] := by simp [Gap]

theorem Gap.isBlank {s : List Char} (h : Gap s) : ∀ c ∈ s, Text.isBlank c = true := by
  intro c hc
  rcases h c hc with rfl | rfl <;> rfl

theorem Gap.code {s : List Char} (h : Gap s) : ∀ c ∈ s, (c != ';' && c != '#') = true := by
  intro c hc
  rcases h c hc with rfl | rfl <;> decide

theorem Gap.oneLine {s : List Char} (h : Gap s) : '\n' ∉ s := by
  intro hc
  rcases h _ hc with h | h <;> cases h

theorem Gap.closed {s : List Char} (h : Gap s) : ')' ∉ s := by
  intro hc
  rcases h _ hc with h | h <;> cases h

theorem Ending.oneLine {s : List Char} (h : Ending s) : '\n' ∉ s := by
  cases h with
  | plain => simp
  | carriageReturn => decide
  | comment marked oneLine => rcases marked with rfl | rfl <;> simpa using oneLine

theorem Ending.code {s : List Char} (h : Ending s) :
    ∀ c ∈ s.takeWhile fun c => c != ';' && c != '#', Text.isBlank c = true := by
  cases h with
  | plain => simp
  | carriageReturn =>
    intro c hc
    obtain rfl : c = '\r' := by simpa using (List.takeWhile_sublist _).subset hc
    rfl
  | comment marked oneLine => rcases marked with rfl | rfl <;> simp

namespace Mnemonic

variable {op : Operation} {s : List Char}

theorem mnemonic (op : Operation) : Mnemonic op op.mnemonic.toList := by
  cases op <;> simp [Mnemonic, Operation.mnemonic]

theorem isAlpha (h : Mnemonic op s) : ∀ c ∈ s, c.isAlpha = true := by
  intro c hc
  have lower : c.toLower ∈ op.mnemonic.toList := h ▸ List.mem_map_of_mem hc
  have letters : ∀ c ∈ op.mnemonic.toList, c.isAlpha = true := by
    cases op <;> simp [Operation.mnemonic]
  rw [← Char.isAlpha_toLower_eq_isAlpha]
  exact letters _ lower

theorem plain (h : Mnemonic op s) : ∀ c ∈ s, Text.Plain c :=
  fun c hc => .of_isAlphanum (by simp [Char.isAlphanum, h.isAlpha c hc])

theorem ne_nil (h : Mnemonic op s) : s ≠ [] := by
  rintro rfl
  cases op <;> simp [Mnemonic, Operation.mnemonic] at h

theorem ofValue_eq (h : Mnemonic op s) : Operation.ofValue (.text (String.ofList s)) = .ok op := by
  have trimmed : Text.trim s = s := Text.trimBy_eq_self fun c hc => (h.plain c hc).notBlank
  have found :
      (Operation.all.find? fun o => o.mnemonic.toList == op.mnemonic.toList) = some op := by
    cases op <;> rfl
  have named : Operation.ofName? s = some op := by
    rw [Operation.ofName?, trimmed, h]
    exact found
  simp [Operation.ofValue, named]

theorem splitName?_eq (h : Mnemonic op s) {rest : List Char}
    (ends : ∀ c ∈ rest.head?, Text.isWordChar c = false) :
    splitName? (s ++ rest) = some (s, skipBlanks rest) := by
  cases s with
  | nil => exact absurd rfl h.ne_nil
  | cons c s =>
    have start : Text.isNameStart c = true := by simp [Text.isNameStart, h.isAlpha c (by simp)]
    have word : ∀ c ∈ s, Text.isWordChar c = true := fun c hc => (h.plain c (by simp [hc])).wordChar
    have stop : rest.takeWhile Text.isWordChar = [] ∧ rest.dropWhile Text.isWordChar = rest := by
      cases rest with
      | nil => exact ⟨rfl, rfl⟩
      | cons c rest => simp [ends c rfl]
    simp [splitName?, start, List.takeWhile_append_of_pos word, List.dropWhile_append_of_pos word,
      stop.1, stop.2]

end Mnemonic

/-- The code of a line is what stands between the blanks, up to the comment. -/
theorem code_line {before s after ending : List Char} (left : Gap before) (right : Gap after)
    (ends : Ending ending) (unmarked : ∀ c ∈ s, (c != ';' && c != '#') = true)
    (first : ∀ c ∈ s.head?, Text.isBlank c = false)
    (last : ∀ c ∈ s.getLast?, Text.isBlank c = false) :
    code (before ++ s ++ after ++ ending) = s := by
  have kept : (before ++ s ++ after ++ ending).takeWhile (fun c => c != ';' && c != '#') =
      before ++ s ++ (after ++ ending.takeWhile fun c => c != ';' && c != '#') := by
    rw [List.takeWhile_append_of_pos, List.append_assoc _ after]
    simp only [List.mem_append]
    rintro c ((hc | hc) | hc)
    · exact left.code c hc
    · exact unmarked c hc
    · exact right.code c hc
  rw [code, kept]
  refine Text.trimBy_between left.isBlank (fun c hc => ?_) first last
  rcases List.mem_append.mp hc with hc | hc
  · exact right.isBlank c hc
  · exact ends.code c hc

/-! ### Arguments -/

theorem fields_go {s : List Char} (h : ∀ c ∈ s, isSeparator c = false) (field : List Char) :
    fields.go field false s = [field.reverse ++ s] := by
  induction s generalizing field with
  | nil => simp [fields.go]
  | cons c s ih => simp [fields.go, h c (by simp), ih fun c hc => h c (by simp [hc])]

theorem arguments_gap {s : List Char} (h : Gap s) : arguments s = .ok [] := by
  have : Text.trim s = [] := by
    have : Text.trimBy Text.isBlank (s ++ [] ++ []) = [] :=
      Text.trimBy_between h.isBlank (by simp) (by simp) (by simp)
    rwa [List.append_nil, List.append_nil] at this
  simp [arguments, this]

theorem arguments_numeral {n : Nat} {before number after : List Char} (left : Gap before)
    (written : Number.Numeral n number) (right : Gap after) :
    arguments (before ++ number ++ after) = .ok [(n : Int)] := by
  have plain := written.plain
  have trimmed : Text.trim (before ++ number ++ after) = number :=
    Text.trimBy_between left.isBlank right.isBlank
      (fun c hc => (plain c (List.mem_of_mem_head? hc)).notBlank)
      (fun c hc => (plain c (List.mem_of_mem_getLast? hc)).notBlank)
  have one : fields number = [number] :=
    fields_go (fun c hc => (plain c hc).notSeparator) []
  simp only [arguments, trimmed]
  split
  · exact absurd rfl written.ne_nil
  · simp [one, written.immediate_eq, List.mapM_cons]

theorem argumentText?_call {inside : List Char} (h : ')' ∉ inside) :
    argumentText? ('(' :: (inside ++ [')'])) = some inside := by
  have run : (inside ++ [')']).takeWhile (· != ')') = inside := by
    have open' : ∀ c ∈ inside, (c != ')') = true := by
      rintro c hc
      simpa using fun eq : c = ')' => h (eq ▸ hc)
    rw [List.takeWhile_append_of_pos open']
    simp
  simp [argumentText?, callArgument?, run]

theorem argumentText?_plain {s : List Char} (h : ∀ c ∈ s, Text.Plain c) :
    argumentText? s = some s := by
  have noCall : callArgument? s = none := by
    unfold callArgument?
    split
    · exact absurd rfl (h '(' (by simp)).notParenthesis.1
    · rfl
  have noNewline : '\n' ∉ s := fun hc => (h '\n' hc).notNewline rfl
  simp [argumentText?, noCall, noNewline]

theorem skipBlanks_gap {gap rest : List Char} (h : Gap gap)
    (stop : ∀ c ∈ rest.head?, Text.isBlank c = false) : skipBlanks (gap ++ rest) = rest := by
  rw [skipBlanks, List.dropWhile_append_of_pos h.isBlank]
  cases rest with
  | nil => rfl
  | cons c rest => simp [stop c rfl]

/-! ### Instructions -/

/-- A text that takes up code: it has no blank at either end, no mark of a comment and no
newline. -/
structure Solid (s : List Char) : Prop where
  ne_nil : s ≠ []
  first : ∀ c ∈ s.head?, Text.isBlank c = false
  last : ∀ c ∈ s.getLast?, Text.isBlank c = false
  unmarked : ∀ c ∈ s, (c != ';' && c != '#') = true
  oneLine : '\n' ∉ s

theorem Solid.trim_eq {s : List Char} (h : Solid s) : Text.trim s = s := by
  have : Text.trimBy Text.isBlank ([] ++ s ++ []) = s :=
    Text.trimBy_between (by simp) (by simp) h.first h.last
  rwa [List.append_nil] at this

theorem Solid.of_plain {s : List Char} (hs : s ≠ []) (h : ∀ c ∈ s, Text.Plain c) : Solid s where
  ne_nil := hs
  first c hc := (h c (List.mem_of_mem_head? hc)).notBlank
  last c hc := (h c (List.mem_of_mem_getLast? hc)).notBlank
  unmarked c hc := (h c hc).notMark
  oneLine hc := (h _ hc).notNewline rfl

theorem Solid.parenthesis (c : Char) (h : c = '(' ∨ c = ')') : Solid [c] := by
  rcases h with rfl | rfl <;> constructor <;> simp <;> decide

theorem Solid.gap {s gap t : List Char} (hs : Solid s) (ht : Solid t) (blank : Gap gap) :
    Solid (s ++ gap ++ t) where
  ne_nil := by simp [hs.ne_nil]
  first := by simpa [List.head?_append_of_ne_nil _ hs.ne_nil] using hs.first
  last := by
    rw [List.getLast?_append_of_ne_nil _ ht.ne_nil]
    exact ht.last
  unmarked := by
    intro c hc
    simp only [List.mem_append] at hc
    rcases hc with (hc | hc) | hc
    exacts [hs.unmarked c hc, blank.code c hc, ht.unmarked c hc]
  oneLine := by simp [hs.oneLine, blank.oneLine, ht.oneLine]

theorem Spelling.solid {i : Instruction} {s : List Char} (h : Spelling i s) : Solid s := by
  have ofName : ∀ {op : Operation} {name : List Char}, Mnemonic op name → Solid name :=
    fun spelled => .of_plain spelled.ne_nil spelled.plain
  have ofNumber : ∀ {n : Nat} {number : List Char}, Number.Numeral n number → Solid number :=
    fun written => .of_plain written.ne_nil written.plain
  have left := Solid.parenthesis '(' (.inl rfl)
  have right := Solid.parenthesis ')' (.inr rfl)
  cases h with
  | name spelled => exact ofName spelled
  | emptyCall spelled blank empty =>
    simpa using ((ofName spelled).gap left blank).gap right empty
  | bare spelled blank apart written =>
    simpa using (ofName spelled).gap (ofNumber written) blank
  | call spelled blank before written after =>
    have argument := ((ofName spelled).gap left blank).gap (ofNumber written) before
    simpa using argument.gap right after

theorem Gap.ends {gap tail : List Char} (h : Gap gap)
    (apart : gap ≠ [] ∨ ∀ c ∈ tail.head?, Text.isWordChar c = false) :
    ∀ c ∈ (gap ++ tail).head?, Text.isWordChar c = false := by
  intro c hc
  cases gap with
  | nil =>
    rcases apart with apart | apart
    · contradiction
    · exact apart c hc
  | cons b gap =>
    obtain rfl : b = c := by simpa using hc
    rcases h b (by simp) with rfl | rfl <;> rfl

/-- An instruction is read from its name, the text of its arguments and their numbers. -/
theorem readInstruction_of {op : Operation} {name gap tail inside : List Char} {args : List Int}
    (spelled : Mnemonic op name) (blank : Gap gap)
    (apart : gap ≠ [] ∨ ∀ c ∈ tail.head?, Text.isWordChar c = false)
    (first : ∀ c ∈ tail.head?, Text.isBlank c = false) (solid : Solid (name ++ (gap ++ tail)))
    (taken : argumentText? tail = some inside) (numbers : arguments inside = .ok args) :
    readInstruction (name ++ (gap ++ tail)) = Instruction.ofArgs op (args.map .int) := by
  have split := spelled.splitName?_eq (blank.ends apart)
  rw [skipBlanks_gap blank first] at split
  simp [readInstruction, solid.trim_eq, split, taken, spelled.ofValue_eq, numbers, bind,
    Except.bind]

/-- However it is written, an instruction is read as itself. -/
theorem Spelling.readInstruction_eq {i : Instruction} {s : List Char} (h : Spelling i s) :
    readInstruction s = .ok i := by
  have solid := h.solid
  cases h with
  | @name op s spelled =>
    have : readInstruction (s ++ ([] ++ [])) = Instruction.ofArgs op [] :=
      readInstruction_of spelled .nil (.inr (by simp)) (by simp) (by simpa using solid) rfl
        (arguments_gap .nil)
    rwa [List.append_nil, List.append_nil] at this
  | emptyCall spelled blank empty =>
    exact readInstruction_of spelled blank (.inr (by rintro c ⟨⟩; rfl)) (by rintro c ⟨⟩; rfl) solid
      (argumentText?_call empty.closed) (arguments_gap empty)
  | @bare op n s gap number spelled blank apart written =>
    have plain := written.plain
    exact readInstruction_of spelled blank (.inl apart)
      (fun c hc => (plain c (List.mem_of_mem_head? hc)).notBlank) solid
      (argumentText?_plain plain) (by simpa using arguments_numeral .nil written .nil)
  | @call op n s gap before number after spelled blank left written right =>
    have closed : ')' ∉ before ++ number ++ after := by
      have : ')' ∉ number := fun hc => (written.plain ')' hc).notParenthesis.2 rfl
      simp [left.closed, right.closed, this]
    exact readInstruction_of spelled blank (.inr (by rintro c ⟨⟩; rfl)) (by rintro c ⟨⟩; rfl) solid
      (argumentText?_call closed) (arguments_numeral left written right)

/-- What is printed of an instruction is one of its spellings. -/
theorem Spelling.of_text {i : Instruction} (h : ∀ n ∈ i.address, n < Number.decimalBound) :
    Spelling i i.text.toList := by
  have spelled := Mnemonic.mnemonic i.operation
  rcases i with ⟨op, _ | n⟩
  · simpa [Instruction.text, Instruction.name] using Spelling.emptyCall spelled .nil .nil
  · have written := Number.Numeral.of_toString (h n rfl)
    simpa [Instruction.text, Instruction.name] using Spelling.call spelled .nil .nil written .nil

/-! ### Programs -/

theorem readLine_blank {number : Nat} {gap ending : List Char} (blank : Gap gap)
    (ends : Ending ending) : readLine number (gap ++ ending) = .ok none := by
  have : code (gap ++ ending) = [] := by
    have : code (gap ++ [] ++ [] ++ ending) = [] :=
      code_line blank .nil ends (by simp) (by simp) (by simp)
    rwa [List.append_nil, List.append_nil] at this
  simp [readLine, this]

theorem readLine_instruction {number : Nat} {i : Instruction}
    {before spelling after ending : List Char} (left : Gap before) (spelled : Spelling i spelling)
    (right : Gap after) (ends : Ending ending) :
    readLine number (before ++ spelling ++ after ++ ending) = .ok (some i) := by
  have solid := spelled.solid
  have line := code_line left right ends solid.unmarked solid.first solid.last
  simp only [readLine, line]
  split
  · exact absurd rfl solid.ne_nil
  · rw [spelled.readInstruction_eq]

/-- From whatever line on, a listing is read as its instructions. -/
theorem Listing.readLines_eq {is : List Instruction} {lines : List String} (h : Listing is lines)
    (number : Nat) : readLines number (lines.map String.toList) = .ok is := by
  induction h generalizing number with
  | done => rfl
  | blank text blank ends rest ih =>
    simp [readLines, text, readLine_blank blank ends, ih (number + 1), bind, Except.bind]
    rfl
  | instruction text left spelled right ends rest ih =>
    rw [List.map_cons, readLines, text, readLine_instruction left spelled right ends]
    simp [ih (number + 1), bind, Except.bind]
    rfl

theorem Listing.oneLine {is : List Instruction} {lines : List String} (h : Listing is lines) :
    ∀ line ∈ lines.map String.toList, '\n' ∉ line := by
  induction h with
  | done => simp
  | blank text blank ends rest ih =>
    simpa [text, blank.oneLine, ends.oneLine] using ih
  | instruction text left spelled right ends rest ih =>
    simpa [text, left.oneLine, spelled.solid.oneLine, right.oneLine, ends.oneLine] using ih

theorem Listing.parseProgram_eq {is : List Instruction} {lines : List String}
    (h : Listing is lines) : parseProgram ("\n".intercalate lines) = .ok is := by
  unfold parseProgram
  rw [String.toList_intercalate]
  by_cases ne : lines = []
  · subst ne
    cases h
    rfl
  · rw [show "\n".toList = ['\n'] from rfl, linesOf_intercalate (by simpa using ne) h.oneLine,
      h.readLines_eq]

theorem Listing.of_text {is : List Instruction}
    (h : ∀ i ∈ is, ∀ n ∈ i.address, n < Number.decimalBound) :
    Listing is (is.map Instruction.text) := by
  induction is with
  | nil => exact .done
  | cons i is ih =>
    exact .instruction (by simp) .nil (.of_text (h i (by simp))) .nil .plain
      (ih fun j hj => h j (by simp [hj]))

/-- Assembling undoes printing, whatever the layout: lines that instructions are written on, in any
of the ways to write them, are read as those instructions; among them are the lines that print
them, and each instruction alone is read from its text. -/
theorem parse_written :
    (∀ (is : List Instruction) (lines : List String), Listing is lines →
      parseProgram ("\n".intercalate lines) = .ok is) ∧
    (∀ is : List Instruction, (∀ i ∈ is, ∀ n ∈ i.address, n < Number.decimalBound) →
      parseProgram ("\n".intercalate (is.map Instruction.text)) = .ok is) ∧
    ∀ i : Instruction, (∀ n ∈ i.address, n < Number.decimalBound) →
      parseInstruction i.text = .ok i :=
  ⟨fun _ _ h => h.parseProgram_eq, fun _ h => (Listing.of_text h).parseProgram_eq,
    fun _ h => (Spelling.of_text h).readInstruction_eq⟩

/-- A program in several layouts, with comments, a blank line and a carriage return; the same
program as it is printed; and one instruction. -/
theorem parse_written_layouts :
    parseProgram ("\n".intercalate
        ["\tLoAd  0x00fF ; the first\r", " # nothing here", "", "NOT ( )", "store( 0B1 )"]) =
      .ok [⟨.load, some 255⟩, ⟨.not, none⟩, ⟨.store, some 1⟩] ∧
    parseProgram ("\n".intercalate
        ([⟨.load, some 255⟩, ⟨.not, none⟩, ⟨.store, some 1⟩].map Instruction.text)) =
      .ok [⟨.load, some 255⟩, ⟨.not, none⟩, ⟨.store, some 1⟩] ∧
    parseInstruction (Instruction.text ⟨.load, some 255⟩) = .ok ⟨.load, some 255⟩ := by
  have small : ∀ n ≤ 255, n < Number.decimalBound := by decide +kernel
  have space : Gap [' '] := by simp [Gap]
  have tab : Gap ['\t'] := by simp [Gap]
  have spaces : Gap [' ', ' '] := by simp [Gap]
  have first : Spelling ⟨.load, some 255⟩ "LoAd  0x00fF".toList :=
    .bare (s := "LoAd".toList) (by simp [Mnemonic, Operation.mnemonic]) spaces (by simp)
      (.hexadecimal (.inl rfl) ⟨2, ['f', 'F'], rfl, rfl⟩)
  have second : Spelling ⟨.not, none⟩ "NOT ( )".toList :=
    .emptyCall (s := "NOT".toList) (by simp [Mnemonic, Operation.mnemonic]) space space
  have third : Spelling ⟨.store, some 1⟩ "store( 0B1 )".toList :=
    .call (s := "store".toList) (.mnemonic .store) .nil space
      (.binary (.inr rfl) ⟨0, ['1'], rfl, rfl⟩) space
  have note : Ending "; the first\r".toList := .comment (.inl rfl) (by decide)
  have remark : Ending "# nothing here".toList := .comment (.inr rfl) (by decide)
  refine ⟨parse_written.1 _ _ ?_, parse_written.2.1 _ ?_, parse_written.2.2 _ ?_⟩
  · exact .instruction rfl tab first space note <| .blank rfl space remark <|
      .blank rfl .nil .plain <| .instruction rfl .nil second .nil .plain <|
      .instruction rfl .nil third .nil .plain .done
  · simp [small]
  · simp [small]

end Accumulator.Assembler
