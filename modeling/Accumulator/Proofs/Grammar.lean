import Accumulator.Proofs.Literals
import Accumulator.Proofs.Outcome
import Mathlib

/-! The grammar of instructions in ASCII. An instruction is a mnemonic alone, with empty
parentheses, or with one literal in parentheses or behind blanks. A text is read as an instruction
just if it is a phrase of that grammar, and every other text is refused: for its name, if it has the
form of an instruction, or else for its form or its arguments. -/

namespace Accumulator.Assembler

open Number Text

/-- Blanks and nothing else. -/
def Blank (s : List Char) : Prop := ∀ c ∈ s, isBlank c = true

/-- The text begins with a sign. -/
def Signed (s : List Char) : Prop := ∃ c ∈ s.head?, c = '+' ∨ c = '-'

/-- The texts that are instructions. -/
inductive Phrase : Instruction → List Char → Prop
  | name {op : Operation} {s : List Char} (spelled : Mnemonic op s) : Phrase ⟨op, none⟩ s
  | emptyCall {op : Operation} {s gap inside : List Char} (spelled : Mnemonic op s)
      (blank : Blank gap) (empty : Blank inside) :
      Phrase ⟨op, none⟩ (s ++ (gap ++ '(' :: (inside ++ [')'])))
  | bare {op : Operation} {n : Nat} {s gap literal : List Char} (spelled : Mnemonic op s)
      (blank : Blank gap) (apart : gap ≠ [] ∨ Signed literal) (written : Literal n literal) :
      Phrase ⟨op, some n⟩ (s ++ (gap ++ literal))
  | call {op : Operation} {n : Nat} {s gap before literal after : List Char}
      (spelled : Mnemonic op s) (blank : Blank gap) (left : Blank before)
      (written : Literal n literal) (right : Blank after) :
      Phrase ⟨op, some n⟩ (s ++ (gap ++ '(' :: (before ++ literal ++ after ++ [')'])))

/-- A letter or an underscore, and then letters, digits and underscores. -/
def Identifier (name : List Char) : Prop :=
  ∃ c rest, name = c :: rest ∧ isNameStart c = true ∧ ∀ b ∈ rest, isAsciiWordChar b = true

/-- A text that begins with a name, as long as it can be, and with the blanks behind it. -/
structure Named (s name gap rest : List Char) : Prop where
  text : s = name ++ (gap ++ rest)
  identifier : Identifier name
  ends : ∀ c ∈ (gap ++ rest).head?, isAsciiWordChar c = false
  blank : Blank gap
  stop : ∀ c ∈ rest.head?, isBlank c = false

/-- A text in parentheses, with no other closing one. -/
def Enclosed (s : List Char) : Prop := ∃ inside, s = '(' :: (inside ++ [')']) ∧ ')' ∉ inside

/-- A text in the form of an instruction, of an operation that there is not. -/
def Unknown (s : List Char) : Prop :=
  ∃ name gap rest, Named s name gap rest ∧ ('\n' ∉ rest ∨ Enclosed rest) ∧
    ∀ op, ¬Mnemonic op name

/-! ### Names -/

theorem takeWhile_run {p : Char → Bool} {s rest : List Char} (all : ∀ c ∈ s, p c = true)
    (stop : ∀ c ∈ rest.head?, p c = false) :
    (s ++ rest).takeWhile p = s ∧ (s ++ rest).dropWhile p = rest := by
  rw [List.takeWhile_append_of_pos all, List.dropWhile_append_of_pos all]
  cases rest with
  | nil => simp
  | cons c rest => simp [stop c rfl]

theorem wordChar_eq {c : Char} (h : c.toNat < 128) : isWordChar c = isAsciiWordChar c := if_pos h

theorem not_wordChar_of_isBlank {c : Char} (ascii : c.toNat < 128) (h : isBlank c = true) :
    isAsciiWordChar c = false :=
  of_ascii (fun c => isBlank c = true → isAsciiWordChar c = false) (by decide) ascii h

theorem not_isBlank_of_wordChar {c : Char} (h : isAsciiWordChar c = true) : isBlank c = false := by
  simp only [isAsciiWordChar, Bool.or_eq_true] at h
  rcases h with (h | h) | h
  · exact (Plain.of_isAlphanum (by simp [Char.isAlphanum, h])).notBlank
  · exact (Plain.of_isAlphanum (by simp [Char.isAlphanum, h])).notBlank
  · obtain rfl : c = '_' := by simpa using h
    rfl

theorem Identifier.wordChar {name : List Char} (h : Identifier name) :
    ∀ c ∈ name, isAsciiWordChar c = true := by
  obtain ⟨c, rest, rfl, start, word⟩ := h
  rw [List.forall_mem_cons]
  refine ⟨?_, word⟩
  simp only [isNameStart, Bool.or_eq_true] at start
  simp only [isAsciiWordChar, Bool.or_eq_true]
  exact start.imp_left .inl

/-- The operation of an identifier is the one that it is a mnemonic of. -/
theorem ofName?_eq_some {name : List Char} (h : Identifier name) {op : Operation} :
    Operation.ofName? name = some op ↔ Mnemonic op name := by
  have trimmed : trim name = name :=
    trimBy_eq_self fun c hc => not_isBlank_of_wordChar (h.wordChar c hc)
  rw [Operation.ofName?, trimmed]
  constructor
  · intro found
    have := List.find?_some found
    exact (by simpa using this : op.mnemonic.toList = _).symm
  · intro spelled
    rw [spelled]
    cases op <;> rfl

theorem splitName?_eq_some {s name rest : List Char} (ascii : ∀ c ∈ s, c.toNat < 128) :
    splitName? s = some (name, rest) ↔ ∃ gap, Named s name gap rest := by
  constructor
  · intro h
    cases s with
    | nil => cases h
    | cons c t =>
      have word : ∀ b ∈ t, isWordChar b = isAsciiWordChar b :=
        fun b hb => wordChar_eq (ascii b (by simp [hb]))
      simp only [splitName?] at h
      split at h
      next start =>
        obtain ⟨rfl, rfl⟩ : _ ∧ _ := by simpa using h
        have split := List.takeWhile_append_dropWhile (p := isWordChar) (l := t)
        have blanks := List.takeWhile_append_dropWhile (p := isBlank) (l := t.dropWhile isWordChar)
        refine ⟨(t.dropWhile isWordChar).takeWhile isBlank, ?_,
          ⟨c, _, rfl, start, fun b hb => ?_⟩, ?_, fun b hb => List.mem_takeWhile_imp hb, ?_⟩
        · rw [skipBlanks, blanks, List.cons_append, split]
        · rw [← word b ((List.takeWhile_sublist _).subset hb)]
          exact List.mem_takeWhile_imp hb
        · rw [skipBlanks, blanks]
          intro b hb
          rw [← word b ((List.dropWhile_sublist _).subset (List.mem_of_mem_head? hb))]
          have := List.head?_dropWhile_not isWordChar t
          rwa [hb] at this
        · intro b hb
          have := List.head?_dropWhile_not isBlank (t.dropWhile isWordChar)
          rw [skipBlanks] at hb
          rwa [hb] at this
      next => cases h
  · rintro ⟨gap, rfl, ⟨c, name, rfl, start, word⟩, ends, blank, stop⟩
    have name' : ∀ b ∈ name, isWordChar b = true :=
      fun b hb => (wordChar_eq (ascii b (by simp [hb]))).trans (word b hb)
    have ends' : ∀ b ∈ (gap ++ rest).head?, isWordChar b = false := fun b hb =>
      (wordChar_eq (ascii b (List.mem_append_right _ (List.mem_of_mem_head? hb)))).trans (ends b hb)
    have run := takeWhile_run name' ends'
    simp [splitName?, start, run.1, run.2, skipBlanks, (takeWhile_run blank stop).2]

/-! ### Arguments -/

theorem callArgument?_eq_some {s inside : List Char} :
    callArgument? s = some inside ↔ s = '(' :: (inside ++ [')']) ∧ ')' ∉ inside := by
  constructor
  · intro h
    unfold callArgument? at h
    split at h
    next rest =>
      have open' : ')' ∉ rest.takeWhile (· != ')') := fun hc => by
        simpa using List.mem_takeWhile_imp hc
      have split := List.takeWhile_append_dropWhile (p := (· != ')')) (l := rest)
      obtain ⟨full, rfl⟩ : rest.length = _ ∧ _ = inside := by simpa using h
      obtain ⟨c, one⟩ : ∃ c, rest.dropWhile (· != ')') = [c] := by
        rw [← List.length_eq_one_iff]
        have := congrArg List.length split
        rw [List.length_append] at this
        omega
      obtain rfl : c = ')' := by simpa [one] using List.head?_dropWhile_not (· != ')') rest
      exact ⟨by rw [← one, split], open'⟩
    next => cases h
  · rintro ⟨rfl, closed⟩
    have keeps : ∀ c ∈ inside, (c != ')') = true :=
      fun c hc => by simpa using fun eq : c = ')' => closed (eq ▸ hc)
    have run : (inside ++ [')']).takeWhile (· != ')') = inside :=
      (takeWhile_run keeps (by simp)).1
    simp [callArgument?, run]

theorem argumentText?_eq_some {s args : List Char} :
    argumentText? s = some args ↔
      s = '(' :: (args ++ [')']) ∧ ')' ∉ args ∨ ¬Enclosed s ∧ '\n' ∉ s ∧ args = s := by
  unfold argumentText?
  split
  next inside call =>
    obtain ⟨rfl, closed⟩ := callArgument?_eq_some.mp call
    constructor
    · intro h
      cases h
      exact .inl ⟨rfl, closed⟩
    · rintro (⟨eq, -⟩ | ⟨notCall, -⟩)
      · simpa using eq
      · exact absurd ⟨inside, rfl, closed⟩ notCall
  next noCall =>
    have notCall : ¬Enclosed s := fun ⟨inside, call⟩ => by
      simpa [noCall] using callArgument?_eq_some.mpr call
    constructor
    · intro h
      split at h
      · cases h
      next oneLine =>
        cases h
        exact .inr ⟨notCall, by simpa using oneLine, rfl⟩
    · rintro (⟨rfl, closed⟩ | ⟨-, oneLine, rfl⟩)
      · exact absurd ⟨args, rfl, closed⟩ notCall
      · exact if_neg (by simpa using oneLine)

theorem fields_go_ne_nil (s field : List Char) (after : Bool) :
    fields.go field after s ≠ [] := by
  induction s generalizing field after with
  | nil => simp [fields.go]
  | cons c s ih =>
    rw [fields.go]
    split
    · split
      · exact ih _ _
      · simp
    · exact ih _ _

/-- A text is one argument just if there is no separator in it. -/
theorem fields_eq_singleton {s t : List Char} :
    fields s = [t] ↔ t = s ∧ ∀ c ∈ s, isSeparator c = false := by
  -- The field that has been begun is carried along in reverse.
  have whole : ∀ s field, fields.go field false s = [t] →
      t = field.reverse ++ s ∧ ∀ c ∈ s, isSeparator c = false := by
    intro s
    induction s with
    | nil =>
      intro field h
      exact ⟨by simpa [fields.go] using (List.cons_eq_cons.mp h).1.symm, by simp⟩
    | cons c s ih =>
      intro field h
      rw [fields.go] at h
      split at h
      · exact absurd (List.cons_eq_cons.mp h).2 (fields_go_ne_nil s [] true)
      next hc =>
        obtain ⟨rfl, rest⟩ := ih _ h
        exact ⟨by simp, List.forall_mem_cons.mpr ⟨by simpa using hc, rest⟩⟩
  constructor
  · exact whole s []
  · rintro ⟨rfl, h⟩
    exact fields_go h []

section Arguments

variable {s : List Char}

theorem arguments_eq_ok {ns : List Int} :
    arguments s = .ok ns ↔ Blank s ∧ ns = [] ∨
      ¬Blank s ∧ List.Forall₂ (fun t n => immediate t = .ok n) (fields (trim s)) ns := by
  have blank : Blank s ↔ trim s = [] := trimBy_eq_nil_iff.symm
  rw [arguments, blank]
  split
  next eq =>
    rw [eq]
    simp [eq_comm]
  next ne =>
    rw [mapM_eq_ok]
    exact ⟨fun h => .inr ⟨ne, h⟩, fun h => (h.resolve_left fun h => ne h.1).2⟩

theorem arguments_eq_error {f : Fault} (h : arguments s = .error f) :
    ∃ t, f = .badImmediate (String.ofList t) := by
  unfold arguments at h
  split at h
  · cases h
  · obtain ⟨t, -, refused⟩ := mapM_eq_error h
    exact ⟨t, immediate_error refused⟩

theorem arguments_eq_nil : arguments s = .ok [] ↔ Blank s := by
  have some : fields (trim s) ≠ [] := fields_go_ne_nil _ _ _
  simp [arguments_eq_ok, some]

/-- What literals are made of has no place around them. -/
theorem literalChar_spec {c : Char} (h : IsLiteralChar c) :
    Visible c ∧ isSeparator c = false ∧ (c ≠ '(' ∧ c ≠ ')') ∧ c ≠ '\n' := by
  rcases h with alphanum | rfl | rfl | rfl
  · have plain := Plain.of_isAlphanum alphanum
    exact ⟨plain.visible, plain.notSeparator, plain.notParenthesis, plain.notNewline⟩
  all_goals exact ⟨⟨by decide, by decide⟩, by decide, by decide, by decide⟩

/-- A literal that is not in parentheses stands for itself. -/
theorem argumentText?_literal {n : Int} (written : Literal n s) : argumentText? s = some s := by
  have char := fun c hc => literalChar_spec (written.literalChar c hc)
  have notEnclosed : ¬Enclosed s := by
    rintro ⟨inside, rfl, -⟩
    exact (char '(' (by simp)).2.2.1.1 rfl
  exact argumentText?_eq_some.mpr (.inr ⟨notEnclosed, fun hc => (char _ hc).2.2.2 rfl, rfl⟩)

theorem arguments_eq_singleton (ascii : ∀ c ∈ s, c.toNat < 128) {n : Int} :
    arguments s = .ok [n] ↔ ∃ before literal after, s = before ++ literal ++ after ∧
      Blank before ∧ Blank after ∧ Literal n literal := by
  rw [arguments_eq_ok]
  constructor
  · rintro (⟨-, empty⟩ | ⟨-, read⟩)
    · cases empty
    obtain ⟨before, after, text, left, right, -, -⟩ := trimBy_spec isBlank s
    obtain ⟨t, rest, one, none, eq⟩ := List.forall₂_cons_right_iff.mp read
    obtain rfl := List.forall₂_nil_right_iff.mp none
    obtain ⟨rfl, joined⟩ := fields_eq_singleton.mp eq
    have visible : ∀ c ∈ trim s, Visible c := by
      intro c hc
      refine ⟨ascii c ?_, (Bool.or_eq_false_iff.mp (joined c hc)).2⟩
      rw [text]
      exact List.mem_append_left _ (List.mem_append_right _ hc)
    exact ⟨before, trim s, after, text, left, right, (immediate_eq_ok visible).mp one⟩
  · rintro ⟨before, literal, after, rfl, left, right, written⟩
    have visible : ∀ c ∈ literal, Visible c :=
      fun c hc => (literalChar_spec (written.literalChar c hc)).1
    have trimmed : trim (before ++ literal ++ after) = literal :=
      trimBy_between left right
        (fun c hc => (visible c (List.mem_of_mem_head? hc)).notBlank)
        (fun c hc => (visible c (List.mem_of_mem_getLast? hc)).notBlank)
    have one : fields literal = [literal] := fields_eq_singleton.mpr
      ⟨rfl, fun c hc => (literalChar_spec (written.literalChar c hc)).2.1⟩
    have notBlank : ¬Blank (before ++ literal ++ after) := fun blank => by
      rw [Blank, ← trimBy_eq_nil_iff] at blank
      exact written.ne_nil (trimmed.symm.trans blank)
    rw [trimmed, one]
    exact .inr ⟨notBlank, .cons ((immediate_eq_ok visible).mpr written) .nil⟩

/-- The arguments that are less than zero can be shown. -/
theorem arguments_negative {ns : List Int} (h : arguments s = .ok ns) :
    ∀ n ∈ ns, n < 0 → n.natAbs < decimalBound := by
  rcases arguments_eq_ok.mp h with ⟨-, rfl⟩ | ⟨-, read⟩
  · simp
  · clear h
    generalize fields (trim s) = ts at read
    induction read with
    | nil => simp
    | cons first _ ih => exact List.forall_mem_cons.mpr ⟨natAbs_lt_of_immediate first, ih⟩

end Arguments

/-! ### Instructions -/

theorem ofArgs_eq_ok {op : Operation} {ns : List Int} {i : Instruction} :
    Instruction.ofArgs op (ns.map .int) = .ok i ↔
      i.operation = op ∧ ns = i.args.map Int.ofNat := by
  constructor
  · intro h
    rcases ns with _ | ⟨n | n, _ | ⟨m, ns⟩⟩ <;> cases h <;> exact ⟨rfl, rfl⟩
  · rintro ⟨rfl, rfl⟩
    rcases i with ⟨op, _ | n⟩ <;> rfl

theorem ofArgs_eq_error {op : Operation} {ns : List Int} {f : Fault}
    (shown : ∀ n ∈ ns, n < 0 → n.natAbs < decimalBound)
    (h : Instruction.ofArgs op (ns.map .int) = .error f) :
    f.isWritable = true ∧ f.kind = .invalidArgument := by
  rcases ns with _ | ⟨n, _ | ⟨m, ns⟩⟩
  · cases h
  · cases n with
    | ofNat n => cases h
    | negSucc n =>
      have bound := shown (.negSucc n) (by simp) (Int.negSucc_lt_zero n)
      cases h
      exact ⟨by simpa [Fault.isWritable, Value.isWritable, Number.isWritable] using bound, rfl⟩
  · cases h
    exact ⟨rfl, rfl⟩

/-- The form of an instruction: a name, and the text of the arguments behind it. -/
def Formed (s name args : List Char) : Prop :=
  ∃ rest, splitName? s = some (name, rest) ∧ argumentText? rest = some args

section Reading

variable {s name args : List Char} {f : Fault}

/-- What has the form of an instruction is read piece by piece. -/
theorem Formed.readInstruction_eq (h : Formed (trim s) name args) :
    readInstruction s = (do
      let op ← Operation.ofValue (.text (String.ofList name))
      Instruction.ofArgs op ((← arguments args).map .int)) := by
  obtain ⟨rest, split, taken⟩ := h
  rw [readInstruction, split]
  simp only [taken]

theorem ofValue_text_eq_ok {op : Operation} :
    Operation.ofValue (.text (String.ofList name)) = .ok op ↔
      Operation.ofName? name = some op := by
  rw [Operation.ofValue, String.toList_ofList]
  split
  next found => simp [found]
  next missing => simp [missing]

theorem ofValue_text_eq_error :
    Operation.ofValue (.text (String.ofList name)) = .error f ↔
      f = .unknownName (.text (String.ofList name)) ∧ Operation.ofName? name = none := by
  rw [Operation.ofValue, String.toList_ofList]
  split
  next found => simp [found]
  next missing => simp [missing, eq_comm]

theorem readInstruction_unformed (h : ∀ name args, ¬Formed (trim s) name args) :
    readInstruction s = .error (.badFormat (String.ofList s)) := by
  rw [readInstruction]
  split
  · rfl
  next name rest split =>
    split
    · rfl
    next args taken => exact absurd ⟨rest, split, taken⟩ (h name args)

theorem readInstruction_eq_ok {i : Instruction} :
    readInstruction s = .ok i ↔ ∃ name args, Formed (trim s) name args ∧
      Operation.ofName? name = some i.operation ∧ arguments args = .ok (i.args.map Int.ofNat) := by
  constructor
  · intro h
    by_cases formed : ∃ name args, Formed (trim s) name args
    · obtain ⟨name, args, formed⟩ := formed
      rw [formed.readInstruction_eq] at h
      obtain ⟨op, named, h⟩ := bind_eq_ok h
      obtain ⟨ns, read, h⟩ := bind_eq_ok h
      obtain ⟨rfl, rfl⟩ := ofArgs_eq_ok.mp h
      exact ⟨name, args, formed, ofValue_text_eq_ok.mp named, read⟩
    · rw [readInstruction_unformed (by simpa using formed)] at h
      cases h
  · rintro ⟨name, args, formed, named, read⟩
    rw [formed.readInstruction_eq, ofValue_text_eq_ok.mpr named, read]
    exact ofArgs_eq_ok.mpr ⟨rfl, rfl⟩

theorem readInstruction_eq_error (h : readInstruction s = .error f) :
    f.isWritable = true ∧ (f.kind = .invalidArgument ∨ f.kind = .unknownOperation ∧
      ∃ name args, Formed (trim s) name args ∧ Operation.ofName? name = none) := by
  by_cases formed : ∃ name args, Formed (trim s) name args
  · obtain ⟨name, args, formed⟩ := formed
    rw [formed.readInstruction_eq] at h
    rcases bind_eq_error h with unnamed | ⟨op, -, h⟩
    · obtain ⟨rfl, none⟩ := ofValue_text_eq_error.mp unnamed
      exact ⟨rfl, .inr ⟨rfl, name, args, formed, none⟩⟩
    rcases bind_eq_error h with unread | ⟨ns, read, h⟩
    · obtain ⟨t, rfl⟩ := arguments_eq_error unread
      exact ⟨rfl, .inl rfl⟩
    -- A negative number is named in the message, which is why it matters how long it is.
    · exact (ofArgs_eq_error (arguments_negative read) h).imp_right .inl
  · rw [readInstruction_unformed (by simpa using formed)] at h
    cases h
    exact ⟨rfl, .inl rfl⟩

/-- What has the form of an instruction is refused for its name before anything else. -/
theorem Formed.readInstruction_unnamed (h : Formed (trim s) name args)
    (none : Operation.ofName? name = none) :
    readInstruction s = .error (.unknownName (.text (String.ofList name))) := by
  rw [h.readInstruction_eq, ofValue_text_eq_error.mpr ⟨rfl, none⟩]
  rfl

end Reading

/-! ### Phrases -/

variable {s name args : List Char}

theorem formed_iff (ascii : ∀ c ∈ s, c.toNat < 128) :
    Formed s name args ↔ ∃ gap rest, Named s name gap rest ∧ argumentText? rest = some args := by
  simp only [Formed, splitName?_eq_some ascii]
  exact ⟨fun ⟨rest, ⟨gap, named⟩, taken⟩ => ⟨gap, rest, named, taken⟩,
    fun ⟨gap, rest, named, taken⟩ => ⟨rest, ⟨gap, named⟩, taken⟩⟩

theorem unknown_iff (ascii : ∀ c ∈ s, c.toNat < 128) :
    Unknown s ↔ ∃ name args, Formed s name args ∧ Operation.ofName? name = none := by
  have nameless : ∀ {name}, Identifier name →
      ((∀ op, ¬Mnemonic op name) ↔ Operation.ofName? name = none) := by
    intro name identifier
    simp only [Option.eq_none_iff_forall_ne_some, ne_eq, ofName?_eq_some identifier]
  simp only [formed_iff ascii]
  constructor
  · rintro ⟨name, gap, rest, named, form, unknown⟩
    have missing := (nameless named.identifier).mp unknown
    by_cases enclosed : Enclosed rest
    · obtain ⟨inside, call⟩ := enclosed
      exact ⟨name, inside, ⟨gap, rest, named, argumentText?_eq_some.mpr (.inl call)⟩, missing⟩
    · have oneLine := form.resolve_right enclosed
      exact ⟨name, rest, ⟨gap, rest, named,
        argumentText?_eq_some.mpr (.inr ⟨enclosed, oneLine, rfl⟩)⟩, missing⟩
  · rintro ⟨name, args, ⟨gap, rest, named, taken⟩, missing⟩
    refine ⟨name, gap, rest, named, ?_, (nameless named.identifier).mpr missing⟩
    rcases argumentText?_eq_some.mp taken with call | ⟨-, oneLine, -⟩
    · exact .inr ⟨args, call⟩
    · exact .inl oneLine

theorem Mnemonic.identifier {op : Operation} (h : Mnemonic op name) : Identifier name := by
  cases name with
  | nil => exact absurd rfl h.ne_nil
  | cons c rest =>
    have alpha := List.forall_mem_cons.mp h.isAlpha
    refine ⟨c, rest, rfl, by simp [isNameStart, alpha.1], fun b hb => ?_⟩
    simp [isAsciiWordChar, alpha.2 b hb]

/-- A name ends where blanks begin, and where something begins that is not part of a name. -/
theorem Mnemonic.named {op : Operation} {gap rest : List Char} (spelled : Mnemonic op name)
    (blank : Blank gap) (ascii : ∀ c ∈ gap, c.toNat < 128)
    (apart : gap ≠ [] ∨ ∀ c ∈ rest.head?, isAsciiWordChar c = false)
    (stop : ∀ c ∈ rest.head?, isBlank c = false) :
    Named (name ++ (gap ++ rest)) name gap rest where
  text := rfl
  identifier := spelled.identifier
  ends := by
    intro c hc
    cases gap with
    | nil => exact apart.resolve_left (by simp) c hc
    | cons b gap =>
      obtain rfl : b = c := by simpa using hc
      exact not_wordChar_of_isBlank (ascii b (by simp)) (blank b (by simp))
  blank := blank
  stop := stop

theorem Mnemonic.named_enclosed {op : Operation} {gap : List Char} (spelled : Mnemonic op name)
    (blank : Blank gap) (ascii : ∀ c ∈ gap, c.toNat < 128) (inside : List Char) :
    Named (name ++ (gap ++ '(' :: (inside ++ [')']))) name gap ('(' :: (inside ++ [')'])) :=
  spelled.named blank ascii (.inr (by rintro c ⟨⟩; rfl)) (by rintro c ⟨⟩; rfl)

theorem Signed.ends (h : Signed s) : ∀ c ∈ s.head?, isAsciiWordChar c = false := by
  obtain ⟨b, hb, sign⟩ := h
  intro c hc
  obtain rfl := Option.mem_unique hb hc
  rcases sign with rfl | rfl <;> rfl

/-- What a literal begins with that is not part of a name is a sign. -/
theorem Signed.of_ends {n : Int} (h : Literal n s)
    (ends : ∀ c ∈ s.head?, isAsciiWordChar c = false) : Signed s := by
  cases s with
  | nil => exact absurd rfl h.ne_nil
  | cons c rest =>
    have outside := ends c rfl
    rcases h.literalChar c (by simp) with alphanum | rfl | plus | minus
    · simp [isAsciiWordChar, Char.isAlphanum] at alphanum outside
      simp [outside] at alphanum
    · cases outside
    · exact ⟨c, rfl, .inl plus⟩
    · exact ⟨c, rfl, .inr minus⟩

theorem Blank.notClosing {gap : List Char} (h : Blank gap) : ')' ∉ gap :=
  fun hc => absurd (h _ hc) (by decide)

/-- Blanks at an end without a blank are none. -/
theorem Blank.eq_nil_of_head {gap : List Char} (h : Blank gap) (rest : List Char)
    (first : ∀ c ∈ (gap ++ rest).head?, isBlank c = false) : gap = [] := by
  cases gap with
  | nil => rfl
  | cons b gap => simp [h b (by simp)] at first

theorem Blank.eq_nil_of_getLast {gap : List Char} (h : Blank gap) (front : List Char)
    (last : ∀ c ∈ (front ++ gap).getLast?, isBlank c = false) : gap = [] := by
  rcases List.eq_nil_or_concat gap with rfl | ⟨gap, b, rfl⟩
  · rfl
  · simp [h b (by simp)] at last

/-- A phrase is a name that is a mnemonic with the text of its arguments. -/
theorem Phrase.formed {i : Instruction} (ascii : ∀ c ∈ s, c.toNat < 128) (h : Phrase i s) :
    ∃ name args, Formed s name args ∧ Operation.ofName? name = some i.operation ∧
      arguments args = .ok (i.args.map Int.ofNat) := by
  simp only [formed_iff ascii]
  cases h with
  | name spelled =>
    have named : Named (s ++ ([] ++ [])) s [] [] :=
      spelled.named (by simp [Blank]) (by simp) (by simp) (by simp)
    rw [List.append_nil, List.append_nil] at named
    exact ⟨s, [], ⟨[], [], named, rfl⟩, (ofName?_eq_some spelled.identifier).mpr spelled, rfl⟩
  | @emptyCall op name gap inside spelled blank empty =>
    have named := spelled.named_enclosed blank (fun c hc => ascii c (by simp [hc])) inside
    exact ⟨name, inside, ⟨gap, _, named, argumentText?_call empty.notClosing⟩,
      (ofName?_eq_some spelled.identifier).mpr spelled, arguments_eq_nil.mpr empty⟩
  | @bare op n name gap literal spelled blank apart written =>
    have visible := fun c hc => (literalChar_spec (written.literalChar c hc)).1
    have named : Named (name ++ (gap ++ literal)) name gap literal :=
      spelled.named blank (fun c hc => ascii c (by simp [hc])) (apart.imp_right Signed.ends)
        fun c hc => (visible c (List.mem_of_mem_head? hc)).notBlank
    have read : arguments literal = .ok [(n : Int)] :=
      (arguments_eq_singleton fun c hc => (visible c hc).ascii).mpr
        ⟨[], literal, [], by simp, by simp [Blank], by simp [Blank], written⟩
    exact ⟨name, literal, ⟨gap, literal, named, argumentText?_literal written⟩,
      (ofName?_eq_some spelled.identifier).mpr spelled, read⟩
  | @call op n name gap before literal after spelled blank left written right =>
    have named := spelled.named_enclosed blank (fun c hc => ascii c (by simp [hc]))
      (before ++ literal ++ after)
    have inside : ')' ∉ before ++ literal ++ after := by
      have : ')' ∉ literal := fun hc => (literalChar_spec (written.literalChar _ hc)).2.2.1.2 rfl
      simp [left.notClosing, right.notClosing, this]
    have read : arguments (before ++ literal ++ after) = .ok [(n : Int)] :=
      (arguments_eq_singleton fun c hc => ascii c (List.mem_append_right _
        (List.mem_append_right _ (List.mem_cons_of_mem _ (List.mem_append_left _ hc))))).mpr
        ⟨before, literal, after, rfl, left, right, written⟩
    exact ⟨name, _, ⟨gap, _, named, argumentText?_call inside⟩,
      (ofName?_eq_some spelled.identifier).mpr spelled, read⟩

/-- A mnemonic with the text of its arguments is a phrase, unless there are blanks behind it. -/
theorem Formed.phrase {i : Instruction} (ascii : ∀ c ∈ s, c.toNat < 128)
    (last : ∀ c ∈ s.getLast?, isBlank c = false) (h : Formed s name args)
    (named : Operation.ofName? name = some i.operation)
    (read : arguments args = .ok (i.args.map Int.ofNat)) : Phrase i s := by
  obtain ⟨gap, rest, ⟨rfl, identifier, ends, blank, stop⟩, taken⟩ := (formed_iff ascii).mp h
  have spelled := (ofName?_eq_some identifier).mp named
  have ascii' : ∀ c ∈ rest, c.toNat < 128 := fun c hc => ascii c (by simp [hc])
  obtain ⟨op, address⟩ := i
  rcases argumentText?_eq_some.mp taken with ⟨rfl, -⟩ | ⟨-, -, rfl⟩
  · cases address with
    | none => exact .emptyCall spelled blank (arguments_eq_nil.mp read)
    | some n =>
      obtain ⟨before, literal, after, rfl, left, right, written⟩ :=
        (arguments_eq_singleton fun c hc => ascii' c (by simp [hc])).mp read
      exact .call spelled blank left written right
  -- Without parentheses around them, the arguments run from the blanks to the end.
  · cases address with
    | none =>
      obtain rfl : args = [] :=
        (arguments_eq_nil.mp read).eq_nil_of_head [] (by simpa using stop)
      rw [List.append_nil] at last ⊢
      obtain rfl := blank.eq_nil_of_getLast _ last
      rw [List.append_nil]
      exact .name spelled
    | some n =>
      obtain ⟨before, literal, after, rfl, left, right, written⟩ :=
        (arguments_eq_singleton ascii').mp read
      obtain rfl : before = [] :=
        left.eq_nil_of_head (literal ++ after) (by simpa using stop)
      obtain rfl : after = [] :=
        right.eq_nil_of_getLast (name ++ (gap ++ literal)) (by simpa using last)
      rw [List.nil_append, List.append_nil] at ends ⊢
      refine .bare spelled blank ?_ written
      by_cases none : gap = []
      · exact .inr (.of_ends written (by simpa [none] using ends))
      · exact .inl none

/-- What is read of a text in ASCII is decided by the grammar, the blanks around it aside. It is an
instruction just if it is a phrase of it; it is refused for its name just if it has the form of an
instruction but its name is no mnemonic; and in all other cases it is refused for what it is made
of. -/
theorem parse_iff_phrase (t : String) (ascii : ∀ c ∈ t.toList, c.toNat < 128) :
    (∀ i, parseInstruction t = .ok i ↔ Phrase i (trim t.toList)) ∧
    ((∃ f, parseInstruction t = .error f ∧ f.reported.kind = .unknownOperation) ↔
      Unknown (trim t.toList)) ∧
    ((∃ f, parseInstruction t = .error f ∧ f.reported.kind = .invalidArgument) ↔
      (∀ i, ¬Phrase i (trim t.toList)) ∧ ¬Unknown (trim t.toList)) := by
  have trimmed : (∀ c ∈ trim t.toList, c.toNat < 128) ∧
      ∀ c ∈ (trim t.toList).getLast?, isBlank c = false := by
    obtain ⟨before, after, text, -, -, -, last⟩ := trimBy_spec isBlank t.toList
    refine ⟨fun c hc => ascii c ?_, last⟩
    rw [text]
    exact List.mem_append_left _ (List.mem_append_right _ hc)
  have accepted : ∀ i, parseInstruction t = .ok i ↔ Phrase i (trim t.toList) := by
    intro i
    refine readInstruction_eq_ok.trans ⟨?_, Phrase.formed trimmed.1⟩
    rintro ⟨name, args, formed, named, read⟩
    exact formed.phrase trimmed.1 trimmed.2 named read
  have unnamed : (∃ f, parseInstruction t = .error f ∧ f.reported.kind = .unknownOperation) ↔
      Unknown (trim t.toList) := by
    rw [unknown_iff trimmed.1]
    constructor
    · rintro ⟨f, refused, kind⟩
      obtain ⟨writable, sort⟩ := readInstruction_eq_error refused
      rw [Fault.reported_of_writable writable] at kind
      rcases sort with other | ⟨-, unknown⟩
      · cases kind.symm.trans other
      · exact unknown
    · rintro ⟨name, args, formed, missing⟩
      exact ⟨_, formed.readInstruction_unnamed missing, rfl⟩
  refine ⟨accepted, unnamed, ?_⟩
  rw [← unnamed]
  constructor
  · rintro ⟨f, refused, kind⟩
    refine ⟨fun i phrase => ?_, ?_⟩
    · cases refused.symm.trans ((accepted i).mpr phrase)
    · rintro ⟨g, refused', kind'⟩
      cases refused.symm.trans refused'
      cases kind.symm.trans kind'
  · rintro ⟨noPhrase, named⟩
    cases outcome : parseInstruction t with
    | ok i => exact absurd ((accepted i).mp outcome) (noPhrase i)
    | error f =>
      obtain ⟨writable, kind | ⟨kind, -⟩⟩ := readInstruction_eq_error outcome
      · exact ⟨f, rfl, (congrArg Fault.kind (Fault.reported_of_writable writable)).trans kind⟩
      · exact absurd ⟨f, outcome,
          (congrArg Fault.kind (Fault.reported_of_writable writable)).trans kind⟩ named

/-- An instruction in parentheses over two lines, one glued to a sign, a name that is no mnemonic,
and an instruction with a comma too many. -/
theorem parse_iff_phrase_forms :
    parseInstruction "\tLoAd (\n0x_fF )" = .ok ⟨.load, some 255⟩ ∧
    parseInstruction "store-0_0 " = .ok ⟨.store, some 0⟩ ∧
    Unknown (trim "nop (\n1)".toList) ∧
    (∀ i, ¬Phrase i (trim "load 1,".toList)) ∧ ¬Unknown (trim "load 1,".toList) := by
  have nothing : Blank [] := List.forall_mem_nil _
  have space : Blank [' '] := List.forall_mem_singleton.mpr rfl
  have newline : Blank ['\n'] := List.forall_mem_singleton.mpr rfl
  have first : Phrase ⟨.load, some 255⟩ (trim "\tLoAd (\n0x_fF )".toList) := by
    have spelled : Mnemonic .load "LoAd".toList := by simp [Mnemonic, Operation.mnemonic]
    have digits : Grouped 16 (15 * 16 + 15) (['f'] ++ ['F']) :=
      .next (.first rfl (by decide)) rfl (by decide)
    exact .call spelled space newline (.tagged (.hexadecimal (.inl rfl)) (.inr rfl) digits) space
  have second : Phrase ⟨.store, some 0⟩ (trim "store-0_0 ".toList) := by
    have digits : Grouped 10 (0 * 10 + 0) (['0'] ++ ['_', '0']) :=
      .apart (.first rfl (by decide)) rfl (by decide)
    exact .bare (.mnemonic .store) nothing (.inr ⟨'-', rfl, .inr rfl⟩)
      (.decimal (.negative digits (by decide)))
  exact ⟨((parse_iff_phrase _ (by simp)).1 _).mpr first,
    ((parse_iff_phrase _ (by simp)).1 _).mpr second,
    (parse_iff_phrase "nop (\n1)" (by simp)).2.1.mp ⟨.unknownName (.text "nop"), rfl, rfl⟩,
    (parse_iff_phrase "load 1," (by simp)).2.2.mp ⟨.badImmediate "", rfl, rfl⟩⟩

end Accumulator.Assembler
