import Accumulator.Proofs.Assigning
import Accumulator.Proofs.Interrupting
import Accumulator.Proofs.Lines
import Accumulator.Proofs.Refusing
import Accumulator.Proofs.Showing

/-! The two ways to set up a machine: on the command line and at the workbench. From the same
assignments, sizes and program they make the same machine, or are refused alike. -/

namespace Accumulator

open Computer

/-- What both front ends make before they differ: the machine that has been written to, and the
instructions of the program on it. -/
def fitted (wordSize memorySize : Int) (assignments : List Assignment) (source : String) :
    Except Fault (Machine × List Instruction) := do
  let c ← Computer.ofSizes (.int wordSize) (.int memorySize) .standard
  let c ← c.writeAll (assignments.map Assignment.toWrite)
  let instructions ← Assembler.parseProgram source
  let p ← Program.ofEntries c.machine.memory (.list (instructions.map .instruction)) .none
  return (c.machine, p.instructions)

section

variable {wordSize memorySize : Int} {as : List Assignment} {source memoryInit : String}
  {o : CommandLine.Options} {f : Fault}

theorem foldlM_write (c : Computer) (as : List Assignment) :
    (as.map some).foldlM CommandLine.write c = c.writeAll (as.map Assignment.toWrite) := by
  induction as generalizing c with
  | nil => rfl
  | cons a as ih =>
    have first : CommandLine.write c (some a) = c.writeAll [a.toWrite] := rfl
    rw [List.map_cons, List.foldlM_cons, first, List.map_cons]
    simp only [ih, writeAll, List.foldlM_cons, List.foldlM_nil]
    rcases c.perform (.write a.toWrite.1 a.toWrite.2) with ⟨_ | _, _⟩ <;> rfl

/-- The delay of a program has no part in whether there is one. -/
theorem ofEntries_delay (m : Memory) (entries delay : Value) :
    Program.ofEntries m entries delay = (Program.ofEntries m entries .none).map
      fun p => { instructions := p.instructions, stepDelay := delay } := by
  simp only [Program.ofEntries]
  cases Instruction.ofEntries entries with
  | error f => rfl
  | ok is =>
    simp only [bind, Except.bind]
    cases is.forM (Program.checkAddress m) <;> rfl

/-- Whatever is made of the computer and the program in the end, it is made of what is fitted, or of
nothing for the same fault. -/
theorem fitted_map {α : Type} (delay : Value) (finish : Computer → Program → α) :
    (do
      let c ← Computer.ofSizes (.int wordSize) (.int memorySize) .standard
      let c ← c.writeAll (as.map Assignment.toWrite)
      let instructions ← Assembler.parseProgram source
      let p ← Program.ofEntries c.machine.memory (.list (instructions.map .instruction)) delay
      return finish c p) =
    (fitted wordSize memorySize as source).map fun made =>
      finish (alone made.1) { instructions := made.2, stepDelay := delay } := by
  simp only [fitted, bind, Except.bind, pure, Except.pure]
  cases made : ofSizes (.int wordSize) (.int memorySize) .standard with
  | error f => rfl
  | ok c =>
    obtain ⟨w, n, -, unwatched⟩ := ofSizes_eq_ok made
    simp only
    cases written : c.writeAll (as.map Assignment.toWrite) with
    | error f => rfl
    | ok d =>
      obtain ⟨m, -, -, rfl⟩ := unwatched.writeAll written
      simp only
      cases Assembler.parseProgram source with
      | error f => rfl
      | ok is =>
        simp only
        rw [ofEntries_delay]
        cases Program.ofEntries (alone m).machine.memory (.list (is.map .instruction)) .none <;> rfl

theorem CommandLine.setUp_fitted (hsource : o.inline = some source)
    (hw : o.wordSize = some wordSize) (hn : o.memorySize = some memorySize)
    (has : o.assignments = as.map some) (hplain : ';' ∉ source.toList) :
    setUp o = (fitted wordSize memorySize as source).map fun made =>
      manned made.1 { instructions := made.2, stepDelay := valueOf .float o.delay } := by
  have text : (source.map fun c => if c = ';' then '\n' else c) = source := by
    refine String.ext ?_
    rw [String.toList_map]
    refine (List.map_congr_left fun c hc => if_neg ?_).trans (List.map_id' _)
    rintro rfl
    exact hplain hc
  have read : sourceOf o = pure source := by
    rw [sourceOf, hsource]
    rfl
  rw [setUp, hw, hn, has]
  simp only [foldlM_write, read, pure_bind, text]
  exact fitted_map _ fun c p => { c.addProgram p with subscribers := [.recorder] }

theorem Workbench.Session.setUp_fitted (has : Assignment.parseList memoryInit = .ok as) :
    setUp source memoryInit (.int wordSize) (.int memorySize) =
      (fitted wordSize memorySize as source).map fun made =>
        watch (manned made.1
          { instructions := made.2, stepDelay := .float Program.defaultDelay }) := by
  simp only [setUp, wholeNumber, has]
  exact fitted_map _ fun c p => watch (c.addProgram p)

/-! ### Refusals -/

/-- There is no room for the machine, and nothing is wrong with what is asked of it. -/
structure Fault.Roomless (f : Fault) : Prop where
  kind : f.kind = .storage ∨ f.kind = .overflow
  writable : f.isWritable = true

theorem Computer.ofSizes_eq_error
    (h : ofSizes (.int wordSize) (.int memorySize) .standard = .error f) :
    f.isMachineFault = true ∨ f.Roomless := by
  have positive {q : Quantity} {v : Value} (h : q.positive v = .error f) :
      f.isMachineFault = true := by
    unfold Quantity.positive at h
    split at h
    · cases h
    · cases h
      rfl
  have sort (few : Prop) [Decidable few] :
      (if few then Fault.Kind.storage else .overflow) = .storage ∨
        (if few then Fault.Kind.storage else .overflow) = .overflow := by
    split
    · exact .inl rfl
    · exact .inr rfl
  rcases bind_eq_error h with h | ⟨memory, -, h⟩
  swap
  · cases h
  rcases bind_eq_error h with h | ⟨w, -, h⟩
  · exact .inl (positive h)
  rcases bind_eq_error h with h | ⟨n, -, h⟩
  · exact .inl (positive h)
  rcases bind_eq_error h with h | ⟨_, -, h⟩
  · unfold Word.checkWidth at h
    split at h
    · cases h
    · cases h
      exact .inr ⟨sort _, rfl⟩
  rcases bind_eq_error h with h | ⟨_, -, h⟩
  · unfold Memory.checkSize at h
    split at h
    · cases h
    · cases h
      exact .inr ⟨sort _, rfl⟩
  · cases h

theorem Computer.Alone.writeAll_eq_error {w n : Nat} {c : Computer} (hc : c.Alone w n)
    (h : c.writeAll (as.map Assignment.toWrite) = .error f) : f.kind = .outOfRange := by
  induction as generalizing c with
  | nil => cases h
  | cons a as ih =>
    rw [List.map_cons, Computer.writeAll, List.foldlM_cons] at h
    rcases bind_eq_error h with first | ⟨d, first, rest⟩
    · obtain ⟨m, -, -, rfl⟩ := hc
      rw [perform_write_alone] at first
      cases outcome : m.memory.write a.toWrite.1 a.toWrite.2 with
      | ok memory =>
        rw [outcome] at first
        cases first
      | error g =>
        rw [outcome] at first
        cases first
        rcases Memory.write_eq_error.mp outcome with _ | ⟨-, value⟩
        · rfl
        · exact absurd rfl (value a.value)
    · have one : c.writeAll [a.toWrite] = .ok d := by
        rw [Computer.writeAll, List.foldlM_cons, first]
        rfl
      exact ih (hc.writeAll one) rest

theorem Program.ofEntries_eq_error {m : Memory} {is : List Instruction} {delay : Value}
    (h : ofEntries m (.list (is.map .instruction)) delay = .error f) : f.kind = .outOfRange := by
  have read := Instruction.ofEntries_instructions is
  rcases bind_eq_error h with unread | ⟨is', read', h⟩
  · rw [read] at unread
    cases unread
  rcases bind_eq_error h with checked | ⟨_, -, h⟩
  · obtain ⟨i, -, refused⟩ := forM_eq_error checked
    obtain ⟨a, -, -, rfl⟩ := checkAddress_eq_error.mp refused
    rfl
  · cases h

theorem fitted_eq_error (h : fitted wordSize memorySize as source = .error f) :
    f.isMachineFault = true ∨ f.Roomless := by
  have addressed (h : f.kind = .outOfRange) : f.isMachineFault = true := by
    rw [Fault.isMachineFault, h]
  rcases bind_eq_error h with made | ⟨c, made, h⟩
  · exact ofSizes_eq_error made
  obtain ⟨w, n, -, unwatched⟩ := ofSizes_eq_ok made
  rcases bind_eq_error h with written | ⟨d, -, h⟩
  · exact .inl (addressed (unwatched.writeAll_eq_error written))
  rcases bind_eq_error h with read | ⟨is, -, h⟩
  · obtain ⟨before, line, after, cause, -, -, ⟨-, refused⟩, rfl⟩ :=
      Assembler.readLines_eq_error.mp read
    refine .inl ?_
    rcases (Assembler.readInstruction_eq_error refused).2 with kind | ⟨kind, -⟩ <;>
      rw [Fault.isMachineFault, Fault.kind, kind]
  rcases bind_eq_error h with checked | ⟨p, -, h⟩
  · exact .inl (addressed (Program.ofEntries_eq_error checked))
  · cases h

end

/-! ### Alike -/

/-- The command line and the workbench set up the same machine and the same program, which differ
in the delay and in who watches, or they are refused alike. A refusal by the machine is told in the
same words, if it can be worded; where there is no room, neither has anything to tell. -/
inductive SetAlike (o : CommandLine.Options) (source memoryInit : String)
    (wordSize memorySize : Int) : Prop
  | ready {c : Computer} {s : Workbench.Session} {p : Program} :
      CommandLine.setUp o = .ok c →
      Workbench.Session.setUp source memoryInit (.int wordSize) (.int memorySize) = .ok s →
      c.machine = s.computer.machine → c.programs = [p] →
      s.computer.programs = [{ p with
        stepDelay := .float Program.defaultDelay
        watchers := [Workbench.Session.panels] }] →
      SetAlike o source memoryInit wordSize memorySize
  | told {f : Fault} : f.isMachineFault = true → f.isWritable = true →
      CommandLine.setUp o = .error f →
      Workbench.Session.setUp source memoryInit (.int wordSize) (.int memorySize) = .error f →
      (∀ interrupt, CommandLine.run o interrupt = .ok ⟨1, [.line ("Error: " ++ f.message)]⟩) →
      Workbench.Session.load source memoryInit (.int wordSize) (.int memorySize) =
        .ok (Workbench.Session.noViews ("Error: " ++ f.message), none) →
      SetAlike o source memoryInit wordSize memorySize
  | wordless {f : Fault} : f.isMachineFault = true → f.isWritable = false →
      CommandLine.setUp o = .error f →
      Workbench.Session.setUp source memoryInit (.int wordSize) (.int memorySize) = .error f →
      (∀ interrupt, CommandLine.run o interrupt = .error .longNumber) →
      Workbench.Session.load source memoryInit (.int wordSize) (.int memorySize) =
        .ok (Workbench.Session.noViews ("Error: " ++ Fault.longNumber.message), none) →
      SetAlike o source memoryInit wordSize memorySize
  | roomless {f : Fault} : f.Roomless →
      (∀ interrupt, CommandLine.run o interrupt = .error f) →
      Workbench.Session.load source memoryInit (.int wordSize) (.int memorySize) = .error f →
      SetAlike o source memoryInit wordSize memorySize

theorem CommandLine.run_refused {o : Options} {f : Fault} (h : setUp o = .error f)
    (interrupt : Option Nat) : run o interrupt = refused "Error: " [] f := by
  rw [run, h]

theorem Workbench.Session.load_refused {source memoryInit : String} {wordSize memorySize : Value}
    {f : Fault} (h : setUp source memoryInit wordSize memorySize = .error f) :
    load source memoryInit wordSize memorySize =
      if f.reported.isMachineFault || f.reported.kind = .invalidValue then
        .ok (noViews (refusal f), none)
      else .error f := by
  rw [load, h]

theorem SetAlike.of_error {o : CommandLine.Options} {source memoryInit : String}
    {wordSize memorySize : Int} {f : Fault} (hline : CommandLine.setUp o = .error f)
    (hbench : Workbench.Session.setUp source memoryInit (.int wordSize) (.int memorySize) =
      .error f)
    (hf : f.isMachineFault = true ∨ f.Roomless) :
    SetAlike o source memoryInit wordSize memorySize := by
  have run := CommandLine.run_refused hline
  have load := Workbench.Session.load_refused hbench
  rcases hf with machine | roomless
  · cases writable : f.isWritable with
    | true =>
      have reported : f.reported = f := Fault.reported_of_writable writable
      refine .told machine writable hline hbench (fun interrupt => ?_) ?_
      · rw [run, CommandLine.refused, reported]
        exact if_pos machine
      · rw [load, reported, machine, Workbench.Session.refusal, reported]
        rfl
    | false =>
      have reported : f.reported = .longNumber := if_neg (by simp [writable])
      refine .wordless machine writable hline hbench (fun interrupt => ?_) ?_
      · rw [run, CommandLine.refused, reported]
        rfl
      · rw [load, reported, Workbench.Session.refusal, reported]
        rfl
  · have reported : f.reported = f := Fault.reported_of_writable roomless.writable
    have other : f.isMachineFault = false ∧ f.kind ≠ .invalidValue := by
      rcases roomless.kind with kind | kind <;> simp [Fault.isMachineFault, kind]
    refine .roomless roomless (fun interrupt => ?_) ?_
    · rw [run, CommandLine.refused, reported]
      exact if_neg (by simp [other.1])
    · rw [load, reported]
      exact if_neg (by simp [other])

namespace Assignment

variable {texts : List (List Char)} {memoryInit : String}

/-! ### An address in hexadecimal -/

theorem hexadecimal_plain {n : Nat} {c : Char} (h : c ∈ Nat.toDigits 16 n) :
    c ≠ ';' ∧ c.toLower = c := by
  obtain ⟨d, hd, rfl⟩ := Number.mem_toDigits (by decide) h
  have all : ∀ d < 16, Nat.digitChar d ≠ ';' ∧ (Nat.digitChar d).toLower = Nat.digitChar d := by
    decide
  exact all d hd

theorem plain_hexadecimal (n : Nat) :
    ';' ∉ ("load 0x" ++ String.ofList (Nat.toDigits 16 n)).toList := by
  simp only [String.toList_append, String.toList_ofList, List.mem_append, not_or]
  exact ⟨by decide, fun hc => (hexadecimal_plain hc).1 rfl⟩

theorem parseProgram_hexadecimal (n : Nat) :
    Assembler.parseProgram ("load 0x" ++ String.ofList (Nat.toDigits 16 n)) =
      .ok [⟨.load, some n⟩] := by
  have text : ("load 0x" ++ String.ofList (Nat.toDigits 16 n)).toList =
      [] ++ (Operation.load.mnemonic.toList ++ ([' '] ++ '0' :: 'x' :: Nat.toDigits 16 n)) ++
        [] ++ [] := by
    simp [Operation.mnemonic]
  have spelled : Assembler.Spelling ⟨.load, some n⟩
      (Operation.load.mnemonic.toList ++ ([' '] ++ '0' :: 'x' :: Nat.toDigits 16 n)) :=
    .bare (.mnemonic .load) (by simp [Assembler.Gap]) (by simp) <| .hexadecimal (.inl rfl)
      ⟨0, _, rfl, (List.map_congr_left fun c hc => (hexadecimal_plain hc).2).trans (List.map_id' _)⟩
  have listing : Assembler.Listing [⟨.load, some n⟩]
      ["load 0x" ++ String.ofList (Nat.toDigits 16 n)] :=
    .instruction text .nil spelled .nil .plain .done
  simpa using listing.parseProgram_eq

theorem fitted_beyond {source : String} {n : Nat}
    (hread : Assembler.parseProgram source = .ok [⟨.load, some n⟩])
    (h : 4 ≤ n) : fitted 8 4 [] source = .error (.badAddress (.int n) 4) := by
  have sized : ofSizes (.int 8) (.int 4) .standard = .ok (idle (.zeros 8 4) .standard) := rfl
  have refused : Program.checkAddress (.zeros 8 4) ⟨.load, some n⟩ =
      .error (.badAddress (.int n) 4) := Program.checkAddress_eq_error.mpr ⟨n, rfl, h, rfl⟩
  have checked : Program.ofEntries (.zeros 8 4) (.list [.instruction ⟨.load, some n⟩]) .none =
      .error (.badAddress (.int n) 4) := by
    show (Program.checkAddress (.zeros 8 4) ⟨.load, some n⟩ >>= fun _ => _) >>= _ = _
    rw [refused]
    rfl
  rw [fitted, sized, hread]
  show Program.ofEntries (.zeros 8 4) (.list [.instruction ⟨.load, some n⟩]) .none >>= _ = _
  rw [checked]
  rfl

/-! ### Both of them -/

/-- What is written as a list of texts, in whatever way they are joined, is read as the assignments
that the texts are, and only if all of them are; so what is printed is read back. And whatever the
program and the sizes are, the assignments set up the same at the workbench and, one by one, on the
command line. -/
theorem front_ends_alike (hitems : ∀ t ∈ texts, IsItem t) (h : Joined texts memoryInit.toList) :
    (∀ as, parseList memoryInit = .ok as ↔
      List.Forall₂ (fun t a => parse (String.ofList t) = .ok a) texts as) ∧
    ((∃ as, parseList memoryInit = .ok as) ↔
      ∀ t ∈ texts, ∃ a, parse (String.ofList t) = .ok a) ∧
    (∀ as : List Assignment, (∀ a ∈ as, a.IsShort) →
      ∀ printout : String, Joined (as.map printed) printout.toList →
        parseList printout = .ok as) ∧
    ∀ as, List.Forall₂ (fun t a => parse (String.ofList t) = .ok a) texts as →
      ∀ (o : CommandLine.Options) (source : String) (wordSize memorySize : Int),
        o.inline = some source → o.wordSize = some wordSize → o.memorySize = some memorySize →
        o.assignments = as.map some → ';' ∉ source.toList →
          SetAlike o source memoryInit wordSize memorySize := by
  refine ⟨fun as => parseList_iff hitems h, ?_, fun as hshort printout hprintout => ?_, ?_⟩
  · simp only [parseList_iff hitems h]
    clear h hitems
    induction texts with
    | nil => simp
    | cons t texts ih =>
      rw [List.forall_mem_cons, ← ih]
      constructor
      · rintro ⟨_, _ | ⟨first, rest⟩⟩
        exact ⟨⟨_, first⟩, _, rest⟩
      · rintro ⟨⟨a, first⟩, as, rest⟩
        exact ⟨a :: as, .cons first rest⟩
  · refine (parseList_iff (fun t ht => ?_) hprintout).mpr ?_
    · obtain ⟨a, -, rfl⟩ := List.mem_map.mp ht
      exact isItem_printed a
    · rw [List.forall₂_map_left_iff, List.forall₂_same]
      intro a ha
      rw [parse, String.toList_ofList]
      exact read_printed (hshort a ha)
  · intro as has o source wordSize memorySize hsource hw hn hassignments hplain
    have line := CommandLine.setUp_fitted hsource hw hn hassignments hplain
    have bench : Workbench.Session.setUp source memoryInit (.int wordSize) (.int memorySize) = _ :=
      Workbench.Session.setUp_fitted ((parseList_iff hitems h).mpr has)
    cases made : fitted wordSize memorySize as source with
    | error f =>
      rw [made] at line bench
      exact .of_error line bench (fitted_eq_error made)
    | ok result =>
      rw [made] at line bench
      exact .ready line bench rfl rfl rfl

/-- A list with blanks, a blank item and a comma at its end, and a machine of two cells. -/
theorem front_ends_alike_mixed :
    let texts := [" 0x1 =3".toList, "0=-1".toList]
    let memoryInit := " 0x1 =3,\t\n0=-1,"
    let as : List Assignment := [⟨1, 3⟩, ⟨0, -1⟩]
    let o : CommandLine.Options :=
      { inline := some "load 1\nadd 0"
        wordSize := some 4
        memorySize := some 2
        assignments := as.map some
        delay := some Program.defaultDelay }
    (∀ t ∈ texts, IsItem t) ∧ Joined texts memoryInit.toList ∧ parseList memoryInit = .ok as ∧
      parseList "1=3\n0=-1" = .ok as ∧ SetAlike o "load 1\nadd 0" memoryInit 4 2 := by
  intro texts memoryInit as o
  have hitems : ∀ t ∈ texts, IsItem t := List.forall_mem_cons.mpr
    ⟨⟨by simp, by simp, by simp [Text.isBlank], '=', by simp [Text.isBlank]⟩,
      List.forall_mem_singleton.mpr
        ⟨by simp, by simp, by simp [Text.isBlank], '=', by simp [Text.isBlank]⟩⟩
  have joined : Joined texts memoryInit.toList := by
    have list : memoryInit.toList =
        " 0x1 =3".toList ++ ',' :: (['\t'] ++ '\n' :: ("0=-1".toList ++ ',' :: [])) := by
      simp [memoryInit]
    rw [list]
    exact .next _ (.inl rfl) (.skip (by simp [Text.isBlank]) (.inr rfl)
      (.next _ (.inl rfl) (.nothing (by simp))))
  have read : List.Forall₂ (fun t a => parse (String.ofList t) = .ok a) texts as :=
    .cons rfl (.cons rfl .nil)
  obtain ⟨results, -, printed, alike⟩ := front_ends_alike hitems joined
  refine ⟨hitems, joined, (results as).mpr read, printed as (by decide +kernel) _ ?_,
    alike as read o _ 4 2 rfl rfl rfl rfl (by simp)⟩
  have list : "1=3\n0=-1".toList = "1=3".toList ++ '\n' :: "0=-1".toList := by simp
  rw [list]
  exact .next _ (.inr rfl) (.last _)

/-- The address of an instruction has one digit more than can be written: the workbench says so, and
the command line comes to no report. -/
theorem front_ends_differ_wordless :
    let source := "load 0x" ++ String.ofList (Nat.toDigits 16 Number.decimalBound)
    let o : CommandLine.Options :=
      { inline := some source
        wordSize := some 8
        memorySize := some 4
        delay := some Program.defaultDelay }
    (∃ f, CommandLine.run o none = .error f ∧ f.kind = .invalidValue) ∧
      ∃ views, Workbench.Session.load source "" (.int 8) (.int 4) = .ok (views, none) ∧
        views.status = "Error: " ++ Fault.longNumber.message := by
  intro source o
  have plain : ';' ∉ source.toList := plain_hexadecimal Number.decimalBound
  have made := fitted_beyond (parseProgram_hexadecimal Number.decimalBound) (by decide +kernel)
  have wordless : (Fault.badAddress (.int Number.decimalBound) 4).reported = .longNumber :=
    if_neg (by decide +kernel)
  have none : Assignment.parseList "" = .ok [] := rfl
  have inline : o.inline = some source := rfl
  have line := CommandLine.setUp_fitted inline rfl rfl (List.map_nil (f := some)).symm plain
  have bench : Workbench.Session.setUp source "" (.int 8) (.int 4) = _ :=
    Workbench.Session.setUp_fitted none
  rw [made] at line bench
  have shown : (Workbench.Session.noViews ("Error: " ++ Fault.longNumber.message)).status =
      "Error: " ++ Fault.longNumber.message := by decide +kernel
  refine ⟨⟨.longNumber, ?_, rfl⟩, _, ?_, shown⟩
  · rw [CommandLine.run_refused line, CommandLine.refused, wordless]
    rfl
  · rw [Workbench.Session.load_refused bench, Workbench.Session.refusal, wordless]
    rfl

end Assignment

end Accumulator
