import Accumulator.Proofs.Driving

/-! Editing a program of a quiet computer. What a call asks for that can be added is in the program
then, at the place that is asked for, even if a subscriber fails when it is told; what cannot be
added is refused. The counter stays with the instruction that it points at. -/

namespace Accumulator

/-- A call adds an instruction to a program, if it is accepted. -/
def Command.Edits (index : Nat) : Command → Prop
  | .append i _ _ | .insert i _ _ _ => i = index
  | _ => False

/-- The place that a value states in a program of a length: that of an instruction, or the one
behind the last. -/
def Value.place? (length : Nat) : Value → Option Nat
  | .int (.ofNat n) => if n ≤ length then .some n else .none
  | _ => .none

theorem Value.place?_eq_some {length n : Nat} {v : Value} :
    v.place? length = some n ↔ v = .int n ∧ n ≤ length := by
  unfold Value.place?
  split
  · rename_i k
    simp only [Option.ite_none_right_eq_some, Option.some.injEq, Value.int.injEq]
    constructor
    · rintro ⟨hle, rfl⟩
      exact ⟨rfl, hle⟩
    · rintro ⟨hk, hle⟩
      obtain rfl : k = n := Int.ofNat.inj hk
      exact ⟨hle, rfl⟩
  · rename_i hne
    exact ⟨nofun, fun h => absurd h.1 (hne n)⟩

/-- The instruction that a name and arguments stand for, if its address is a cell of the memory. -/
def Instruction.fitting? (memory : Memory) (name args : Value) : Option Instruction :=
  (ofNameOrInstruction name args).toOption.filter fun i => i.address.all (· < memory.size)

/-- What a call asks a program to add, and where, if the program is of a length at which it can be
added. It is added then, whoever fails when told of it. -/
def Command.addition? (index : Nat) (memory : Memory) (length : Nat) :
    Command → Option (Nat × Instruction)
  | .append i name args =>
    if i = index then (Instruction.fitting? memory name args).map (length, ·) else none
  | .insert i name args position =>
    if i = index then do
      let n ← position.place? length
      (Instruction.fitting? memory name args).map (n, ·)
    else none
  | _ => none

namespace Progress

/-- An instruction that is inserted at a place is behind the counter: it is before the instruction
at the counter, or takes its place while that one is decoded. -/
def passed (s : Progress) (n : Nat) : Bool :=
  n < s.counter || (n = s.counter && s.phase = .decoded)

def insertAt (s : Progress) (n : Nat) (i : Instruction) : Progress :=
  { s with
    instructions := s.instructions.insertIdx n i
    counter := if s.passed n then s.counter + 1 else s.counter }

/-- The progress with what a call adds, if it adds anything. -/
def adding (s : Progress) : Option (Nat × Instruction) → Progress
  | some (n, i) => s.insertAt n i
  | none => s

/-- The counter stays with the instruction that it points at, wherever an insertion moves that. -/
theorem current?_insertAt {s : Progress} {k : Nat} (hk : s.phase = .decoded ∨ k ≠ s.counter)
    (i : Instruction) : (s.insertAt k i).current? = s.current? := by
  show (s.instructions.insertIdx k i)[if s.passed k then s.counter + 1 else s.counter]? = _
  by_cases hpassed : s.passed k = true
  · have hle : k < s.counter + 1 := by
      simp only [passed, Bool.or_eq_true, Bool.and_eq_true, decide_eq_true_eq] at hpassed
      omega
    rw [if_pos hpassed, List.getElem?_insertIdx_of_gt hle]
    rfl
  · have hlt : s.counter < k := by
      simp only [passed, Bool.or_eq_true, Bool.and_eq_true, decide_eq_true_eq] at hpassed
      rcases hk with hphase | hk
      · simp only [hphase, and_true] at hpassed
        omega
      · omega
    rw [if_neg hpassed, List.getElem?_insertIdx_of_lt hlt]
    rfl

/-- What holds between calls of a program that alone makes its machine decode and execute: it has
decoded an instruction exactly when the machine has, and then the machine holds the instruction at
the counter. -/
structure Consistent (s : Progress) : Prop where
  decoded : s.phase = .decoded ↔ s.machine.isDecoded = true
  held : s.phase = .decoded → ∃ i, s.current? = some i ∧ s.machine.holds i = true

namespace Consistent

variable {s : Progress}

theorem next (h : s.Consistent) (t : Dispatch) : (s.next t).Consistent := by
  cases hi : s.current? with
  | none => rwa [next_complete hi]
  | some i =>
    cases hphase : s.phase with
    | fetch =>
      by_cases haccepts : s.machine.Accepts t i
      · rw [next_accepted hi hphase haccepts]
        have hholds := s.machine.decoded_holds i
        exact ⟨⟨fun _ => (Machine.holds_iff.mp hholds).1, fun _ => rfl⟩, fun _ => ⟨i, hi, hholds⟩⟩
      · -- The program has decoded nothing, and so the machine holds nothing either.
        have hidle : ¬ s.machine.holds i = true := fun hholds => by
          have := h.decoded.mpr (Machine.holds_iff.mp hholds).1
          rw [hphase] at this
          cases this
        rwa [next_refused hi hphase haccepts, fetched, if_neg hidle]
    | decoded =>
      rw [next_decoded hi hphase]
      have hidle := s.machine.executed_isDecoded t
      refine ⟨⟨fun hdecoded => ?_, fun hdecoded => ?_⟩, fun hdecoded => ?_⟩
      · cases hdecoded
      · exact absurd (hidle.symm.trans hdecoded) (by decide)
      · cases hdecoded

theorem iterate (h : s.Consistent) (t : Dispatch) (k : Nat) :
    ((Progress.next t)^[k] s).Consistent :=
  Function.Iterate.rec Consistent h (fun _ h => h.next t) k

/-- The counter stays with the instruction that is decoded. -/
theorem insertAt (h : s.Consistent) (n : Nat) (i : Instruction) : (s.insertAt n i).Consistent := by
  refine ⟨h.decoded, fun hdecoded => ?_⟩
  have hphase : s.phase = .decoded := hdecoded
  obtain ⟨j, hj, hholds⟩ := h.held hphase
  exact ⟨j, (current?_insertAt (.inl hphase) i).trans hj, hholds⟩

theorem adding (h : s.Consistent) (asked : Option (Nat × Instruction)) :
    (s.adding asked).Consistent := by
  cases asked with
  | none => exact h
  | some place => exact h.insertAt place.1 place.2

end Consistent

end Progress

namespace Routine

open Computer

variable {call : Caller} {c : Computer} {index : Nat}

/-- What is inserted and where, if the position, the instruction and its address are accepted, which
are looked at in this order. -/
def insertion (c : Computer) (p : Program) (name args position : Value) :
    Except Fault (Nat × Instruction) := do
  let n ← p.position position
  let i ← Instruction.ofNameOrInstruction name args
  Program.checkAddress c.machine.memory i
  return (n, i)

theorem on_insertion {p : Program} (hp : c.programs[index]? = some p)
    (name args position : Value) :
    (insert call index name args position).on c =
      match insertion c p name args position with
      | .error fault => (.error fault, c)
      | .ok (n, i) => (notifyProgram call index >>= fun _ => pure i).on
          { c with programs := c.programs.modify index (·.insertAt n i) } := by
  rw [insert, on_program_bind, hp]
  simp only
  rw [on_conclude_bind]
  cases hposition : p.position position with
  | error fault => simp only [insertion, hposition, bind, Except.bind]
  | ok n =>
    simp only
    rw [on_conclude_bind]
    cases hname : Instruction.ofNameOrInstruction name args with
    | error fault => simp only [insertion, hposition, hname, bind, Except.bind]
    | ok i =>
      simp only
      rw [on_get_bind, on_conclude_bind]
      cases hcheck : Program.checkAddress c.machine.memory i with
      | error fault => simp only [insertion, hposition, hname, hcheck, bind, Except.bind]
      | ok u =>
        simp only [insertion, hposition, hname, hcheck, bind, Except.bind, pure, Except.pure]
        rfl

theorem insert_refused {p : Program} (hp : c.programs[index]? = some p)
    {name args position : Value} {fault : Fault}
    (h : insertion c p name args position = .error fault) :
    (insert call index name args position).on c = (.error fault, c) := by
  rw [on_insertion hp, h]

theorem insertion_position {p : Program} {name args position : Value} {n : Nat} {i : Instruction}
    (h : insertion c p name args position = .ok (n, i)) : p.position position = .ok n := by
  unfold insertion at h
  cases hn : p.position position with
  | error fault =>
    rw [hn] at h
    cases h
  | ok m =>
    rw [hn] at h
    cases hi : Instruction.ofNameOrInstruction name args with
    | error fault =>
      rw [hi] at h
      cases h
    | ok j =>
      rw [hi] at h
      cases hcheck : Program.checkAddress c.machine.memory j with
      | error fault =>
        simp only [hcheck, bind, Except.bind] at h
        cases h
      | ok u =>
        simp only [hcheck, bind, Except.bind, pure, Except.pure] at h
        cases h
        rfl

/-- The insertion is accepted if what is asked for can be added. -/
theorem insertion_toOption (index : Nat) (c : Computer) (p : Program)
    (name args position : Value) :
    (insertion c p name args position).toOption =
      (Command.insert index name args position).addition? index c.machine.memory p.length := by
  have hplace : position.place? p.length = (p.position position).toOption := by
    cases position with
    | int k =>
      cases k with
      | ofNat n =>
        rw [Program.position, apply_ite Except.toOption]
        rfl
      | negSucc n => rfl
    | _ => rfl
  simp only [Command.addition?, if_true, hplace, Instruction.fitting?, insertion]
  cases p.position position with
  | error fault => rfl
  | ok n =>
    cases Instruction.ofNameOrInstruction name args with
    | error fault => rfl
    | ok i =>
      cases hcheck : Program.checkAddress c.machine.memory i with
      | error fault =>
        have hlarge : i.address.all (· < c.machine.memory.size) = false := by
          rw [Bool.eq_false_iff]
          intro hall
          have hfits : Program.checkAddress c.machine.memory i = .ok () :=
            Program.checkAddress_eq_ok.mpr fun a ha => by simpa [ha] using hall
          rw [hcheck] at hfits
          cases hfits
        simp [bind, Except.bind, Except.toOption, hcheck, hlarge]
      | ok u =>
        have hfits : i.address.all (· < c.machine.memory.size) = true := by
          have hsmall := Program.checkAddress_eq_ok.mp hcheck
          cases ha : i.address with
          | none => rfl
          | some a => simpa using hsmall a ha
        simp [bind, Except.bind, pure, Except.pure, Except.toOption, hcheck, hfits]

theorem insert_arrives (hc : c.Quiet) {p : Program} (hp : c.programs[index]? = some p)
    {name args position : Value} {n : Nat} {i : Instruction}
    (h : insertion c p name args position = .ok (n, i)) :
    (insert call index name args position).Arrives c i
      { c with programs := c.programs.modify index (·.insertAt n i) } := by
  let d := { c with programs := c.programs.modify index (·.insertAt n i) }
  have hd : d.Quiet := hc
  refine Arrives.of_on (notifyProgram call index >>= fun _ => pure i) d ?_ rfl ?_
  · rw [on_insertion hp, h]
  · exact (notifyProgram_arrives hd (modify_getElem? hp (·.insertAt n i))).bind
      fun e _ => .pure i e

end Routine

theorem Program.position_eq_ok {p : Program} {v : Value} {n : Nat} (h : p.position v = .ok n) :
    v = .int n ∧ n ≤ p.length := by
  refine ⟨?_, Program.position_le h⟩
  unfold Program.position at h
  split at h
  · split at h
    · cases h
      rfl
    · cases h
  · cases h

namespace Computer

variable {w n : Nat} {t : Dispatch} {index first : Nat} {s : Progress} {c : Computer}

/-- A call that edits a program is an insertion into it. -/
theorem perform_edit {p : Program} (hp : c.programs[index]? = some p) {command : Command}
    (hedits : command.Edits index) : ∃ name args position,
      c.perform command =
        (((Routine.insert (Routine.performWithin c.bound) index name args position).on c).1.map
            .instruction,
          ((Routine.insert (Routine.performWithin c.bound) index name args position).on c).2) ∧
      (Routine.insertion c p name args position).toOption =
        command.addition? index c.machine.memory p.length := by
  cases command with
  | insert j name args position =>
    obtain rfl : j = index := hedits
    refine ⟨name, args, position, Routine.on_bind_pure _ _ c, ?_⟩
    exact Routine.insertion_toOption j c p name args position
  | append j name args =>
    obtain rfl : j = index := hedits
    refine ⟨name, args, .int p.length, (Routine.on_bind_pure Answer.instruction _ c).trans ?_, ?_⟩
    · rw [Routine.append, Routine.on_program_bind, hp]
    · rw [Routine.insertion_toOption j c p name args (.int p.length)]
      simp [Command.addition?, Value.place?]
  | _ => exact hedits.elim

/-- What a program answers to a call that edits it. What can be added is answered, unless a
subscriber fails, and what cannot be added is refused, which changes nothing. -/
structure Replies (c : Computer) (index : Nat) (p : Program) (command : Command) : Prop where
  accepted : ∀ n i, command.addition? index c.machine.memory p.length = some (n, i) →
    ((c.perform command).1 = .ok (.instruction i) ∨ ∃ fault, (c.perform command).1 = .error fault) ∧
      (c.Recording → (c.perform command).1 = .ok (.instruction i))
  refused : command.addition? index c.machine.memory p.length = none →
    ∃ fault, c.perform command = (.error fault, c)

theorem replies (hc : c.Quiet) {p : Program} (hp : c.programs[index]? = some p) {command : Command}
    (hedits : command.Edits index) : c.Replies index p command := by
  obtain ⟨name, args, position, hon, haddition⟩ := perform_edit hp hedits
  cases hinsertion : Routine.insertion c p name args position with
  | error fault =>
    rw [hinsertion] at haddition
    refine ⟨fun k i hasked => ?_, fun _ => ⟨fault, ?_⟩⟩
    · cases haddition.trans hasked
    · rw [hon, Routine.insert_refused hp hinsertion]
      rfl
  | ok inserted =>
    rw [hinsertion] at haddition
    refine ⟨fun k i hasked => ?_, fun hrefused => ?_⟩
    · obtain rfl : inserted = (k, i) := Option.some.inj (haddition.trans hasked)
      have harrives : (Routine.insert (Routine.performWithin c.bound) index name args
          position).Arrives c i _ := Routine.insert_arrives hc hp hinsertion
      rw [hon]
      refine ⟨harrives.answer.imp (congrArg (Except.map _)) fun ⟨fault, hfault⟩ => ⟨fault, ?_⟩,
        fun hrecording => congrArg (Except.map _) (harrives.recorded hrecording)⟩
      exact congrArg (Except.map Answer.instruction) hfault
    · cases haddition.trans hrefused

/-- What can be added is added at one of the places that the program has. -/
theorem addition?_le {memory : Memory} {length k : Nat} {i : Instruction} {command : Command}
    (h : command.addition? index memory length = some (k, i)) : k ≤ length := by
  cases command with
  | insert j name args position =>
    rw [Command.addition?, Option.ite_none_right_eq_some] at h
    obtain ⟨n, hplace, hadd⟩ := Option.bind_eq_some_iff.mp h.2
    obtain ⟨j, -, heq⟩ := Option.map_eq_some_iff.mp hadd
    obtain rfl : n = k := (Prod.mk.inj heq).1
    exact (Value.place?_eq_some.mp hplace).2
  | append j name args =>
    rw [Command.addition?, Option.ite_none_right_eq_some] at h
    obtain ⟨j, -, heq⟩ := Option.map_eq_some_iff.mp h.2
    exact (Prod.mk.inj heq).1.ge
  | _ => cases h

/-- A call that edits a program puts in it what it asks for, if that can be added, and nothing
else. -/
theorem Driven.edit (h : c.Driven w n t index first (· = s)) {command : Command}
    (hedits : command.Edits index) : (c.perform command).2.Driven w n t index first
      (· = s.adding (command.addition? index s.machine.memory s.instructions.length)) := by
  obtain ⟨p, hp, hstepping, rfl⟩ := h.program
  obtain ⟨name, args, position, hon, haddition⟩ := perform_edit hp hedits
  have hsound := Sound.invariant.perform h.sound command
  rw [hon] at hsound ⊢
  show Driven w n t index first
    (· = (p.progress c.machine).adding (command.addition? index c.machine.memory p.length)) _
  rw [← haddition]
  cases hinsertion : Routine.insertion c p name args position with
  | error fault =>
    rw [Routine.insert_refused hp hinsertion]
    exact h
  | ok inserted =>
    obtain ⟨k, i⟩ := inserted
    have harrives : (Routine.insert (Routine.performWithin c.bound) index name args
        position).Arrives c i _ := Routine.insert_arrives h.sound.conduct hp hinsertion
    rw [modify_eq_set hp] at harrives
    exact h.put (s := (p.progress c.machine).insertAt k i) hp hstepping rfl harrives.state hsound

end Computer

end Accumulator
