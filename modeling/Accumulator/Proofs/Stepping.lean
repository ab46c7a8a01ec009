import Accumulator.Proofs.Quiet
import Mathlib.Logic.Function.Iterate

/-! Steps of a program on a quiet computer. `Progress.next` is what one step makes of the program
and its machine; every step arrives there, whether its subscribers fail or not. -/

namespace Accumulator

/-- A machine and a program on it, as far as the program's steps change them. -/
structure Progress where
  machine : Machine
  instructions : List Instruction
  counter : Nat
  phase : Phase
  trace : List TraceEntry

/-- How far a program on a machine has come. -/
def Program.progress (p : Program) (m : Machine) : Progress where
  machine := m
  instructions := p.instructions
  counter := p.counter
  phase := p.phase
  trace := p.trace

/-- The program with the progress of another. -/
def Program.put (p : Program) (s : Progress) : Program :=
  { p with
    instructions := s.instructions
    counter := s.counter
    phase := s.phase
    trace := s.trace }

theorem Program.isComplete_eq (p : Program) : p.isComplete = !p.current?.isSome := by
  by_cases h : p.instructions.length ≤ p.counter
  · simp [isComplete, length, current?, h]
  · simp [isComplete, length, current?, h, Nat.lt_of_not_le h]

namespace Progress

def current? (s : Progress) : Option Instruction := s.instructions[s.counter]?

/-- The instruction at the counter has been fetched if the machine holds it. -/
def fetched (s : Progress) (i : Instruction) : Progress :=
  if s.machine.holds i then { s with phase := .decoded } else s

/-- The instruction at the counter is over, and what is pending has been executed. -/
def finished (t : Dispatch) (s : Progress) (i : Instruction) : Progress where
  machine := s.machine.executed t
  instructions := s.instructions
  counter := s.counter + 1
  phase := .fetch
  trace := s.trace ++ [⟨s.trace.length, s.counter, i, s.machine, s.machine.executed t⟩]

/-- The progress after one more step. -/
def next (t : Dispatch) (s : Progress) : Progress :=
  match s.current? with
  | none => s
  | some i =>
    match s.phase with
    | .fetch =>
      if s.machine.Accepts t i then fetched { s with machine := s.machine.decoded i } i
      else s.fetched i
    | .decoded => s.finished t i

/-- A step has a phase to go through: the machine accepts the instruction at the counter, or it has
decoded one. -/
def Ready (t : Dispatch) (s : Progress) (i : Instruction) : Prop :=
  match s.phase with
  | .fetch => s.machine.Accepts t i
  | .decoded => s.machine.isDecoded = true

variable {t : Dispatch} {s : Progress} {i : Instruction}

theorem next_complete (hi : s.current? = none) : s.next t = s := by
  rw [next, hi]

theorem next_accepted (hi : s.current? = some i) (hphase : s.phase = .fetch)
    (h : s.machine.Accepts t i) :
    s.next t = { s with machine := s.machine.decoded i, phase := .decoded } := by
  simp only [next, hi, hphase, if_pos h, fetched, if_pos (s.machine.decoded_holds i)]

theorem next_refused (hi : s.current? = some i) (hphase : s.phase = .fetch)
    (h : ¬ s.machine.Accepts t i) : s.next t = s.fetched i := by
  simp only [next, hi, hphase, if_neg h]

theorem next_decoded (hi : s.current? = some i) (hphase : s.phase = .decoded) :
    s.next t = s.finished t i := by
  simp only [next, hi, hphase]

/-- Only an execution is entered in the trace. -/
theorem next_trace (t : Dispatch) (s : Progress) : (s.next t).trace = s.trace ∨
    ∃ i, s.current? = some i ∧ s.phase = .decoded ∧ s.next t = s.finished t i := by
  cases hi : s.current? with
  | none => exact .inl (by rw [next_complete hi])
  | some i =>
    cases hphase : s.phase with
    | fetch =>
      refine .inl ?_
      by_cases haccepts : s.machine.Accepts t i
      · rw [next_accepted hi hphase haccepts]
      · rw [next_refused hi hphase haccepts, fetched]
        split <;> rfl
    | decoded => exact .inr ⟨i, rfl, rfl, next_decoded hi hphase⟩

/-- A step leaves a sound machine. -/
theorem next_sound {w n : Nat} (h : s.machine.Sound w n t) :
    (s.next t).machine.Sound w n t := by
  cases hi : s.current? with
  | none => rwa [next_complete hi]
  | some i =>
    cases hphase : s.phase with
    | fetch =>
      by_cases haccepts : s.machine.Accepts t i
      · rw [next_accepted hi hphase haccepts]
        exact h.decoded haccepts
      · rw [next_refused hi hphase haccepts, fetched]
        split <;> exact h
    | decoded =>
      rw [next_decoded hi hphase]
      exact h.executed

/-- The number of phases that the program has gone through: two for each instruction before the
counter, and one for an instruction that is decoded. -/
def gone (s : Progress) : Nat := 2 * s.counter + if s.phase = .decoded then 1 else 0

theorem gone_next (hi : s.current? = some i) (h : s.phase = .fetch → s.machine.Accepts t i) :
    (s.next t).gone = s.gone + 1 := by
  cases hphase : s.phase with
  | fetch =>
    rw [next_accepted hi hphase (h hphase)]
    simp [gone, hphase]
  | decoded =>
    rw [next_decoded hi hphase]
    simp only [gone, finished, hphase, reduceCtorEq, if_false, if_true]
    omega

theorem next_instructions (t : Dispatch) (s : Progress) :
    (s.next t).instructions = s.instructions := by
  unfold next fetched finished
  split
  · rfl
  · split
    · split <;> split <;> rfl
    · rfl

theorem instructions_iterate (t : Dispatch) (s : Progress) (k : Nat) :
    ((next t)^[k] s).instructions = s.instructions :=
  Function.Iterate.rec (fun s' : Progress => s'.instructions = s.instructions) rfl
    (fun s' h => (next_instructions t s').trans h) k

end Progress

namespace Computer

/-- The computer with another progress of a program and its machine. -/
def put (c : Computer) (index : Nat) (p : Program) (s : Progress) : Computer :=
  { c with machine := s.machine, programs := c.programs.set index (p.put s) }

theorem Noted.modifyProgram {c d : Computer} (h : c.Noted d) (index : Nat)
    (f : Program → Program) : { c with programs := c.programs.modify index f }.Noted
      { d with programs := d.programs.modify index f } := by
  obtain ⟨_, _, _, rfl, hr⟩ := h
  exact ⟨_, _, _, rfl, hr⟩

theorem modify_getElem? {ps : List Program} {index : Nat} {p : Program} (hp : ps[index]? = some p)
    (f : Program → Program) : (ps.modify index f)[index]? = some (f p) := by
  rw [List.getElem?_modify_eq, hp]
  rfl

theorem modify_eq_set {ps : List Program} {index : Nat} {p : Program} (hp : ps[index]? = some p)
    (f : Program → Program) : ps.modify index f = ps.set index (f p) := by
  apply List.ext_getElem?
  intro k
  rw [List.getElem?_modify, List.getElem?_set]
  obtain ⟨hlt, rfl⟩ := List.getElem?_eq_some_iff.mp hp
  by_cases hk : index = k
  · subst hk
    simp [hlt]
  · simp [hk]

theorem put_self {c : Computer} {index : Nat} {p : Program} (hp : c.programs[index]? = some p) :
    c.put index p (p.progress c.machine) = c := by
  have hset : c.programs.set index p = c.programs := by
    exact (modify_eq_set hp id).symm.trans (List.modify_id index c.programs)
  show { c with programs := c.programs.set index p } = c
  rw [hset]

end Computer

namespace Routine

open Computer

variable {call : Caller} {c : Computer} {w n : Nat} {t : Dispatch} {B : Conduct → Prop}
  {index : Nat} {i : Instruction}

theorem log_arrives (record : Record) (c : Computer) : (log record).Arrives c () c :=
  ⟨⟨_, _, _, rfl, rfl⟩, .inl rfl, fun _ => rfl, rfl⟩

theorem program_log_arrives {p : Program} (hp : c.programs[index]? = some p)
    (record : Program → Record) :
    (program index >>= fun p => log (record p)).Arrives c () c := by
  refine Arrives.of_on (log (record p)) c ?_ rfl (log_arrives _ c)
  rw [on_program_bind, hp]

/-- The program has fetched the instruction as soon as the machine has decoded it, whether a
subscriber fails then or not. -/
theorem fetchPhase_arrives (hc : c.Quiet) {p : Program} (hp : c.programs[index]? = some p)
    (hi : c.machine.Accepts c.table i) :
    (fetchPhase call index i).Arrives c ()
      { c with
        machine := c.machine.decoded i
        programs := c.programs.modify index fun p => { p with phase := .decoded } } := by
  refine Arrives.bind ((decode_arrives hc hi).ensuring (fun d hd => ?_) rfl) fun e he => ?_
  · have hholds : d.machine.holds i = true := by
      rw [hd.machine]
      exact c.machine.decoded_holds i
    rw [on_get_bind, if_pos hholds]
    exact ⟨rfl, hd.modifyProgram index _⟩
  · refine program_log_arrives (p := { p with phase := .decoded }) ?_
      fun p => .stepDecoded p.counter i
    rw [he.programs]
    exact modify_getElem? hp _

theorem executePhase_arrives (hc : c.Quiet) (hs : c.Sound w n t B) {p : Program}
    (hp : c.programs[index]? = some p) (h : c.machine.isDecoded = true) :
    (executePhase call index i).Arrives c ()
      { c with
        machine := c.machine.executed t
        programs := c.programs.modify index
          (·.advance i c.machine (c.machine.executed t)) } := by
  refine Arrives.of_on _ c (on_get_bind _ c) rfl ?_
  refine Arrives.bind ((execute_arrives hc hs h).ensuring (fun d hd => ?_) rfl) fun e he => ?_
  · have hidle : (!d.machine.isDecoded) = true := by
      rw [hd.machine, Machine.executed_isDecoded]
      rfl
    rw [on_get_bind]
    simp only [if_pos hidle]
    rw [hd.machine]
    exact ⟨rfl, hd.modifyProgram index _⟩
  · refine program_log_arrives (p := p.advance i c.machine (c.machine.executed t)) ?_
      fun p => .stepExecuted (p.counter - 1) i
    rw [he.programs]
    exact modify_getElem? hp _

theorem doPhase_arrives (hc : c.Quiet) (hs : c.Sound w n t B) {p : Program}
    (hp : c.programs[index]? = some p) (hi : p.current? = some i)
    (hready : (p.progress c.machine).Ready t i) :
    (doPhase call index i p.phase).Arrives c ()
      (c.put index p ((p.progress c.machine).next t)) := by
  have hcurrent : (p.progress c.machine).current? = some i := hi
  unfold Progress.Ready at hready
  cases hphase : p.phase with
  | fetch =>
    have hphase' : (p.progress c.machine).phase = .fetch := hphase
    simp only [hphase'] at hready
    have harrives : (fetchPhase call index i).Arrives c () _ :=
      fetchPhase_arrives hc hp (hs.table ▸ hready)
    rw [modify_eq_set hp] at harrives
    rw [Progress.next_accepted hcurrent hphase' hready]
    exact harrives
  | decoded =>
    have hphase' : (p.progress c.machine).phase = .decoded := hphase
    simp only [hphase'] at hready
    have harrives : (executePhase call index i).Arrives c () _ :=
      executePhase_arrives hc hs hp hready
    rw [modify_eq_set hp] at harrives
    rw [Progress.next_decoded hcurrent hphase']
    exact harrives

theorem decode_refused (hi : ¬ c.machine.Accepts c.table i) :
    ∃ fault, (decode call (.instruction i)).on c = (.error fault, c) := by
  rw [decode, on_get_bind, on_conclude_bind]
  cases hcheck : checkInstruction c (.instruction i) with
  | error fault => exact ⟨fault, rfl⟩
  | ok j =>
    obtain ⟨hj, haccepts⟩ := checkInstruction_eq_ok.mp hcheck
    cases hj
    exact absurd haccepts hi

theorem execute_refused (h : c.machine.isDecoded = false) :
    (execute call).on c = (.error .nothingDecoded, c) := by
  have hnone : c.machine.registers.pending = none := Option.isNone_iff_eq_none.mp (by
    simpa [Machine.isDecoded] using h)
  rw [execute, on_get_bind, hnone]
  rfl

/-- A phase that cannot be gone through is refused. What the program then makes of the machine as it
is, it makes of it all the same. -/
theorem doPhase_refused (ht : c.table = t) {p : Program} (hp : c.programs[index]? = some p)
    (hi : p.current? = some i) (hready : ¬ (p.progress c.machine).Ready t i) :
    ∃ fault, (doPhase call index i p.phase).on c =
      (.error fault, c.put index p ((p.progress c.machine).next t)) := by
  have hcurrent : (p.progress c.machine).current? = some i := hi
  unfold Progress.Ready at hready
  cases hphase : p.phase with
  | fetch =>
    have hphase' : (p.progress c.machine).phase = .fetch := hphase
    simp only [hphase'] at hready
    obtain ⟨fault, hdecode⟩ : ∃ fault, (decode call (.instruction i)).on c = (.error fault, c) :=
      decode_refused (ht ▸ hready)
    refine ⟨fault, ?_⟩
    rw [Progress.next_refused hcurrent hphase' hready, doPhase, fetchPhase, on_bind, on_ensuring,
      hdecode, on_get_bind, Progress.fetched]
    by_cases hholds : c.machine.holds i = true
    · have hholds' : (p.progress c.machine).machine.holds i = true := hholds
      rw [if_pos hholds, if_pos hholds']
      show (_, { c with programs := c.programs.modify index _ }) = _
      rw [modify_eq_set hp]
      rfl
    · have hholds' : ¬ (p.progress c.machine).machine.holds i = true := hholds
      rw [if_neg hholds, if_neg hholds', put_self hp]
      rfl
  | decoded =>
    have hphase' : (p.progress c.machine).phase = .decoded := hphase
    simp only [hphase'] at hready
    -- Nothing is pending, which is what the program looks for after an execution as well.
    have hidle : c.machine.isDecoded = false := by simpa [Program.progress] using hready
    have hfinished : (p.progress c.machine).finished t i =
        (p.advance i c.machine c.machine).progress c.machine := by
      show Progress.mk (c.machine.executed t) _ _ _ (_ ++ [⟨_, _, _, _, c.machine.executed t⟩]) = _
      rw [Machine.executed_idle hidle]
      rfl
    refine ⟨.nothingDecoded, ?_⟩
    rw [Progress.next_decoded hcurrent hphase', doPhase, executePhase, on_get_bind, on_bind,
      on_ensuring, execute_refused hidle, on_get_bind]
    simp only [hidle, Bool.not_false, if_true]
    show (_, { c with programs := c.programs.modify index _ }) = _
    rw [modify_eq_set hp, hfinished]
    rfl

/-- When the mark of being in a step is taken away, what is left of the step is its progress. -/
theorem put_stepping {p : Program} (hp : c.programs[index]? = some p)
    (hstepping : p.stepping = false) (s : Progress) :
    (setStepping index false).on
      ({ c with programs := c.programs.modify index fun p => { p with stepping := true } }.put index
        { p with stepping := true } s) = (.ok (), c.put index p s) := by
  have hlt := (List.getElem?_eq_some_iff.mp hp).1
  have hprograms : ((c.programs.modify index fun p => { p with stepping := true }).set index
      (Program.put { p with stepping := true } s)).modify index
        (fun p => { p with stepping := false }) = c.programs.set index (p.put s) := by
    rw [modify_eq_set hp, List.set_set, modify_eq_set (List.getElem?_set_self hlt), List.set_set]
    simp [Program.put, hstepping]
  exact congrArg (fun programs => ((.ok (), { c with machine := s.machine, programs }) :
    Except Fault Unit × Computer)) hprograms

/-- A step with an instruction at the counter. -/
theorem on_step {p : Program} (hp : c.programs[index]? = some p) (hstepping : p.stepping = false)
    (hi : p.current? = some i) : (step call index).on c = (do
      ensuring (doPhase call index i p.phase) (setStepping index false)
      notifyProgram call index
      return true : Routine Bool).on { c with
        programs := c.programs.modify index fun p => { p with stepping := true } } := by
  rw [step, on_program_bind, hp]
  simp only [hstepping, hi]
  rfl

/-- A step that has a phase to go through arrives at the next progress. -/
theorem step_arrives (hc : c.Quiet) (hs : c.Sound w n t B) {p : Program}
    (hp : c.programs[index]? = some p) (hstepping : p.stepping = false) (hi : p.current? = some i)
    (hready : (p.progress c.machine).Ready t i) :
    (step call index).Arrives c true (c.put index p ((p.progress c.machine).next t)) := by
  let d := { c with programs := c.programs.modify index fun p => { p with stepping := true } }
  have hd : d.Quiet := hc
  have hq := modify_getElem? hp fun p => { p with stepping := true }
  have hsound : d.Sound w n t B := hs.withPrograms _
  let q : Program := { p with stepping := true }
  have hphase : (doPhase call index i q.phase).Arrives d () _ :=
    doPhase_arrives hd hsound hq hi hready
  refine Arrives.of_on _ d (on_step hp hstepping hi) rfl ?_
  refine Arrives.bind (hphase.ensuring (fun d' hd' => ?_) rfl) fun f hf => ?_
  · have hnoted : ((setStepping index false).on (d.put index { p with stepping := true }
        ((p.progress c.machine).next t))).2.Noted ((setStepping index false).on d').2 :=
      hd'.modifyProgram index _
    rw [put_stepping hp hstepping] at hnoted
    exact ⟨rfl, hnoted⟩
  · have hput : f.programs[index]? = some (p.put ((p.progress c.machine).next t)) := by
      rw [hf.programs]
      exact List.getElem?_set_self (List.getElem?_eq_some_iff.mp hp).1
    exact (notifyProgram_arrives (hf.conduct hc) hput).bind fun g _ => .pure true g

theorem step_refused (ht : c.table = t) {p : Program} (hp : c.programs[index]? = some p)
    (hstepping : p.stepping = false) (hi : p.current? = some i)
    (hready : ¬ (p.progress c.machine).Ready t i) :
    ∃ fault, (step call index).on c =
      (.error fault, c.put index p ((p.progress c.machine).next t)) := by
  let d := { c with programs := c.programs.modify index fun p => { p with stepping := true } }
  have hq := modify_getElem? hp fun p => { p with stepping := true }
  let q : Program := { p with stepping := true }
  obtain ⟨fault, hphase⟩ : ∃ fault, (doPhase call index i q.phase).on d = (.error fault, d.put index
      q ((q.progress d.machine).next t)) := doPhase_refused (c := d) (p := q) ht hq hi hready
  refine ⟨fault, ?_⟩
  rw [on_step hp hstepping hi, on_bind, on_ensuring, hphase]
  simp only
  rw [put_stepping hp hstepping]
  rfl

theorem step_complete {p : Program} (hp : c.programs[index]? = some p)
    (hstepping : p.stepping = false) (hi : p.current? = none) :
    (step call index).on c = (.ok false, c) := by
  rw [step, on_program_bind, hp]
  simp only [hstepping, hi]
  rfl

end Routine

end Accumulator
