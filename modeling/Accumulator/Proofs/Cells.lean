import Accumulator.Proofs.Hearing
import Accumulator.Proofs.Refusing
import Mathlib

/-! What the cells of a memory hold. A machine that is called directly changes its memory by writes
and by the operations that store, and by nothing else; so after any calls each cell holds the last
integer that was written to it, and zero if there was none, cut to a word. -/

namespace Accumulator

/-- The memory with integers in cells, one after the other. -/
def Memory.setAll (m : Memory) (writes : List (Nat × Int)) : Memory :=
  writes.foldl (fun m write => m.set write.1 write.2) m

/-- The calls on the machine itself and on its memory, and those that register subscribers. -/
def Command.IsDirect : Command → Prop
  | .decode _ | .execute | .operate _ | .dispatch _ | .write .. | .read _ | .validate _
  | .observe .. | .unobserve .. => True
  | _ => False

/-- What the circuits of a machine perform on a call. -/
def Command.circuit? (t : Dispatch) (m : Machine) : Command → Option Operation
  | .operate circuit => some circuit
  | .dispatch op => t.lookup op
  | .execute => m.registers.pending.bind t.lookup
  | _ => none

/-- The addresses and the integers that a call writes if it is accepted: those of a write, or the
address register and the accumulator if the call stores. -/
def Command.writes (t : Dispatch) (m : Machine) : Command → List (Nat × Int)
  | .write (.int k) (.int (.ofNat a)) => [(a, k)]
  | command =>
    if command.circuit? t m = some .store then [(m.registers.address, m.registers.accumulator)]
    else []

/-- What an accepted call makes of the machine. -/
def Machine.after (t : Dispatch) (m : Machine) : Command → Machine
  | .write (.int k) (.int (.ofNat a)) => (m.setMemory (m.memory.set a k)).refresh
  | .decode (.instruction i) => m.decoded i
  | .operate circuit => m.operated circuit
  | .dispatch op => (t.lookup op).elim m m.operated
  | .execute => m.executed t
  | _ => m

/-! ### Cells -/

namespace Memory

variable {m : Memory} {writes : List (Nat × Int)}

@[simp] theorem setAll_size (m : Memory) (writes : List (Nat × Int)) :
    (m.setAll writes).size = m.size := by
  induction writes generalizing m with
  | nil => rfl
  | cons write writes ih => exact (ih (m.set write.1 write.2)).trans (set_size m _ _)

@[simp] theorem setAll_wordSize (m : Memory) (writes : List (Nat × Int)) :
    (m.setAll writes).wordSize = m.wordSize := by
  induction writes generalizing m with
  | nil => rfl
  | cons write writes ih => exact ih (m.set write.1 write.2)

/-- The last integer written to a cell decides what it holds. -/
theorem cell_setAll (inside : ∀ write ∈ writes, write.1 < m.size) (x : Nat) :
    ((m.setAll writes).cell x : Int) =
      (writes.reverse.lookup x).elim (m.cell x : Int) fun k => k % (2 ^ m.wordSize : Nat) := by
  -- From the end: the last write decides on its own cell, and those before it on the others.
  induction writes using List.reverseRecOn with
  | nil => rfl
  | append_singleton writes write ih =>
    obtain ⟨a, k⟩ := write
    have earlier := ih fun write h => inside write (List.mem_append_left _ h)
    have last : (m.setAll (writes ++ [(a, k)])) = (m.setAll writes).set a k := by
      simp [setAll]
    rw [last, List.reverse_append, List.reverse_singleton, List.singleton_append]
    by_cases hx : a = x
    · subst hx
      have ha : a < (m.setAll writes).size := by
        simpa using inside (a, k) (by simp)
      simp [cell_set_self ha, Word.natCast_lowBits]
    · have other : (x == a) = false := by simpa using fun h : x = a => hx h.symm
      rw [cell_set_of_ne hx, earlier, List.lookup_cons, other]

end Memory

/-! ### What a call makes of the machine -/

namespace Machine

variable {w n : Nat} {t : Dispatch} {m : Machine}

theorem operated_memory (m : Machine) (circuit : Operation) :
    (m.operated circuit).memory = m.memory.setAll
      (if circuit = .store then [(m.registers.address, (m.registers.accumulator : Int))]
      else []) := by
  cases circuit <;> rfl

theorem writes_of_circuit {command : Command} {circuit : Operation}
    (h : command.circuit? t m = some circuit) : command.writes t m =
      if circuit = .store then [(m.registers.address, (m.registers.accumulator : Int))]
      else [] := by
  cases command with
  | operate | dispatch | execute => simp [Command.writes, h]
  | _ => cases h

/-- A call performs an operation, on the machine as it is or with nothing pending any more; or it
writes; or else it leaves the memory and the accumulator. -/
theorem after_cases (t : Dispatch) (m : Machine) (command : Command) :
    (∃ circuit, command.circuit? t m = some circuit ∧
      (m.after t command = m.operated circuit ∨ m.after t command = m.consume.operated circuit)) ∨
    (∃ (k : Int) (a : Nat), command = .write (.int k) (.int a)) ∨
    (command.circuit? t m = none ∧ command.writes t m = [] ∧
      (m.after t command).memory = m.memory ∧
      (m.after t command).registers.accumulator = m.registers.accumulator) := by
  cases command with
  | operate circuit => exact .inl ⟨circuit, rfl, .inl rfl⟩
  | dispatch op =>
    cases found : t.lookup op with
    | some circuit => exact .inl ⟨circuit, found, .inl (by simp [after, found])⟩
    | none => exact .inr (.inr (by simp [Command.circuit?, Command.writes, after, found]))
  | execute =>
    cases found : m.registers.pending.bind t.lookup with
    | some circuit =>
      obtain ⟨op, pending, entry⟩ := Option.bind_eq_some_iff.mp found
      exact .inl ⟨circuit, found, .inr (by simp [after, executed, pending, entry])⟩
    | none =>
      refine .inr (.inr ⟨found, by simp [Command.circuit?, Command.writes, found], ?_⟩)
      cases pending : m.registers.pending with
      | none => simp [after, executed, pending]
      | some op =>
        have missing : t.lookup op = none := by rwa [pending, Option.bind_some] at found
        simp [after, executed, pending, missing, consume]
  | decode v => cases v <;> exact .inr (.inr ⟨rfl, rfl, rfl, rfl⟩)
  | write value address =>
    cases value with
    | int k =>
      cases address with
      | int a =>
        cases a with
        | ofNat a => exact .inr (.inl ⟨k, a, rfl⟩)
        | negSucc a => exact .inr (.inr ⟨rfl, rfl, rfl, rfl⟩)
      | _ => exact .inr (.inr ⟨rfl, rfl, rfl, rfl⟩)
    | _ => exact .inr (.inr ⟨rfl, rfl, rfl, rfl⟩)
  | _ => exact .inr (.inr ⟨rfl, rfl, rfl, rfl⟩)

/-- What is written is all that a call changes in the memory. -/
theorem after_memory (t : Dispatch) (m : Machine) (command : Command) :
    (m.after t command).memory = m.memory.setAll (command.writes t m) := by
  rcases after_cases t m command with ⟨circuit, performs, eq⟩ | ⟨k, a, rfl⟩ | ⟨-, none, eq, -⟩
  · rw [writes_of_circuit performs]
    rcases eq with eq | eq
    · rw [eq, operated_memory]
    · rw [eq, operated_memory]
      rfl
  · rfl
  · rw [eq, none]
    rfl

/-- A call that changes the accumulator performs an operation, and not the one that stores. -/
theorem after_accumulator {command : Command}
    (h : (m.after t command).registers.accumulator ≠ m.registers.accumulator) :
    ∃ circuit ≠ .store, command.circuit? t m = some circuit := by
  rcases after_cases t m command with ⟨circuit, performs, eq⟩ | ⟨k, a, rfl⟩ | ⟨-, -, -, eq⟩
  · refine ⟨circuit, ?_, performs⟩
    rintro rfl
    rcases eq with eq | eq
    · exact h (congrArg (·.registers.accumulator) eq)
    · exact h (congrArg (·.registers.accumulator) eq)
  · exact absurd rfl h
  · exact absurd eq h

/-- A call that changes the memory is a write, or it performs the operation that stores. -/
theorem writes_or_stores {command : Command} (h : (m.after t command).memory ≠ m.memory) :
    (∃ value address, command = .write value address) ∨ command.circuit? t m = some .store := by
  rcases after_cases t m command with ⟨circuit, performs, -⟩ | ⟨k, a, rfl⟩ | ⟨-, -, eq, -⟩
  · by_cases stores : circuit = .store
    · exact .inr (stores ▸ performs)
    · rw [after_memory, writes_of_circuit performs, if_neg stores] at h
      exact absurd rfl h
  · exact .inl ⟨_, _, rfl⟩
  · exact absurd eq h

end Machine

namespace Computer

variable {w n : Nat} {t : Dispatch} {c : Computer}

/-- A call is refused and leaves the machine, or it makes of the machine what it is to make of
it. -/
inductive Obeys (c : Computer) (command : Command) : Prop
  | refused {fault : Fault} (outcome : (c.perform command).1 = .error fault)
      (machine : (c.perform command).2.machine = c.machine)
  | accepted {answer : Answer} (outcome : (c.perform command).1 = .ok answer)
      (machine : (c.perform command).2.machine = c.machine.after c.table command)

theorem Obeys.of_tells {command : Command} {routine : Routine PUnit} {d : Computer}
    {es : List Event}
    (hon : c.perform command = (routine >>= fun _ => pure Answer.nothing).on c)
    (h : routine.Tells c (.ok ()) d es) (hd : d.machine = c.machine.after c.table command) :
    c.Obeys command := by
  rw [Routine.on_bind_pure (fun _ => Answer.nothing)] at hon
  have outcome : (c.perform command).1 = .ok .nothing := by
    rw [hon, h.outcome]
    rfl
  refine .accepted outcome ?_
  rw [hon]
  exact h.state.machine.trans hd

theorem Obeys.of_refused {command : Command} {routine : Routine PUnit} {fault : Fault}
    (hon : c.perform command = (routine >>= fun _ => pure Answer.nothing).on c)
    (h : routine.on c = (.error fault, c)) : c.Obeys command := by
  rw [Routine.on_bind_pure (fun _ => Answer.nothing), h] at hon
  exact .refused (congrArg Prod.fst hon) (congrArg (·.2.machine) hon)

theorem Obeys.of_kept {command : Command} (machine : (c.perform command).2.machine = c.machine)
    (after : c.machine.after c.table command = c.machine) : c.Obeys command := by
  cases outcome : (c.perform command).1 with
  | error fault => exact .refused outcome machine
  | ok answer => exact .accepted outcome (machine.trans after.symm)

theorem Obeys.of_conclude {α : Type} {command : Command} {outcome : Except Fault α} {f : α → Answer}
    (hon : c.perform command = (Routine.conclude outcome >>= fun a => pure (f a)).on c)
    (after : c.machine.after c.table command = c.machine) : c.Obeys command := by
  rw [Routine.on_bind_pure, Routine.on_conclude] at hon
  exact .of_kept (congrArg (·.2.machine) hon) after

theorem obeys (hc : c.Attended w n t) {command : Command} (direct : command.IsDirect) :
    c.Obeys command := by
  cases command with
  | write value address =>
    cases written : c.machine.memory.write value address with
    | error fault => exact .of_refused rfl (Routine.write_refused written)
    | ok memory =>
      refine .of_tells rfl (Routine.write_tells hc written) ?_
      obtain ⟨a, k, rfl, rfl, -, rfl⟩ := Memory.write_eq_ok.mp written
      rfl
  | decode v =>
    cases checked : Routine.checkInstruction c v with
    | error fault => exact .of_refused rfl (Routine.decode_rejected checked)
    | ok i =>
      obtain ⟨rfl, accepts⟩ := Routine.checkInstruction_eq_ok.mp checked
      exact .of_tells rfl (Routine.decode_tells hc.recording accepts) rfl
  | execute =>
    cases decoded : c.machine.isDecoded with
    | false => exact .of_refused rfl (Routine.execute_refused decoded)
    | true =>
      refine .of_tells rfl (Routine.execute_tells hc decoded) ?_
      rw [hc.sound.table]
      rfl
  | operate circuit => exact .of_tells rfl (Routine.operate_tells hc circuit) rfl
  | dispatch op =>
    cases found : t.lookup op with
    | none => exact .of_refused rfl (Routine.dispatch_refused (hc.sound.table ▸ found))
    | some circuit =>
      refine .of_tells rfl (Routine.dispatch_tells hc found) ?_
      simp [Machine.after, hc.sound.table, found]
  | read address => exact .of_conclude (Routine.on_get_bind _ c) rfl
  | validate address => exact .of_conclude (Routine.on_get_bind _ c) rfl
  | observe source k =>
    refine .of_kept ?_ rfl
    rw [perform_observe_snd]
    cases shown : c.shown? source with
    | none => rw [observe_missing shown]
    | some notice =>
      have told : (Routine.observe (Routine.performWithin c.bound) source k).Tells c (.ok ()) _ _ :=
        Routine.observe_tells hc.recording shown k
      refine told.state.machine.trans ?_
      cases source <;> rfl
  | unobserve source k =>
    refine .of_kept ?_ rfl
    have hon : (c.perform (.unobserve source k)).2 = ((Routine.unobserve source k).on c).2 :=
      congrArg Prod.snd (Routine.on_bind_pure (fun _ => Answer.nothing) _ c)
    rw [hon]
    cases source with
    | program index =>
      have keeps : Routine.Keeps (fun d => d.machine = c.machine)
          (Routine.unobserve (.program index) k) :=
        Routine.Keeps.program_bind fun _ _ h _ => h
      exact keeps c rfl
    | _ => rfl
  | _ => cases direct

/-- What a call has written: nothing if it was refused. -/
def written (c : Computer) (command : Command) : List (Nat × Int) :=
  match (c.perform command).1 with
  | .ok _ => command.writes c.table c.machine
  | .error _ => []

/-- A write is accepted just if it is of an integer to a cell. -/
theorem write_accepted (hc : c.Attended w n t) {value address : Value} :
    (∃ answer, (c.perform (.write value address)).1 = .ok answer) ↔
      ∃ (k : Int) (a : Nat), value = .int k ∧ address = .int a ∧ a < n := by
  have hon : (c.perform (.write value address)).1 =
      ((Routine.write (Routine.performWithin c.bound) value address).on c).1.map
        fun _ => Answer.nothing :=
    congrArg Prod.fst (Routine.on_bind_pure (fun _ => Answer.nothing) _ c)
  rw [hon, ← hc.sound.machine.memory.size]
  constructor
  · rintro ⟨answer, accepted⟩
    cases written : c.machine.memory.write value address with
    | error fault =>
      rw [Routine.write_refused written] at accepted
      cases accepted
    | ok memory =>
      obtain ⟨a, k, rfl, rfl, inside, -⟩ := Memory.write_eq_ok.mp written
      exact ⟨k, a, rfl, rfl, inside⟩
  · rintro ⟨k, a, rfl, rfl, inside⟩
    have written := Memory.write_eq_ok.mpr ⟨a, k, rfl, rfl, inside, rfl⟩
    have told : (Routine.write (Routine.performWithin c.bound) _ _).Tells c (.ok ()) _ _ :=
      Routine.write_tells hc written
    exact ⟨.nothing, by rw [told.outcome]; rfl⟩

/-- What calls write to are cells. -/
theorem written_inside (hc : c.Attended w n t) (command : Command) :
    ∀ write ∈ c.written command, write.1 < n := by
  intro write hwrite
  unfold written at hwrite
  split at hwrite
  next answer accepted =>
    rcases c.machine.after_cases c.table command with ⟨circuit, performs, -⟩ | ⟨k, a, rfl⟩ |
      ⟨-, none, -⟩
    · rw [Machine.writes_of_circuit performs] at hwrite
      split at hwrite
      · obtain rfl := List.mem_singleton.mp hwrite
        exact hc.sound.machine.address
      · cases hwrite
    · obtain ⟨k', a', -, address, inside⟩ := (write_accepted hc).mp ⟨answer, accepted⟩
      obtain rfl : a = a' := by simpa using address
      obtain rfl : write = (a, k) := List.mem_singleton.mp hwrite
      exact inside
    · rw [none] at hwrite
      cases hwrite
  next => cases hwrite

theorem perform_memory (hc : c.Attended w n t) {command : Command} (direct : command.IsDirect) :
    (c.perform command).2.machine.memory = c.machine.memory.setAll (c.written command) := by
  cases obeys hc direct with
  | refused outcome machine =>
    rw [machine, written, outcome]
    rfl
  | accepted outcome machine => rw [machine, written, outcome, Machine.after_memory]

/-- After calls on the machine, the memory is what it was with all that they have written. -/
theorem performAll_memory (hn : 0 < n) (h : c.Reachable w n t Conduct.Records)
    {commands : List Command} (direct : ∀ command ∈ commands, command.IsDirect) :
    (c.performAll commands).machine.memory =
        c.machine.memory.setAll (c.along written commands) ∧
      ∀ write ∈ c.along written commands, write.1 < n := by
  induction commands generalizing c with
  | nil => exact ⟨rfl, by simp [along]⟩
  | cons command commands ih =>
    obtain ⟨first, rest⟩ := List.forall_mem_cons.mp direct
    obtain ⟨memory, inside⟩ := ih (h.call command) rest
    rw [along, Memory.setAll, List.foldl_append, List.forall_mem_append]
    refine ⟨?_, written_inside (h.attended hn) command, inside⟩
    rw [perform_memory (h.attended hn) first] at memory
    exact memory

/-- After any calls on a machine that begins with a memory of zeros, accepted or refused, each cell
holds the last integer that was written to it, or zero, as the remainder modulo `2 ^ w`. What is
written is what a write states, if it is an integer for a cell, and what an operation that stores
finds in the accumulator, in the cell that it finds in the address register. A refused call leaves
the machine; nothing else than writes and such operations changes the memory, and nothing else than
the other operations changes the accumulator. -/
theorem last_write_wins {w n : Nat} (hn : 0 < n) (t : Dispatch) {subscribers : List Subscriber}
    (recording : ∀ s ∈ subscribers, Conduct.Records s.react) (bound : Nat)
    {commands : List Command} (direct : ∀ command ∈ commands, command.IsDirect) :
    let start := { idle (.zeros w n) t with subscribers, bound }
    let c := start.performAll commands
    (∀ x, (c.machine.memory.cell x : Int) =
      ((start.along written commands).reverse.lookup x).getD 0 % (2 ^ w : Nat)) ∧
    (∀ value address, (∃ answer, (c.perform (.write value address)).1 = .ok answer) ↔
      ∃ (k : Int) (a : Nat), value = .int k ∧ address = .int a ∧ a < n) ∧
    ∀ command : Command, command.IsDirect →
      (∀ fault, (c.perform command).1 = .error fault →
        (c.perform command).2.machine = c.machine) ∧
      ((c.perform command).2.machine.memory ≠ c.machine.memory →
        (∃ value address, command = .write value address) ∨
          command.circuit? t c.machine = some .store) ∧
      ((c.perform command).2.machine.registers.accumulator ≠ c.machine.registers.accumulator →
        ∃ circuit ∈ [Operation.or, .and, .xor, .not, .lshift, .rshift, .load],
          command.circuit? t c.machine = some circuit) := by
  intro start c
  have begun : start.Reachable w n t Conduct.Records := .idle subscribers bound recording
  have hc := (begun.performAll commands).attended hn
  obtain ⟨memory, inside⟩ := performAll_memory hn begun direct
  refine ⟨fun x => ?_, fun value address => write_accepted hc, fun command direct => ⟨?_, ?_, ?_⟩⟩
  · have zeros : start.machine.memory.cell x = 0 := Memory.cell_zeros w n x
    have width : start.machine.memory.wordSize = w := rfl
    have cells : ∀ write ∈ start.along written commands, write.1 < start.machine.memory.size := by
      rw [begun.attended hn |>.sound.machine.memory.size]
      exact inside
    rw [memory, Memory.cell_setAll cells, zeros, width]
    cases (start.along written commands).reverse.lookup x with
    | none => exact (Int.zero_emod _).symm
    | some k => rfl
  · intro fault refused
    cases obeys hc direct with
    | refused _ machine => exact machine
    | accepted outcome _ => cases outcome.symm.trans refused
  · intro changed
    cases obeys hc direct with
    | refused _ machine => exact absurd (congrArg Machine.memory machine) changed
    | accepted _ machine =>
      rw [machine, hc.sound.table] at changed
      exact Machine.writes_or_stores changed
  · intro changed
    cases obeys hc direct with
    | refused _ machine => exact absurd (congrArg (·.registers.accumulator) machine) changed
    | accepted _ machine =>
      rw [machine, hc.sound.table] at changed
      obtain ⟨circuit, other, performs⟩ := Machine.after_accumulator changed
      exact ⟨circuit, by cases circuit <;> simp at other ⊢, performs⟩

/-- The last writes to two cells: an integer less than zero; and one that is too wide and a store of
what was loaded from the other cell, with a refused write between them. -/
theorem last_write_wins_stored :
    let start := { idle (.zeros 4 2) .standard with
      subscribers := [Subscriber.recorder], bound := 0 }
    let commands : List Command := [.observe .memory 0, .write (.int (-1)) (.int 1),
      .write (.int 300) (.int 0), .decode (.instruction ⟨.load, some 1⟩), .execute,
      .write (.int 5) (.int 7), .decode (.instruction ⟨.store, some 0⟩), .execute]
    start.along written commands = [(1, -1), (0, 300), (0, 15)] ∧
      ((start.performAll commands).machine.memory.cell 0 : Int) = 15 ∧
      ((start.performAll commands).machine.memory.cell 1 : Int) = 15 := by
  intro start commands
  have direct : ∀ command ∈ commands, command.IsDirect := by simp [commands, Command.IsDirect]
  have recording : ∀ s ∈ [Subscriber.recorder], Conduct.Records s.react :=
    List.forall_mem_singleton.mpr fun _ _ => rfl
  have writes : start.along written commands = [(1, -1), (0, 300), (0, 15)] := by decide +kernel
  have held := (last_write_wins (w := 4) (n := 2) (by decide) .standard recording 0 direct).1
  have begun : start = { idle (.zeros 4 2) .standard with
      subscribers := [Subscriber.recorder], bound := 0 } := rfl
  rw [← begun, writes] at held
  exact ⟨writes, (held 0).trans (by decide), (held 1).trans (by decide)⟩

end Computer

end Accumulator
