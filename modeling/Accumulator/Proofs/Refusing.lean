import Accumulator.Proofs.Announcing
import Mathlib

/-! Why calls are refused, and what a refused call leaves. What a call is given is looked at in a
fixed order, before anything is changed or anybody is told; so a refused call leaves the computer as
it was. A fault is of the sort that its cause calls for, unless its message would show a number that
cannot be written. -/

namespace Accumulator

/-- The value is the address of a cell. -/
def Memory.HasCell (m : Memory) (v : Value) : Prop := ∃ a : Nat, v = .int a ∧ a < m.size

/-- The value is the position of an instruction, or the one behind the last. -/
def Program.HasPosition (p : Program) (v : Value) : Prop := ∃ n : Nat, v = .int n ∧ n ≤ p.length

/-- Why a cell is not read. -/
inductive ReadFault (m : Memory) (address : Value) : Fault → Prop
  | address : ¬ m.HasCell address → ReadFault m address (.badAddress address m.size)

/-- Why a value is not written: the address comes first. -/
inductive WriteFault (m : Memory) (value address : Value) : Fault → Prop
  | address : ¬ m.HasCell address → WriteFault m value address (.badAddress address m.size)
  | value : m.HasCell address → (∀ n, value ≠ .int n) →
      WriteFault m value address (.notNumber .integer .memoryValue value)

/-- Why a value is not decoded: it is no instruction, or its operation has no entry in the table, or
its address is that of no cell. -/
inductive DecodeFault (t : Dispatch) (m : Memory) : Value → Fault → Prop
  | instruction {v : Value} : (∀ i, v ≠ .instruction i) → DecodeFault t m v (.notInstruction v)
  | operation {i : Instruction} : t.contains i.operation = false →
      DecodeFault t m (.instruction i) (.unsupported i.operation)
  | address {i : Instruction} {a : Nat} : t.contains i.operation = true → i.address = some a →
      m.size ≤ a → DecodeFault t m (.instruction i) (.badAddress (.int a) m.size)

/-- Why nothing is executed. -/
inductive ExecuteFault (m : Machine) : Fault → Prop
  | pending : m.registers.pending = none → ExecuteFault m .nothingDecoded

/-- Why nothing is performed for a value: it cannot be looked up, or there is no entry under it. -/
inductive DispatchFault (t : Dispatch) (key : Value) : Fault → Prop
  | key : key.isKey = false → DispatchFault t key (.notKey key)
  | entry : key.isKey = true → (∀ op, Operation.ofKey? key = some op → t.contains op = false) →
      DispatchFault t key (.unknownName key)

/-- Why nothing is inserted into a program: the position comes first, and the address last. -/
inductive InsertFault (m : Memory) (p : Program) (name args position : Value) : Fault → Prop
  | position : ¬ p.HasPosition position →
      InsertFault m p name args position (.badPosition position p.length)
  | instruction {fault : Fault} : p.HasPosition position →
      Instruction.ofNameOrInstruction name args = .error fault →
      InsertFault m p name args position fault
  | address {i : Instruction} {a : Nat} : p.HasPosition position →
      Instruction.ofNameOrInstruction name args = .ok i → i.address = some a → m.size ≤ a →
      InsertFault m p name args position (.badAddress (.int a) m.size)

/-- Why a program is not played. -/
inductive PlayFault (p : Program) : Fault → Prop
  | complete : p.length ≤ p.counter → PlayFault p .programComplete
  | playing : p.counter < p.length → p.playing = true → PlayFault p .alreadyPlaying

namespace Memory

variable {m : Memory} {value v : Value} {a : Nat} {f : Fault}

theorem address_of_lt (h : a < m.size) : m.address (.int a) = .ok a := by
  rw [address_natCast, if_pos h]

theorem not_hasCell_of_le (h : m.size ≤ a) : ¬ m.HasCell (.int a) := by
  rintro ⟨b, hb, hlt⟩
  obtain rfl : a = b := Int.ofNat.inj (Value.int.inj hb)
  omega

theorem address_of_not (h : ¬ m.HasCell v) : m.address v = .error (.badAddress v m.size) := by
  unfold address
  split
  · rename_i a
    exact if_neg fun ha => h ⟨a, rfl, ha⟩
  · rfl

theorem address_eq_error : m.address v = .error f ↔ ReadFault m v f := by
  constructor
  · intro h
    by_cases hcell : m.HasCell v
    · obtain ⟨a, rfl, ha⟩ := hcell
      rw [address_of_lt ha] at h
      cases h
    · rw [address_of_not hcell] at h
      cases h
      exact .address hcell
  · rintro ⟨hcell⟩
    exact address_of_not hcell

theorem read_eq_error : m.read v = .error f ↔ ReadFault m v f := by
  rw [← address_eq_error, read]
  cases m.address v with
  | error g => exact Iff.rfl
  | ok a => exact ⟨nofun, nofun⟩

theorem integer_of_not {q : Quantity} (h : ∀ n, v ≠ .int n) :
    q.integer v = .error (.notNumber .integer q v) := by
  cases v with
  | int n => exact absurd rfl (h n)
  | _ => rfl

theorem write_eq_error : m.write value v = .error f ↔ WriteFault m value v f := by
  by_cases hcell : m.HasCell v
  · have hcell' := hcell
    obtain ⟨a, rfl, ha⟩ := hcell'
    have hwrite : m.write value (.int a) =
        (Quantity.memoryValue.integer value).map fun n => m.set a n := by
      simp only [write, address_of_lt ha, bind, Except.bind, pure, Except.pure, Except.map]
    rw [hwrite]
    by_cases hvalue : ∃ n, value = .int n
    · obtain ⟨n, rfl⟩ := hvalue
      constructor
      · intro h
        cases h
      · rintro (h | ⟨-, h⟩)
        · exact absurd hcell h
        · exact absurd rfl (h n)
    · have hnot : ∀ n, value ≠ .int n := fun n hn => hvalue ⟨n, hn⟩
      rw [integer_of_not hnot]
      constructor
      · rintro ⟨⟩
        exact .value hcell hnot
      · rintro (h | ⟨-, -⟩)
        · exact absurd hcell h
        · rfl
  · have hwrite : m.write value v = .error (.badAddress v m.size) := by
      rw [write, address_of_not hcell]
      rfl
    rw [hwrite]
    constructor
    · rintro ⟨⟩
      exact .address hcell
    · rintro (- | ⟨h, -⟩)
      · rfl
      · exact absurd h hcell

end Memory

theorem Program.checkAddress_eq_error {m : Memory} {i : Instruction} {f : Fault} :
    Program.checkAddress m i = .error f ↔
      ∃ a, i.address = some a ∧ m.size ≤ a ∧ f = .badAddress (.int a) m.size := by
  unfold Program.checkAddress
  cases i.address with
  | none => simp
  | some a =>
    simp only [Memory.address_natCast, Option.some.injEq]
    by_cases ha : a < m.size
    · simp [ha, Except.map]
    · simp [ha, Except.map, eq_comm, Nat.le_of_not_lt ha]

namespace Routine

open Computer

variable {α β : Type}

theorem checkInstruction_eq_error {c : Computer} {v : Value} {f : Fault} :
    checkInstruction c v = .error f ↔ DecodeFault c.table c.machine.memory v f := by
  by_cases hinstruction : ∃ i, v = .instruction i
  · obtain ⟨i, rfl⟩ := hinstruction
    cases htable : c.table.contains i.operation with
    | false =>
      simp only [checkInstruction, htable, Bool.false_eq_true, if_false, Except.error.injEq]
      constructor
      · rintro rfl
        exact .operation htable
      · rintro (h | - | ⟨h, -⟩)
        · exact absurd rfl (h i)
        · rfl
        · rw [htable] at h
          cases h
    | true =>
      have hmap : checkInstruction c (.instruction i) =
          (Program.checkAddress c.machine.memory i).map fun _ => i := by
        simp only [checkInstruction, htable, if_true]
      rw [hmap, map_eq_error, Program.checkAddress_eq_error]
      constructor
      · rintro ⟨a, ha, hle, rfl⟩
        exact .address htable ha hle
      · rintro (h | h | ⟨-, ha, hle⟩)
        · exact absurd rfl (h i)
        · rw [htable] at h
          cases h
        · exact ⟨_, ha, hle, rfl⟩
  · have hnot : ∀ i, v ≠ .instruction i := fun i hi => hinstruction ⟨i, hi⟩
    have hcheck : checkInstruction c v = .error (.notInstruction v) := by
      cases v with
      | instruction i => exact absurd rfl (hnot i)
      | _ => rfl
    rw [hcheck]
    constructor
    · rintro ⟨⟩
      exact .instruction hnot
    · rintro (- | - | -)
      · rfl
      · exact absurd rfl (hnot _)
      · exact absurd rfl (hnot _)

/-- The routine is refused with the faults in `F` and no others, and then nothing has changed. -/
structure Refuses (routine : Routine α) (c : Computer) (F : Fault → Prop) : Prop where
  fault : ∀ f, (routine.on c).1 = .error f ↔ F f
  unchanged : ∀ f, (routine.on c).1 = .error f → (routine.on c).2 = c

namespace Refuses

variable {routine : Routine α} {c : Computer} {F : Fault → Prop}

theorem refused {f : Fault} (h : routine.on c = (.error f, c)) (hF : ∀ g, f = g ↔ F g) :
    routine.Refuses c F := by
  refine ⟨fun g => ?_, fun _ _ => by rw [h]⟩
  rw [h, ← hF, Except.error.injEq]

theorem answered {a : α} (h : (routine.on c).1 = .ok a) (hF : ∀ f, ¬ F f) :
    routine.Refuses c F := by
  refine ⟨fun g => ?_, fun g hg => ?_⟩
  · rw [h]
    exact ⟨nofun, fun hg => absurd hg (hF g)⟩
  · rw [h] at hg
    cases hg

/-- The outcome of a check decides. -/
theorem of_check (check : Except Fault β) (hF : ∀ f, check = .error f ↔ F f)
    (herror : ∀ f, check = .error f → routine.on c = (.error f, c))
    (hok : ∀ b, check = .ok b → ∃ a, (routine.on c).1 = .ok a) : routine.Refuses c F := by
  cases hcheck : check with
  | error f =>
    refine .refused (herror f hcheck) fun g => ?_
    rw [← hF, hcheck, Except.error.injEq]
  | ok b =>
    obtain ⟨a, ha⟩ := hok b hcheck
    refine .answered ha fun f hf => ?_
    rw [← hF, hcheck] at hf
    cases hf

theorem map (f : α → β) (h : routine.Refuses c F) :
    (routine >>= fun a => pure (f a)).Refuses c F := by
  have hon : (routine >>= fun a => pure (f a)).on c = _ := on_bind_pure f routine c
  constructor <;> intro g <;> rw [hon, map_eq_error]
  · exact h.fault g
  · exact h.unchanged g

end Refuses

variable {call : Caller} {c : Computer} {w n : Nat} {t : Dispatch} {index : Nat} {p : Program}

theorem read_refuses (c : Computer) (address : Value) :
    (perform call (.read address)).Refuses c (ReadFault c.machine.memory address) := by
  have hon : (perform call (.read address)).on c =
      (conclude (c.machine.memory.read address) >>= fun a => pure (Answer.number a)).on c :=
    on_get_bind _ c
  refine .of_check _ (fun _ => Memory.read_eq_error) (fun f hf => ?_) fun a ha => ⟨.number a, ?_⟩
  · rw [hon, on_conclude_bind, hf]
  · rw [hon, on_conclude_bind, ha]
    rfl

theorem write_refuses (hc : c.Attended w n t) (value address : Value) :
    (perform call (.write value address)).Refuses c
      (WriteFault c.machine.memory value address) := by
  refine .map _ (.of_check (c.machine.memory.write value address)
    (fun _ => Memory.write_eq_error) (fun _ hf => write_refused hf) fun memory hm => ⟨(), ?_⟩)
  exact (write_tells hc hm).outcome

theorem decode_refuses (hr : c.Recording) (v : Value) :
    (perform call (.decode v)).Refuses c (DecodeFault c.table c.machine.memory v) := by
  refine .map _ (.of_check (checkInstruction c v)
    (fun _ => checkInstruction_eq_error) (fun _ hf => decode_rejected hf) fun i hi => ⟨(), ?_⟩)
  obtain ⟨rfl, haccepts⟩ := checkInstruction_eq_ok.mp hi
  exact (decode_tells hr haccepts).outcome

theorem execute_refuses (hc : c.Attended w n t) :
    (perform call .execute).Refuses c (ExecuteFault c.machine) := by
  refine .map _ ?_
  cases hdecoded : c.machine.isDecoded with
  | false =>
    refine .refused (execute_refused hdecoded) fun g => ⟨?_, fun ⟨_⟩ => rfl⟩
    rintro rfl
    exact .pending (Option.isNone_iff_eq_none.mp (by simpa [Machine.isDecoded] using hdecoded))
  | true =>
    refine .answered (execute_tells hc hdecoded).outcome fun f ⟨hnone⟩ => ?_
    simp [Machine.isDecoded, hnone] at hdecoded

theorem dispatchValue_refuses (hc : c.Attended w n t) (key : Value) :
    (dispatchValue call key).Refuses c (DispatchFault t key) := by
  cases hkey : key.isKey with
  | false =>
    refine .refused (f := .notKey key) ?_ fun g => ⟨?_, ?_⟩
    · rw [dispatchValue, hkey]
      rfl
    · rintro rfl
      exact .key hkey
    · rintro (- | ⟨h, -⟩)
      · rfl
      · rw [hkey] at h
        cases h
  | true =>
    cases hcircuit : (Operation.ofKey? key).bind t.lookup with
    | some circuit =>
      obtain ⟨op, hop, hlookup⟩ := Option.bind_eq_some_iff.mp hcircuit
      have hon : (dispatchValue call key).on c = (operate call circuit).on c := by
        rw [dispatchValue, hkey, if_pos rfl, on_get_bind]
        simp only [hc.sound.table, hcircuit]
      refine .answered (a := ()) ?_ ?_
      · rw [hon]
        exact (operate_tells hc circuit).outcome
      · rintro f (h | ⟨-, h⟩)
        · rw [hkey] at h
          cases h
        · have := h op hop
          simp [Dispatch.contains, hlookup] at this
    | none =>
      refine .refused (f := .unknownName key) ?_ fun g => ⟨?_, ?_⟩
      · rw [dispatchValue, hkey, if_pos rfl, on_get_bind]
        simp only [hc.sound.table, hcircuit]
        exact on_throw c _
      · rintro rfl
        refine .entry hkey fun op hop => ?_
        have hlookup : t.lookup op = none := by rwa [hop] at hcircuit
        simp [Dispatch.contains, hlookup]
      · rintro (h | -)
        · rw [hkey] at h
          cases h
        · rfl

theorem position_of_not {v : Value} (h : ¬ p.HasPosition v) :
    p.position v = .error (.badPosition v p.length) := by
  unfold Program.position
  split
  · rename_i a
    exact if_neg fun ha => h ⟨a, rfl, ha⟩
  · rfl

theorem insertion_eq_error {name args position : Value} {f : Fault} :
    insertion c p name args position = .error f ↔
      InsertFault c.machine.memory p name args position f := by
  by_cases hposition : p.HasPosition position
  · have hposition' := hposition
    obtain ⟨n, rfl, hn⟩ := hposition'
    have hok : p.position (.int n) = .ok n := if_pos hn
    cases hi : Instruction.ofNameOrInstruction name args with
    | error fault =>
      have hinsertion : insertion c p name args (.int n) = .error fault := by
        simp only [insertion, hok, hi, bind, Except.bind]
      rw [hinsertion]
      constructor
      · rintro ⟨⟩
        exact .instruction hposition hi
      · rintro (h | ⟨-, h⟩ | ⟨-, h, -⟩)
        · exact absurd hposition h
        · obtain rfl := Except.error.inj (hi.symm.trans h)
          rfl
        · rw [hi] at h
          cases h
    | ok i =>
      have hinsertion : insertion c p name args (.int n) =
          (Program.checkAddress c.machine.memory i).map fun _ => (n, i) := by
        simp only [insertion, hok, hi, bind, Except.bind, pure, Except.pure, Except.map]
      rw [hinsertion, map_eq_error, Program.checkAddress_eq_error]
      constructor
      · rintro ⟨a, ha, hle, rfl⟩
        exact .address hposition hi ha hle
      · rintro (h | ⟨-, h⟩ | ⟨-, h, ha, hle⟩)
        · exact absurd hposition h
        · rw [hi] at h
          cases h
        · obtain rfl := Except.ok.inj (hi.symm.trans h)
          exact ⟨_, ha, hle, rfl⟩
  · have hinsertion : insertion c p name args position =
        .error (.badPosition position p.length) := by
      simp only [insertion, position_of_not hposition, bind, Except.bind]
    rw [hinsertion]
    constructor
    · rintro ⟨⟩
      exact .position hposition
    · rintro (- | ⟨h, -⟩ | ⟨h, -⟩)
      · rfl
      · exact absurd h hposition
      · exact absurd h hposition

theorem insert_refuses (hr : c.Recording) (hp : c.programs[index]? = some p)
    (name args position : Value) : (perform call (.insert index name args position)).Refuses c
      (InsertFault c.machine.memory p name args position) := by
  refine .map _ (.of_check (insertion c p name args position) (fun _ => insertion_eq_error)
    (fun _ hf => insert_refused hp hf) fun inserted h => ⟨inserted.2, ?_⟩)
  exact (insert_tells hr hp h).outcome

theorem append_refuses (hr : c.Recording) (hp : c.programs[index]? = some p)
    (name args : Value) : (perform call (.append index name args)).Refuses c
      (InsertFault c.machine.memory p name args (.int p.length)) := by
  have hon : (perform call (.append index name args)).on c =
      (perform call (.insert index name args (.int p.length))).on c := by
    have happend : (append call index name args).on c =
        (insert call index name args (.int p.length)).on c := by
      rw [append, on_program_bind, hp]
    exact (on_bind_pure _ _ c).trans (by rw [happend]; exact (on_bind_pure _ _ c).symm)
  have hinsert : (perform call (.insert index name args (.int p.length))).Refuses c _ :=
    insert_refuses hr hp name args _
  constructor <;> intro f <;> rw [hon]
  · exact hinsert.fault f
  · exact hinsert.unchanged f

theorem play_refuses (hr : c.Recording) (hp : c.programs[index]? = some p) (delay : Value) :
    (perform call (.play index delay)).Refuses c (PlayFault p) := by
  refine .map _ ?_
  cases hcomplete : p.isComplete with
  | true =>
    have hle : p.length ≤ p.counter := of_decide_eq_true hcomplete
    refine .refused (play_complete hp hcomplete delay) fun g => ⟨?_, ?_⟩
    · rintro rfl
      exact .complete hle
    · rintro (- | ⟨hlt, -⟩)
      · rfl
      · omega
  | false =>
    have hlt : p.counter < p.length := Nat.lt_of_not_le (of_decide_eq_false hcomplete)
    cases hplaying : p.playing with
    | true =>
      refine .refused (play_again hp hcomplete hplaying delay) fun g => ⟨?_, ?_⟩
      · rintro rfl
        exact .playing hlt hplaying
      · rintro (hle | -)
        · omega
        · rfl
    | false =>
      refine .answered (play_tells hr hp hcomplete hplaying delay).outcome ?_
      rintro f (hle | ⟨-, h⟩)
      · omega
      · rw [hplaying] at h
        cases h

theorem observe_answers (hr : c.Recording) {source : Source} {notice : Notice}
    (hs : c.shown? source = some notice) (k : Nat) :
    (perform call (.observe source k)).Refuses c fun _ => False :=
  .map _ (.answered (observe_tells hr hs k).outcome fun _ h => h)

end Routine

namespace Computer

variable {w n : Nat} {t : Dispatch} {c : Computer}

/-- A call is refused with the faults in `F` and no others, and then the computer is as before. -/
abbrev Refuses (c : Computer) (command : Command) (F : Fault → Prop) : Prop :=
  (Routine.perform (Routine.performWithin c.bound) command).Refuses c F

/-- What each call is given is looked at before anything is changed or anybody is told. Of a write
that is refused the sort is stated as well, for what can be written in a message. -/
structure Validates (t : Dispatch) (c : Computer) : Prop where
  read : ∀ address, c.Refuses (.read address) (ReadFault c.machine.memory address)
  write : ∀ value address,
    c.Refuses (.write value address) (WriteFault c.machine.memory value address)
  address_sort : ∀ value address f, (c.perform (.write value address)).1 = .error f →
    ¬ c.machine.memory.HasCell address → address.isWritable = true →
    f.reported.kind = .outOfRange
  value_sort : ∀ value address f, (c.perform (.write value address)).1 = .error f →
    c.machine.memory.HasCell address → value.isWritable = true →
    f.reported.kind = .invalidArgument
  decode : ∀ v, c.Refuses (.decode v) (DecodeFault t c.machine.memory v)
  execute : c.Refuses .execute (ExecuteFault c.machine)
  dispatch : ∀ key, (Routine.dispatchValue (Routine.performWithin c.bound) key).Refuses c
    (DispatchFault t key)
  append : ∀ (index : Nat) (p : Program), c.programs[index]? = some p → ∀ name args,
    c.Refuses (.append index name args)
      (InsertFault c.machine.memory p name args (.int p.length))
  insert : ∀ (index : Nat) (p : Program), c.programs[index]? = some p → ∀ name args position,
    c.Refuses (.insert index name args position)
      (InsertFault c.machine.memory p name args position)
  play : ∀ (index : Nat) (p : Program), c.programs[index]? = some p → ∀ delay,
    c.Refuses (.play index delay) (PlayFault p)
  observe : ∀ source notice, c.shown? source = some notice → ∀ k,
    c.Refuses (.observe source k) fun _ => False
  observeValue : ∀ source value,
    c.Refuses (.observeValue source value) (· = .notCallable value)

theorem Validates.of_attended (hc : c.Attended w n t) : c.Validates t := by
  have hr := hc.recording
  have hwrite (value address : Value) : c.Refuses (.write value address)
      (WriteFault c.machine.memory value address) := Routine.write_refuses hc value address
  exact {
    read := Routine.read_refuses c
    write := hwrite
    address_sort := fun value address f hf hcell hwritable => by
      rcases ((hwrite value address).fault f).mp hf with - | ⟨h, -⟩
      · have hfault : (Fault.badAddress address c.machine.memory.size).isWritable = true :=
          hwritable
        rw [Fault.reported_of_writable hfault]
        rfl
      · exact absurd h hcell
    value_sort := fun value address f hf hcell hwritable => by
      rcases ((hwrite value address).fault f).mp hf with h | -
      · exact absurd hcell h
      · have hfault : (Fault.notNumber .integer .memoryValue value).isWritable = true :=
          hwritable
        rw [Fault.reported_of_writable hfault]
        rfl
    decode := fun v => hc.sound.table ▸ Routine.decode_refuses hr v
    execute := Routine.execute_refuses hc
    dispatch := Routine.dispatchValue_refuses hc
    append := fun _ _ hp => Routine.append_refuses hr hp
    insert := fun _ _ hp => Routine.insert_refuses hr hp
    play := fun _ _ hp => Routine.play_refuses hr hp
    observe := fun _ _ hs => Routine.observe_answers hr hs
    observeValue := fun source value =>
      .refused (Routine.on_throw c (.notCallable value)) fun _ => eq_comm }

/-- Validation comes before any change: whatever a call is given, it is refused for what it is given
only, and then the computer is as it was before, with every subscriber, event and trace. -/
theorem validation_before_change (hn : 0 < n) (h : c.Reachable w n t Conduct.Records) :
    c.Validates t :=
  .of_attended (h.attended hn)

/-- In the midst of an instruction, with a subscriber registered, an insertion at an address behind
the last cell and a play of a program that is playing are refused. -/
theorem validation_before_change_playing :
    let p : Program :=
      { instructions := [⟨.not, none⟩, ⟨.store, some 1⟩], stepDelay := .none }
    let c := ({ idle (.zeros 4 2) .standard with subscribers := [.recorder] }.addProgram
      p).performAll [.observe (.program 0) 0, .play 0 .none, .step 0]
    let insertion : Command := .insert 0 (.text " Load") (.list [.int 2]) (.int 0)
    c.perform insertion = (.error (.badAddress (.int 2) 2), c) ∧
      c.perform (.play 0 .none) = (.error .alreadyPlaying, c) := by
  intro p c insertion
  have hrecords : ∀ s ∈ [Subscriber.recorder], Conduct.Records s.react :=
    List.forall_mem_singleton.mpr fun _ _ => rfl
  have hbuild : Program.ofEntries (.zeros 4 2)
      (.list [.instruction ⟨.not, none⟩, .instruction ⟨.store, some 1⟩]) .none = .ok p := rfl
  have hreach : c.Reachable 4 2 .standard Conduct.Records :=
    .performAll (.build _ _ (.idle [.recorder] 0 hrecords) hbuild) _
  have hc := validation_before_change (by decide) hreach
  let q : Program :=
    { p with phase := .decoded, playing := true, run := 1, watchers := [0] }
  have hq : c.programs[0]? = some q := by cbv
  have hinsertion := hc.insert 0 q hq (.text " Load") (.list [.int 2]) (.int 0)
  have hplay := hc.play 0 q hq .none
  have hposition : q.HasPosition (.int 0) := ⟨0, rfl, Nat.zero_le _⟩
  have haddress := (hinsertion.fault _).mpr
    (.address (i := ⟨.load, some 2⟩) hposition (by cbv) rfl (by decide))
  have hplaying := (hplay.fault _).mpr (.playing (by decide) rfl)
  exact ⟨Prod.ext haddress (hinsertion.unchanged _ haddress),
    Prod.ext hplaying (hplay.unchanged _ hplaying)⟩

/-- An address that has too many digits to be written is refused with a fault of another sort. -/
theorem write_unwritable (hc : c.Attended w n t) {a : Nat} (hsize : c.machine.memory.size ≤ a)
    (ha : Number.isWritable a = false) (value : Value) :
    ∃ f, (c.perform (.write value (.int a))).1 = .error f ∧ f.reported.kind = .invalidValue := by
  have hcell := Memory.not_hasCell_of_le hsize
  refine ⟨_, ((Routine.write_refuses hc value (.int a)).fault _).mpr (.address hcell), ?_⟩
  have hfault : (Fault.badAddress (.int a) c.machine.memory.size).isWritable = false := ha
  rw [Fault.reported, hfault]
  rfl

/-- So is the least number that cannot be written, on a machine at rest. -/
theorem write_unwritable_bound :
    let c := idle (.zeros 4 2) .standard
    c.Reachable 4 2 .standard Conduct.Records ∧
      ¬ c.machine.memory.HasCell (.int Number.decimalBound) ∧
      ∃ f, (c.perform (.write (.int 1) (.int Number.decimalBound))).1 = .error f ∧
        f.reported.kind ≠ .outOfRange := by
  intro c
  have hreach : c.Reachable 4 2 .standard Conduct.Records := .idle [] 0 nofun
  have hsize : c.machine.memory.size ≤ Number.decimalBound := by decide +kernel
  obtain ⟨f, hf, hkind⟩ := write_unwritable (hreach.attended (by decide)) hsize
    (decide_eq_false (Nat.lt_irrefl _)) (.int 1)
  exact ⟨hreach, Memory.not_hasCell_of_le hsize, f, hf, hkind ▸ nofun⟩

end Computer

end Accumulator
