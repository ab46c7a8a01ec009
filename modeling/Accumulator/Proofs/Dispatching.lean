import Accumulator.Proofs.Cells
import Accumulator.Proofs.Tracing

/-! A table of any entries at work. Whether an operation is supported is looked up when its
instruction is decoded, and what performs it when it is executed. In between anyone may decode and
execute, or try to add to the table; still what is executed is always what the table has for the
instruction that was decoded last, and a program never gets past an operation without an entry. -/

namespace Accumulator

/-- What is done with a machine and its programs: a step of a program, a decoding or an execution by
itself, or an attempt to add to the table. -/
inductive Deed
  | step (program : Nat)
  | decode (instruction : Value)
  | execute
  | register (op circuit : Operation)

namespace Dispatch

variable {t : Dispatch} {op circuit : Operation} {entries : List (Operation × Operation)}

theorem contains_iff : t.contains op = true ↔ op ∈ t.entries.map Prod.fst := by
  simp [contains, lookup, List.lookup_isSome_iff]

/-- Where every operation has one entry at most, what is looked up is that entry. -/
theorem lookup_iff (distinct : (t.entries.map Prod.fst).Nodup) :
    t.lookup op = some circuit ↔ (op, circuit) ∈ t.entries := by
  obtain ⟨entries, frozen⟩ := t
  induction entries with
  | nil => simp [lookup]
  | cons entry entries ih =>
    obtain ⟨first, other⟩ := entry
    obtain ⟨new, distinct⟩ := List.nodup_cons.mp distinct
    have rest := ih distinct
    simp only [lookup] at rest
    simp only [lookup, List.lookup_cons, List.mem_cons, Prod.mk.injEq]
    by_cases same : op = first
    · subst same
      have missing : (op, circuit) ∉ entries := fun h => new (List.mem_map.mpr ⟨_, h, rfl⟩)
      simp [missing, eq_comm]
    · have differs : (op == first) = false := by simpa using same
      simp [differs, same, rest]

theorem registerAll_operations (isOpen : t.frozen = false)
    (distinct : ((t.entries ++ entries).map Prod.fst).Nodup) :
    t.registerAll (entries.map fun entry => (.operation entry.1, entry.2)) =
      .ok { t with entries := t.entries ++ entries } := by
  induction entries generalizing t with
  | nil => simp [registerAll]
  | cons entry entries ih =>
    have new : t.contains entry.1 = false := by
      refine Bool.eq_false_iff.mpr fun h => ?_
      rw [List.map_append, List.nodup_append] at distinct
      exact distinct.2.2 _ (contains_iff.mp h) _ (by simp) rfl
    have registered : t.register entry.1 entry.2 =
        .ok { t with entries := t.entries ++ [entry] } := by
      simp [register, isOpen, new]
    have rest := ih (t := { t with entries := t.entries ++ [entry] }) isOpen
      (by simpa using distinct)
    rw [List.map_cons, registerAll]
    simp only [Operation.ofValue, bind, Except.bind, registered]
    rw [rest, List.append_assoc, List.singleton_append]

/-- Entries for distinct operations make up a table, and are all that it has. -/
theorem ofEntries_operations (distinct : (entries.map Prod.fst).Nodup) :
    ofEntries (entries.map fun entry => (.operation entry.1, entry.2)) = .ok ⟨entries, true⟩ := by
  rw [ofEntries, registerAll_operations rfl (by simpa using distinct)]
  rfl

end Dispatch

namespace Progress

variable {w n : Nat} {t : Dispatch} {s : Progress}

/-- What the program has decoded has an entry in the table. -/
def Supported (t : Dispatch) (s : Progress) : Prop :=
  s.phase = .decoded → ∃ i, s.current? = some i ∧ t.contains i.operation = true

theorem Supported.insertAt (h : s.Supported t) (k : Nat) (i : Instruction) :
    (s.insertAt k i).Supported t := by
  intro phase
  obtain ⟨j, current, entry⟩ := h phase
  have decoded : s.phase = .decoded := phase
  have same : (s.insertAt k i).current? = s.current? := current?_insertAt (.inl decoded) i
  exact ⟨j, same.trans current, entry⟩

/-- A program has fetched only what the machine holds, and the machine holds only what it has
accepted. -/
theorem Supported.next (h : s.Supported t) (hs : s.machine.Sound w n t) :
    (s.next t).Supported t := by
  cases current : s.current? with
  | none => rwa [next_complete current]
  | some i =>
    cases phase : s.phase with
    | decoded =>
      rw [next_decoded current phase]
      exact nofun
    | fetch =>
      by_cases accepts : s.machine.Accepts t i
      · rw [next_accepted current phase accepts]
        exact fun _ => ⟨i, current, accepts.1⟩
      · rw [next_refused current phase accepts, fetched, if_neg (mt hs.accepts accepts)]
        exact h

theorem supported_steady : Steady w n t fun _ => Supported t where
  insertAt _ _ k i h _ := h.insertAt k i
  work _ _ _ h _ _ _ := h

end Progress

/-- The instruction that is to be decoded: by itself, or in the first phase of a program. -/
def Deed.decodes? (c : Computer) : Deed → Option Instruction
  | .decode (.instruction i) => some i
  | .step index =>
    c.programs[index]?.bind fun p => if p.phase = .fetch then p.current? else none
  | _ => none

/-- What is pending is to be executed: by itself, or in the second phase of a program. -/
def Deed.Executes (c : Computer) : Deed → Prop
  | .execute => True
  | .step index => ∃ p, c.programs[index]? = some p ∧ p.phase = .decoded
  | _ => False

namespace Computer

/-- The outcome of a deed, and the computer after it. -/
def act (c : Computer) : Deed → Except Fault Answer × Computer
  | .step index => c.perform (.step index)
  | .decode instruction => c.perform (.decode instruction)
  | .execute => c.perform .execute
  | .register op circuit =>
    match c.table.register op circuit with
    | .ok table => (.ok .nothing, { c with table })
    | .error fault => (.error fault, c)

/-- The computer after deeds, whatever their outcomes. -/
def actAll (c : Computer) (deeds : List Deed) : Computer :=
  deeds.foldl (fun c deed => (c.act deed).2) c

/-- The instruction that a deed has had decoded: none if it was refused. -/
def accepted (c : Computer) (deed : Deed) : Option Instruction :=
  match (c.act deed).1 with
  | .ok _ => deed.decodes? c
  | .error _ => none

/-- The instruction that was decoded last, after deeds on a computer on which it was `last`. -/
def lastAccepted (c : Computer) (last : Option Instruction) : List Deed → Option Instruction
  | [] => last
  | deed :: deeds => (c.act deed).2.lastAccepted ((c.accepted deed).or last) deeds

/-- The program stays as it is, through all deeds and on every further step: each of its steps is
refused for its operation and changes nothing. -/
def Stuck (c : Computer) (index : Nat) (p : Program) (op : Operation) : Prop :=
  p.phase = .fetch ∧ ∀ deeds : List Deed, (c.actAll deeds).programs[index]? = some p ∧
    (c.actAll deeds).act (.step index) = (.error (.unsupported op), c.actAll deeds)

/-- The computer, with `n` cells, obeys a table of these entries, and `last` is the instruction that
was decoded last. -/
structure Governed (n : Nat) (entries : List (Operation × Operation)) (last : Option Instruction)
    (c : Computer) : Prop where
  table : c.table = ⟨entries, true⟩
  register : ∀ op circuit, c.act (.register op circuit) = (.error .tableFrozen, c)
  decode : ∀ (deed : Deed) i, deed.decodes? c = some i → (∀ a, i.address = some a → a < n) →
    ((∃ answer, (c.act deed).1 = .ok answer) ↔ i.operation ∈ entries.map Prod.fst)
  missing : ∀ (deed : Deed) i, deed.decodes? c = some i → i.operation ∉ entries.map Prod.fst →
    c.act deed = (.error (.unsupported i.operation), c)
  idle : ∀ deed : Deed, deed.Executes c → c.machine.isDecoded = false →
    (c.act deed).1 = .error .nothingDecoded ∧ (c.act deed).2.machine = c.machine
  execute : ∀ deed : Deed, deed.Executes c → c.machine.isDecoded = true →
    ∃ i circuit, last = some i ∧ (i.operation, circuit) ∈ entries ∧
      (∃ answer, (c.act deed).1 = .ok answer) ∧
      (c.act deed).2.machine = c.machine.consume.operated circuit
  operate : ∀ circuit, (c.perform (.operate circuit)).1 = .ok .nothing ∧
    (c.perform (.operate circuit)).2.machine = c.machine.operated circuit
  stuck : ∀ index p i, c.programs[index]? = some p → p.current? = some i →
    i.operation ∉ entries.map Prod.fst → c.Stuck index p i.operation

end Computer

/-- What becomes of a deed. An instruction is decoded, or refused for its operation or its address;
what is pending is executed, or there is nothing of that kind; or the deed is beside all this, and
the machine stays as it is. -/
inductive Deed.Resolved (t : Dispatch) (c : Computer) (deed : Deed) : Prop
  | decoded {answer : Answer} (i : Instruction) (decodes : deed.decodes? c = some i)
      (entry : t.contains i.operation = true) (outcome : (c.act deed).1 = .ok answer)
      (machine : (c.act deed).2.machine = c.machine.decoded i)
  | missing (i : Instruction) (decodes : deed.decodes? c = some i)
      (entry : t.contains i.operation = false)
      (refused : c.act deed = (.error (.unsupported i.operation), c))
  | outside {a : Nat} {f : Fault} (i : Instruction) (decodes : deed.decodes? c = some i)
      (entry : t.contains i.operation = true) (address : i.address = some a)
      (size : c.machine.memory.size ≤ a) (refused : c.act deed = (.error f, c))
  | executed {answer : Answer} (executes : deed.Executes c) (pending : c.machine.isDecoded = true)
      (outcome : (c.act deed).1 = .ok answer)
      (machine : (c.act deed).2.machine = c.machine.executed t)
  | idle (executes : deed.Executes c) (pending : c.machine.isDecoded = false)
      (outcome : (c.act deed).1 = .error .nothingDecoded)
      (machine : (c.act deed).2.machine = c.machine)
  | aside (decodes : deed.decodes? c = none) (executes : ¬ deed.Executes c)
      (machine : (c.act deed).2.machine = c.machine)

namespace Computer

variable {w n : Nat} {t : Dispatch} {c : Computer} {index : Nat} {p : Program} {i : Instruction}

/-! ### Supported operations -/

/-- In the course of a call, subscribers that only take note leave a program with nothing decoded
but what is supported. -/
theorem supported_perform (hn : 0 < n) (h : c.Reachable w n t Conduct.Records)
    (hp : c.programs[index]? = some p) (supported : (p.progress c.machine).Supported t)
    (command : Command) : ∃ q, (c.perform command).2.programs[index]? = some q ∧
      (q.progress (c.perform command).2.machine).Supported t := by
  let S := setting w n t index (fun _ => True) command
  have stands : c.Stands S fun _ => Progress.Supported t :=
    ⟨h.sound hn, fun _ _ _ _ => trivial, p, hp, supported⟩
  have step (j : Nat) (_ : True) : Routine.Keeps (Stands S fun _ => Progress.Supported t)
      (Routine.step (Routine.performWithin c.bound) j) := by
    intro d hd
    have quiet : d.Quiet := fun s hs => (hd.sound.conduct s hs : Conduct.Records s.react).quiet
    have sound := Sound.invariant.keeps_step (Sound.invariant.keeps_performWithin c.bound) j d
      hd.sound
    rcases Routine.step_lands quiet hd.sound j with same | ⟨q, hq, -, noted⟩
    · rwa [same]
    · exact hd.put hq noted sound (fun _ supported => supported.next hd.sound.machine)
        fun _ _ _ supported => supported
  have after := stands.perform Progress.supported_steady step <| by
    cases command with
    | play j delay => exact fun _ _ => trivial
    | tick k => exact fun _ _ => trivial
    | decode v => exact fun _ _ _ supported => supported
    | execute => exact fun _ _ _ supported => supported
    | _ => trivial
  exact after.program

theorem Reachable.supported (hn : 0 < n) (h : c.Reachable w n t Conduct.Records)
    (hp : c.programs[index]? = some p) : (p.progress c.machine).Supported t := by
  induction h generalizing p with
  | idle subscribers bound _ => cases hp
  | @build c q entries delay hc hq ih =>
    have added : (c.programs ++ [q])[index]? = some p := hp
    rw [List.getElem?_append] at added
    split at added
    · exact ih added
    · obtain rfl := List.mem_singleton.mp (List.mem_of_getElem? added)
      rw [(Program.ofEntries_eq_ok hq).1]
      exact nofun
  | @call c command hc ih =>
    have length := (hc.atRest hn).perform_length (hc.sound hn).watched command
    have inside : index < c.programs.length := by
      rw [← length]
      exact (List.getElem?_eq_some_iff.mp hp).1
    have before : c.programs[index]? = some c.programs[index] := List.getElem?_eq_getElem inside
    obtain ⟨q, hq, supported⟩ := supported_perform hn hc before (ih before) command
    obtain rfl : q = p := Option.some.inj (hq.symm.trans hp)
    exact supported

/-! ### Deeds -/

theorem act_register (table : c.table.frozen = true) (op circuit : Operation) :
    c.act (.register op circuit) = (.error .tableFrozen, c) := by
  simp [act, Dispatch.register, table]

theorem act_rejected {v : Value} {fault : Fault}
    (h : Routine.checkInstruction c v = .error fault) : c.act (.decode v) = (.error fault, c) := by
  have on : c.act (.decode v) = _ := Routine.on_bind_pure (fun _ => Answer.nothing) _ c
  rw [on, Routine.decode_rejected h]
  rfl

theorem act_decode (hc : c.Recording) (accepts : c.machine.Accepts c.table i) :
    (c.act (.decode (.instruction i))).1 = .ok .nothing ∧
      Noted { c with machine := c.machine.decoded i } (c.act (.decode (.instruction i))).2 := by
  have on : c.act (.decode (.instruction i)) = _ :=
    Routine.on_bind_pure (fun _ => Answer.nothing) _ c
  have told : (Routine.decode (Routine.performWithin c.bound) (.instruction i)).Tells c _ _ _ :=
    Routine.decode_tells hc accepts
  rw [on, told.outcome]
  exact ⟨rfl, told.state⟩

theorem act_idle (idle : c.machine.isDecoded = false) :
    c.act .execute = (.error .nothingDecoded, c) := by
  have on : c.act .execute = _ := Routine.on_bind_pure (fun _ => Answer.nothing) _ c
  rw [on, Routine.execute_refused idle]
  rfl

theorem act_execute (hc : c.Attended w n t) (pending : c.machine.isDecoded = true) :
    (c.act .execute).1 = .ok .nothing ∧
      Noted { c with machine := c.machine.executed t } (c.act .execute).2 := by
  have on : c.act .execute = _ := Routine.on_bind_pure (fun _ => Answer.nothing) _ c
  have told : (Routine.execute (Routine.performWithin c.bound)).Tells c _ _ _ :=
    Routine.execute_tells hc pending
  rw [on, told.outcome]
  exact ⟨rfl, told.state⟩

section
variable (hn : 0 < n) (h : c.Reachable w n t Conduct.Records) (hp : c.programs[index]? = some p)
include hn h hp

theorem act_complete (current : p.current? = none) :
    c.act (.step index) = (.ok (.flag false), c) := by
  have resting := (h.atRest hn).steps p (List.mem_of_getElem? hp)
  rw [act, perform_step, Routine.step_complete hp resting current]
  rfl

theorem act_step (current : p.current? = some i) (ready : (p.progress c.machine).Ready t i) :
    (c.act (.step index)).1 = .ok (.flag true) ∧
      (c.put index p ((p.progress c.machine).next t)).Noted (c.act (.step index)).2 := by
  have sound := h.sound hn
  have quiet : c.Quiet := fun s hs => (sound.conduct s hs : Conduct.Records s.react).quiet
  have resting := (h.atRest hn).steps p (List.mem_of_getElem? hp)
  have arrives : (Routine.step (Routine.performWithin c.bound) index).Arrives c true _ :=
    Routine.step_arrives quiet sound hp resting current ready
  rw [act, perform_step, arrives.recorded sound.conduct]
  exact ⟨rfl, arrives.state⟩

/-- The addresses in a program are those of cells, so a step decodes whatever is supported. -/
theorem act_fetch (current : p.current? = some i) (phase : p.phase = .fetch)
    (entry : t.contains i.operation = true) :
    (c.act (.step index)).1 = .ok (.flag true) ∧
      (c.act (.step index)).2.machine = c.machine.decoded i := by
  have inside := h.addressed hn p (List.mem_of_getElem? hp) i (List.mem_of_getElem? current)
  rw [← (h.sound hn).machine.memory.size] at inside
  have accepts : (p.progress c.machine).machine.Accepts t i := ⟨entry, inside⟩
  have atCounter : (p.progress c.machine).current? = some i := current
  have fetching : (p.progress c.machine).phase = .fetch := phase
  obtain ⟨outcome, state⟩ := act_step hn h hp current (i := i) (by
    simp only [Progress.Ready, fetching]
    exact accepts)
  rw [Progress.next_accepted atCounter fetching accepts] at state
  exact ⟨outcome, state.machine⟩

theorem act_unsupported (current : p.current? = some i) (phase : p.phase = .fetch)
    (missing : t.contains i.operation = false) :
    c.act (.step index) = (.error (.unsupported i.operation), c) := by
  have resting := (h.atRest hn).steps p (List.mem_of_getElem? hp)
  rw [act, perform_step, Routine.step_unsupported (h.sound hn) hp resting current phase missing]
  rfl

theorem act_second (current : p.current? = some i) (phase : p.phase = .decoded)
    (pending : c.machine.isDecoded = true) :
    (c.act (.step index)).1 = .ok (.flag true) ∧
      (c.act (.step index)).2.machine = c.machine.executed t := by
  have atCounter : (p.progress c.machine).current? = some i := current
  have decoded : (p.progress c.machine).phase = .decoded := phase
  have holds : (p.progress c.machine).machine.isDecoded = true := pending
  obtain ⟨outcome, state⟩ := act_step hn h hp current (i := i) (by
    simp only [Progress.Ready, decoded]
    exact holds)
  rw [Progress.next_decoded atCounter decoded] at state
  exact ⟨outcome, state.machine⟩

theorem act_second_idle (current : p.current? = some i) (phase : p.phase = .decoded)
    (idle : c.machine.isDecoded = false) :
    (c.act (.step index)).1 = .error .nothingDecoded ∧
      (c.act (.step index)).2.machine = c.machine := by
  have resting := (h.atRest hn).steps p (List.mem_of_getElem? hp)
  rw [act, perform_step, Routine.step_idle (h.sound hn).table hp resting current phase idle]
  exact ⟨rfl, Machine.executed_idle idle⟩

end

/-- A table that is in use stays as it is, so a deed comes to the same as a call, or as nothing. -/
theorem Reachable.acted (h : c.Reachable w n t Conduct.Records) (table : c.table.frozen = true)
    (deed : Deed) : (c.act deed).2.Reachable w n t Conduct.Records := by
  cases deed with
  | step index => exact h.call _
  | decode v => exact h.call _
  | execute => exact h.call _
  | register op circuit => rwa [act_register table]

/-- Every deed is resolved in one of six ways. -/
theorem Reachable.resolved (hn : 0 < n) (h : c.Reachable w n t Conduct.Records)
    (frozen : t.frozen = true) (deed : Deed) : deed.Resolved t c := by
  have sound := h.sound hn
  have attended := h.attended hn
  cases deed with
  | register op circuit =>
    exact .aside rfl id (by rw [act_register (sound.table ▸ frozen)])
  | execute =>
    cases pending : c.machine.isDecoded with
    | false => exact .idle trivial pending (by rw [act_idle pending]) (by rw [act_idle pending])
    | true =>
      obtain ⟨outcome, state⟩ := act_execute attended pending
      exact .executed trivial pending outcome state.machine
  | decode v =>
    cases v with
    | instruction i =>
      cases checked : Routine.checkInstruction c (.instruction i) with
      | ok j =>
        obtain ⟨same, accepts⟩ := Routine.checkInstruction_eq_ok.mp checked
        cases same
        obtain ⟨outcome, state⟩ := act_decode attended.recording accepts
        exact .decoded i rfl (sound.table ▸ accepts.1) outcome state.machine
      | error f =>
        have refused := act_rejected checked
        rcases Routine.checkInstruction_eq_error.mp checked with
          other | missing | ⟨entry, address, outside⟩
        · exact absurd rfl (other i)
        · exact .missing i rfl (sound.table ▸ missing) refused
        · exact .outside i rfl (sound.table ▸ entry) address outside refused
    | _ => exact .aside rfl id (by rw [act_rejected rfl])
  | step index =>
    cases hp : c.programs[index]? with
    | none =>
      have unknown : c.act (.step index) = (.error (.noProgram index), c) := by
        rw [act, perform_step, Routine.step, Routine.on_program_bind, hp]
        rfl
      exact .aside (by simp [Deed.decodes?, hp]) (by simp [Deed.Executes, hp]) (by rw [unknown])
    | some p =>
      cases phase : p.phase with
      | fetch =>
        cases current : p.current? with
        | none =>
          exact .aside (by simp [Deed.decodes?, hp, current]) (by simp [Deed.Executes, hp, phase])
            (by rw [act_complete hn h hp current])
        | some i =>
          have decodes : (Deed.step index).decodes? c = some i := by
            simp [Deed.decodes?, hp, phase, current]
          cases entry : t.contains i.operation with
          | false => exact .missing i decodes entry (act_unsupported hn h hp current phase entry)
          | true =>
            obtain ⟨outcome, machine⟩ := act_fetch hn h hp current phase entry
            exact .decoded i decodes entry outcome machine
      | decoded =>
        obtain ⟨i, current, -⟩ := h.supported hn hp phase
        cases pending : c.machine.isDecoded with
        | false =>
          obtain ⟨outcome, machine⟩ := act_second_idle hn h hp current phase pending
          exact .idle ⟨p, hp, phase⟩ pending outcome machine
        | true =>
          obtain ⟨outcome, machine⟩ := act_second hn h hp current phase pending
          exact .executed ⟨p, hp, phase⟩ pending outcome machine

end Computer

theorem Machine.executed_instruction (t : Dispatch) (m : Machine) :
    (m.executed t).registers.instruction = m.registers.instruction := by
  unfold executed
  split
  · rfl
  · split
    · exact operated_instruction _ _
    · rfl

namespace Deed

variable {t : Dispatch} {c : Computer} {deed : Deed} {i : Instruction}

theorem Executes.decodes? (h : deed.Executes c) : deed.decodes? c = none := by
  cases deed with
  | execute => rfl
  | step index =>
    obtain ⟨p, hp, phase⟩ := h
    simp [Deed.decodes?, hp, phase]
  | _ => exact h.elim

/-- An instruction that is to be decoded is looked at for its operation first. -/
theorem Resolved.decoding (h : deed.Resolved t c) (decodes : deed.decodes? c = some i) :
    (t.contains i.operation = false ∧ c.act deed = (.error (.unsupported i.operation), c)) ∨
    (t.contains i.operation = true ∧
      ((∃ answer, (c.act deed).1 = .ok answer) ∨
        ∃ a, i.address = some a ∧ c.machine.memory.size ≤ a)) := by
  cases h with
  | decoded j decodes' entry outcome =>
    obtain rfl : i = j := Option.some.inj (decodes.symm.trans decodes')
    exact .inr ⟨entry, .inl ⟨_, outcome⟩⟩
  | missing j decodes' entry refused =>
    obtain rfl : i = j := Option.some.inj (decodes.symm.trans decodes')
    exact .inl ⟨entry, refused⟩
  | outside j decodes' entry address size =>
    obtain rfl : i = j := Option.some.inj (decodes.symm.trans decodes')
    exact .inr ⟨entry, .inr ⟨_, address, size⟩⟩
  | executed executes => cases executes.decodes?.symm.trans decodes
  | idle executes => cases executes.decodes?.symm.trans decodes
  | aside decodes' => cases decodes'.symm.trans decodes

theorem Resolved.executing (h : deed.Resolved t c) (executes : deed.Executes c) :
    (c.machine.isDecoded = false ∧ (c.act deed).1 = .error .nothingDecoded ∧
      (c.act deed).2.machine = c.machine) ∨
    (c.machine.isDecoded = true ∧ (∃ answer, (c.act deed).1 = .ok answer) ∧
      (c.act deed).2.machine = c.machine.executed t) := by
  cases h with
  | executed _ pending outcome machine => exact .inr ⟨pending, ⟨_, outcome⟩, machine⟩
  | idle _ pending outcome machine => exact .inl ⟨pending, outcome, machine⟩
  | aside _ executes' => exact absurd executes executes'
  | decoded _ decodes => cases executes.decodes?.symm.trans decodes
  | missing _ decodes => cases executes.decodes?.symm.trans decodes
  | outside _ decodes => cases executes.decodes?.symm.trans decodes

end Deed

namespace Computer

variable {w n : Nat} {c : Computer} {deed : Deed} {entries : List (Operation × Operation)}

/-- The instruction register keeps what was decoded last. -/
theorem accepted_instruction {t : Dispatch} (h : deed.Resolved t c) :
    (c.act deed).2.machine.registers.instruction =
      (c.accepted deed).or c.machine.registers.instruction := by
  have nothing (decodes : deed.decodes? c = none) : c.accepted deed = none := by
    unfold accepted
    split
    · exact decodes
    · rfl
  cases h with
  | decoded i decodes _ outcome machine =>
    rw [accepted, outcome, machine]
    simp [decodes, Machine.decoded]
  | missing i _ _ refused =>
    rw [accepted, refused]
    rfl
  | outside i _ _ _ _ refused =>
    rw [accepted, refused]
    rfl
  | executed executes _ _ machine =>
    rw [nothing executes.decodes?, machine, Machine.executed_instruction]
    rfl
  | idle executes _ _ machine =>
    rw [nothing executes.decodes?, machine]
    rfl
  | aside decodes _ machine =>
    rw [nothing decodes, machine]
    rfl

theorem Reachable.actedAll {t : Dispatch} (h : c.Reachable w n t Conduct.Records)
    (frozen : t.frozen = true) (hn : 0 < n) (deeds : List Deed) :
    (c.actAll deeds).Reachable w n t Conduct.Records ∧
      c.lastAccepted c.machine.registers.instruction deeds =
        (c.actAll deeds).machine.registers.instruction := by
  induction deeds generalizing c with
  | nil => exact ⟨h, rfl⟩
  | cons deed deeds ih =>
    have table : c.table.frozen = true := (h.sound hn).table ▸ frozen
    obtain ⟨reachable, last⟩ := ih (h.acted table deed)
    refine ⟨reachable, ?_⟩
    rw [lastAccepted, ← accepted_instruction (h.resolved hn frozen deed)]
    exact last

section
variable {t : Dispatch} {index : Nat} {p : Program} {i : Instruction}
  (hn : 0 < n) (h : c.Reachable w n t Conduct.Records) (frozen : t.frozen = true)
include hn h frozen

/-- No deed touches a program but its own steps. -/
theorem act_elsewhere (other : ∀ j, deed = .step j → j ≠ index) :
    (c.act deed).2.programs[index]? = c.programs[index]? := by
  have sound := h.sound hn
  have attended := h.attended hn
  cases deed with
  | register op circuit => rw [act_register (sound.table ▸ frozen)]
  | execute =>
    cases pending : c.machine.isDecoded with
    | false => rw [act_idle pending]
    | true => rw [(act_execute attended pending).2.programs]
  | decode v =>
    cases checked : Routine.checkInstruction c v with
    | error f => rw [act_rejected checked]
    | ok i =>
      obtain ⟨rfl, accepts⟩ := Routine.checkInstruction_eq_ok.mp checked
      rw [(act_decode attended.recording accepts).2.programs]
  | step j =>
    have quiet : c.Quiet := fun s hs => (sound.conduct s hs : Conduct.Records s.react).quiet
    have stepped : (c.act (.step j)).2 = c ∨ ∃ q, c.programs[j]? = some q ∧ q.stepping = false ∧
        (c.put j q ((q.progress c.machine).next t)).Noted (c.act (.step j)).2 := by
      rw [act, perform_step]
      exact Routine.step_lands quiet sound j
    rcases stepped with same | ⟨q, -, -, noted⟩
    · rw [same]
    · rw [noted.programs]
      exact List.getElem?_set_ne (other j rfl)

/-- A program at an operation without an entry is stuck. -/
theorem stuck_of_missing (hp : c.programs[index]? = some p) (current : p.current? = some i)
    (missing : t.contains i.operation = false) : c.Stuck index p i.operation := by
  have phase : p.phase = .fetch := by
    cases phase : p.phase with
    | fetch => rfl
    | decoded =>
      obtain ⟨j, current', entry⟩ := h.supported hn hp phase
      obtain rfl : i = j := Option.some.inj (current.symm.trans current')
      cases missing.symm.trans entry
  refine ⟨phase, fun deeds => ?_⟩
  induction deeds generalizing c with
  | nil => exact ⟨hp, act_unsupported hn h hp current phase missing⟩
  | cons deed deeds ih =>
    have table : c.table.frozen = true := (h.sound hn).table ▸ frozen
    have kept : (c.act deed).2.programs[index]? = some p := by
      by_cases own : deed = .step index
      · rw [own, act_unsupported hn h hp current phase missing, hp]
      · exact (act_elsewhere hn h frozen fun j same eq => own (by rw [same, eq])).trans hp
    exact ih (h.acted table deed) kept

end

/-- The table decides on every deed. -/
theorem Reachable.governed (hn : 0 < n) (distinct : (entries.map Prod.fst).Nodup)
    (h : c.Reachable w n ⟨entries, true⟩ Conduct.Records) :
    c.Governed n entries c.machine.registers.instruction := by
  have sound := h.sound hn
  have entry_iff (op : Operation) : (⟨entries, true⟩ : Dispatch).contains op = true ↔
      op ∈ entries.map Prod.fst := Dispatch.contains_iff
  have missing_iff (op : Operation) : (⟨entries, true⟩ : Dispatch).contains op = false ↔
      op ∉ entries.map Prod.fst := by
    rw [← entry_iff, Bool.not_eq_true]
  constructor
  case table => exact sound.table
  case register => exact act_register (by rw [sound.table])
  case decode =>
    intro deed i decodes inside
    rw [← entry_iff]
    rcases (h.resolved hn rfl deed).decoding decodes with ⟨missing, refused⟩ |
      ⟨entry, answered | ⟨a, address, size⟩⟩
    · rw [refused]
      exact iff_of_false nofun (by simp [missing])
    · exact iff_of_true answered entry
    · have cell := inside a address
      have cells := sound.machine.memory.size
      omega
  case missing =>
    intro deed i decodes missing
    rw [← missing_iff] at missing
    rcases (h.resolved hn rfl deed).decoding decodes with ⟨-, refused⟩ | ⟨entry, -⟩
    · exact refused
    · cases missing.symm.trans entry
  case idle =>
    intro deed executes pending
    rcases (h.resolved hn rfl deed).executing executes with ⟨-, refused⟩ | ⟨pending', -⟩
    · exact refused
    · cases pending.symm.trans pending'
  case execute =>
    intro deed executes pending
    rcases (h.resolved hn rfl deed).executing executes with ⟨pending', -⟩ | ⟨-, answered, machine⟩
    · cases pending.symm.trans pending'
    -- What is pending is the operation of the instruction register, and has an entry.
    obtain ⟨op, pends⟩ := Option.isSome_iff_exists.mp pending
    obtain ⟨operation, entry⟩ := sound.machine.pending op pends
    obtain ⟨i, held, rfl⟩ := Option.map_eq_some_iff.mp operation
    obtain ⟨circuit, found⟩ : ∃ circuit, (⟨entries, true⟩ : Dispatch).lookup i.operation =
      some circuit := Option.isSome_iff_exists.mp entry
    refine ⟨i, circuit, held, (Dispatch.lookup_iff distinct).mp found, answered, ?_⟩
    rw [machine, Machine.executed, pends]
    simp only [found]
  case operate =>
    intro circuit
    have on : c.perform (.operate circuit) = _ :=
      Routine.on_bind_pure (fun _ => Answer.nothing) _ c
    have told : (Routine.operate (Routine.performWithin c.bound) circuit).Tells c _ _ _ :=
      Routine.operate_tells (h.attended hn) circuit
    rw [on, told.outcome]
    exact ⟨rfl, told.state.machine⟩
  case stuck =>
    intro index p i hp current missing
    exact stuck_of_missing hn h rfl hp current ((missing_iff _).mpr missing)

/-- A table of distinct operations is obeyed for as long as the machine is at work, whatever has
been done with the machine before and whoever decodes and executes on it. An instruction with the
address of a cell is decoded just if its operation has an entry; what is executed is what the table
has for the instruction that was decoded last; nothing is added to the table; and a program that
comes to an operation without an entry stays there. -/
theorem table_obeyed {w n : Nat} (hn : 0 < n) {entries : List (Operation × Operation)}
    (distinct : (entries.map Prod.fst).Nodup) :
    ∃ t, Dispatch.ofEntries (entries.map fun entry => (.operation entry.1, entry.2)) = .ok t ∧
      (∀ op circuit, t.lookup op = some circuit ↔ (op, circuit) ∈ entries) ∧
      ∀ c, Reachable w n t Conduct.Records c → ∀ deeds : List Deed,
        (c.actAll deeds).Governed n entries
          (c.lastAccepted c.machine.registers.instruction deeds) := by
  refine ⟨_, Dispatch.ofEntries_operations distinct, fun _ _ => Dispatch.lookup_iff distinct,
    fun c h deeds => ?_⟩
  obtain ⟨reachable, last⟩ := h.actedAll rfl hn deeds
  rw [last]
  exact reachable.governed hn distinct

/-- A table that loads for `not` and stores for `load`, and has nothing else. The program loads, and
is stuck at `or`; somebody tries to add an entry for it, and has `load` decoded, which then
stores. -/
theorem table_obeyed_remapped :
    let t : Dispatch := ⟨[(.not, .load), (.load, .store)], true⟩
    let p : Program :=
      { instructions := [⟨.not, none⟩, ⟨.or, none⟩], stepDelay := .none }
    let c := ({ idle (.zeros 4 2) t with subscribers := [.recorder] }.addProgram p).performAll
      [.observe .machine 0, .write (.int 9) (.int 0)]
    let d := c.actAll [.step 0, .step 0, .register .or .or, .decode (.instruction ⟨.load, some 1⟩)]
    (d.act .execute).2.machine.memory.cells = [9, 9] ∧
      d.act (.step 0) = (.error (.unsupported .or), d) := by
  intro t p c d
  have distinct : (t.entries.map Prod.fst).Nodup := by decide
  obtain ⟨t', made, -, obeyed⟩ := table_obeyed (w := 4) (n := 2) (by decide) distinct
  obtain rfl : t' = t := Except.ok.inj (made.symm.trans rfl)
  have records : ∀ s ∈ [Subscriber.recorder], Conduct.Records s.react :=
    List.forall_mem_singleton.mpr fun _ _ => rfl
  have built : Program.ofEntries (.zeros 4 2)
      (.list [.instruction ⟨.not, none⟩, .instruction ⟨.or, none⟩]) .none = .ok p := rfl
  have begun : c.Reachable 4 2 t Conduct.Records :=
    .performAll (.build _ _ (.idle [.recorder] 0 records) built) _
  have governed : d.Governed 2 _ _ := obeyed c begun _
  have last : c.lastAccepted c.machine.registers.instruction [.step 0, .step 0,
      .register .or .or, .decode (.instruction ⟨.load, some 1⟩)] = some ⟨.load, some 1⟩ := by
    decide +kernel
  rw [last] at governed
  constructor
  · obtain ⟨i, circuit, same, entry, -, machine⟩ :=
      governed.execute .execute trivial (by decide +kernel)
    obtain rfl : _ = i := Option.some.inj same
    obtain rfl : circuit = .store := by simpa [t] using entry
    rw [machine]
    decide +kernel
  · obtain ⟨q, hq⟩ : ∃ q, d.programs[0]? = some q :=
      Option.isSome_iff_exists.mp (by decide +kernel)
    have current : d.programs[0]?.map Program.current? = some (some ⟨.or, none⟩) := by
      decide +kernel
    clear_value d
    rw [hq] at current
    have stuck := governed.stuck 0 q ⟨.or, none⟩ hq (Option.some.inj current) (by decide)
    exact (stuck.2 []).2

end Computer

end Accumulator
