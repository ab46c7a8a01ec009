import Accumulator.Computer.Perform
import Accumulator.Proofs.Machine
import Accumulator.Proofs.Play

/-! The single changes that calls are made of. Subscribers are told between these changes, never
within one, and may call back then; so a property that every single change keeps is kept by every
call, however deep the calls of subscribers nest, in whatever order they come and however they
end. -/

namespace Accumulator

/-- A single change of a machine with a table. -/
inductive Machine.Change (t : Dispatch) (m : Machine) : Machine → Prop
  | decode (i : Instruction) : m.Accepts t i → Change t m (m.decoded i)
  | consume : Change t m m.consume
  | compute (circuit : Operation) : circuit ≠ .store → Change t m (m.operated circuit)
  | store (a : Nat) (k : Int) : a < m.memory.size →
      Change t m (m.setMemory (m.memory.set a k)).refresh
  | refresh : Change t m m.refresh

/-- A single change of a program on a machine. The machine that an entry of the trace begins with
is one that could be shown before. -/
inductive Program.Change (N : Notice → Prop) (m : Machine) (p : Program) : Program → Prop
  | insert (n : Nat) (i : Instruction) : n ≤ p.length →
      (∀ a, i.address = some a → a < m.memory.size) → Change N m p (p.insertAt n i)
  | fetch (i : Instruction) : m.holds i = true → Change N m p { p with phase := .decoded }
  | advance (i : Instruction) (pre : Machine) : N (.machine pre) → m.isDecoded = false →
      Change N m p (p.advance i pre m)
  | step (stepping : Bool) : Change N m p { p with stepping }
  | play : p.isComplete = false → p.playing = false →
      Change N m p { p with run := p.run + 1, playing := true }
  | stop : p.playing = true → Change N m p { p with run := p.run + 1, playing := false }
  | finish : Change N m p { p with playing := false }
  | watch (subscriber : Nat) : Change N m p { p with watchers := p.watchers ++ [subscriber] }
  | unwatch (subscriber : Nat) :
      Change N m p { p with watchers := p.watchers.filter (· ≠ subscriber) }

/-- A single change of a computer, where the notices that are given have a property. -/
inductive Computer.Change (N : Notice → Prop) (c : Computer) : Computer → Prop
  | machine {m : Machine} : c.machine.Change c.table m → Change N c { c with machine := m }
  | program (index : Nat) (f : Program → Program) :
      (∀ p, c.programs[index]? = some p → p.Change N c.machine (f p)) →
      Change N c { c with programs := c.programs.modify index f }
  | give (subscriber : Nat) (source : Source) (notice : Notice) : N notice →
      Change N c { c with events := ⟨subscriber, source, notice, c.machine⟩ :: c.events }
  | note (subscriber state : Nat) : Change N c
      { c with subscribers := c.subscribers.modify subscriber fun s => { s with state } }
  | watchMemory (subscriber : Nat) :
      Change N c { c with memoryWatchers := c.memoryWatchers ++ [.subscriber subscriber] }
  | unwatchMemory (subscriber : Nat) : Change N c
      { c with memoryWatchers := c.memoryWatchers.filter (· ≠ .subscriber subscriber) }
  | watchMachine (subscriber : Nat) :
      Change N c { c with machineWatchers := c.machineWatchers ++ [subscriber] }
  | unwatchMachine (subscriber : Nat) :
      Change N c { c with machineWatchers := c.machineWatchers.filter (· ≠ subscriber) }
  | makeLoop (l : PlayLoop) (p : Program) : c.programs[l.program]? = some p → l.run = p.run →
      l.stage = .fresh → Change N c { c with loops := c.loops ++ [l] }
  | setStage (index : Nat) (stage : Stage) :
      Change N c { c with loops := c.loops.modify index fun l => { l with stage } }
  | await (awaited : Bool) : Change N c { c with awaited }
  | log (record : Record) : Change N c { c with journal := record :: c.journal }

/-- Every call that the reaction may come to make is one of `C`. -/
def Reaction.Calls (C : Command → Prop) : Reaction → Prop
  | .done | .fail _ => True
  | .call command next => C command ∧ ∀ outcome, (next outcome).Calls C

theorem Reaction.calls_true (reaction : Reaction) : reaction.Calls fun _ => True := by
  induction reaction with
  | done => trivial
  | fail fault => trivial
  | call command next ih => exact ⟨trivial, ih⟩

/-- A property of computers that every single change keeps which passes the roster by and is not the
record of a phase, as long as the notices that are given have a property that all current ones have.
On such a notice the subscribers make no calls but those in `C`. The machine is the first to watch
its memory. -/
structure Upheld (N : Notice → Prop) (C : Command → Prop) (P : Computer → Prop) : Prop where
  watched : ∀ {c : Computer}, P c → ∃ rest, c.memoryWatchers = .dataRegister :: rest
  conduct : ∀ {c : Computer}, P c → ∀ s ∈ c.subscribers, ∀ state notice, N notice →
    (s.react state notice).2.Calls C
  machine : ∀ {c : Computer}, P c → N (.machine c.machine)
  memory : ∀ {c : Computer}, P c → N (.memory c.machine.memory)
  program : ∀ {c : Computer} {index : Nat} {p : Program}, P c → c.programs[index]? = some p →
    N (.program p.view)
  change : ∀ {c d : Computer}, P c → c.Change N d → c.Beside d → P d

/-- A property of computers that the giving of a notice keeps, as long as the notice has a property
that all current ones have. On such a notice the subscribers make no calls but those in `C`. -/
structure Heeded (N : Notice → Prop) (C : Command → Prop) (P : Computer → Prop) : Prop where
  conduct : ∀ {c : Computer}, P c → ∀ s ∈ c.subscribers, ∀ state notice, N notice →
    (s.react state notice).2.Calls C
  machine : ∀ {c : Computer}, P c → N (.machine c.machine)
  program : ∀ {c : Computer} {index : Nat} {p : Program}, P c → c.programs[index]? = some p →
    N (.program p.view)
  give : ∀ {c : Computer} (subscriber : Nat) (source : Source) (notice : Notice), P c → N notice →
    P { c with events := ⟨subscriber, source, notice, c.machine⟩ :: c.events }
  note : ∀ {c : Computer} (subscriber state : Nat), P c →
    P { c with subscribers := c.subscribers.modify subscriber fun s => { s with state } }
  refresh : ∀ {c : Computer}, P c → P { c with machine := c.machine.refresh }

theorem Upheld.heeded {N : Notice → Prop} {C : Command → Prop} {P : Computer → Prop}
    (I : Upheld N C P) : Heeded N C P where
  conduct := I.conduct
  machine := I.machine
  program := I.program
  give subscriber source notice hc h := I.change hc (.give subscriber source notice h) ⟨rfl, rfl⟩
  note subscriber state hc := I.change hc (.note subscriber state) ⟨rfl, rfl⟩
  refresh hc := I.change hc (.machine .refresh) ⟨rfl, rfl⟩

/-- A property of computers that every single change keeps, as long as the notices that are given
have a property that all current ones have. The machine is the first to watch its memory. -/
structure Invariant (N : Notice → Prop) (P : Computer → Prop) : Prop where
  watched : ∀ {c : Computer}, P c → ∃ rest, c.memoryWatchers = .dataRegister :: rest
  machine : ∀ {c : Computer}, P c → N (.machine c.machine)
  memory : ∀ {c : Computer}, P c → N (.memory c.machine.memory)
  program : ∀ {c : Computer} {index : Nat} {p : Program}, P c → c.programs[index]? = some p →
    N (.program p.view)
  change : ∀ {c d : Computer}, P c → c.Change N d → P d

namespace Routine

variable {call : Caller}

/-- The machine refreshes its data register before any subscriber hears of a write, so that a write
and the refreshing are one change. -/
theorem on_write {c : Computer} {rest : List Watcher}
    (hw : c.memoryWatchers = .dataRegister :: rest) (value address : Value) :
    (write call value address).on c =
      match c.machine.memory.write value address with
      | .error fault => (.error fault, c)
      | .ok memory =>
        (do notifyMachine call; rest.forM (tell call memory)).on
          { c with machine := (c.machine.setMemory memory).refresh } := by
  rw [write, on_get_bind, on_conclude_bind]
  cases hm : c.machine.memory.write value address with
  | error fault => rfl
  | ok memory =>
    simp only
    rw [on_modifyMachine_bind, notifyMemory, on_get_bind]
    simp only [hw]
    show ((tell call memory .dataRegister >>= fun _ => rest.forM (tell call memory)).on _) = _
    rw [tell, bind_assoc, on_modifyMachine_bind]

theorem on_operate {circuit : Operation} (h : circuit ≠ .store) (c : Computer) :
    (operate call circuit).on c =
      (notifyMachine call).on { c with machine := c.machine.operated circuit } := by
  cases circuit with
  | store => exact absurd rfl h
  | _ => rfl

theorem on_operate_store (c : Computer) : (operate call .store).on c =
    (write call (.int c.machine.registers.accumulator) (.int c.machine.registers.address)).on c :=
  rfl

theorem checkInstruction_eq_ok {c : Computer} {v : Value} {i : Instruction} :
    checkInstruction c v = .ok i ↔ v = .instruction i ∧ c.machine.Accepts c.table i := by
  cases v with
  | instruction j =>
    simp only [checkInstruction, Machine.Accepts, Value.instruction.injEq]
    by_cases ht : c.table.contains j.operation = true
    · rw [if_pos ht]
      cases ha : Program.checkAddress c.machine.memory j with
      | error fault =>
        have hn := mt Program.checkAddress_eq_ok.mpr (by rw [ha]; exact fun h => nomatch h)
        constructor
        · exact fun h => nomatch h
        · rintro ⟨rfl, -, h⟩
          exact absurd h hn
      | ok u =>
        have hok := Program.checkAddress_eq_ok.mp ha
        constructor
        · intro h
          obtain rfl : j = i := Except.ok.inj h
          exact ⟨rfl, ht, hok⟩
        · rintro ⟨rfl, -⟩
          rfl
    · rw [if_neg ht]
      constructor
      · exact fun h => nomatch h
      · rintro ⟨rfl, h, -⟩
        exact absurd h ht
  | _ => simp [checkInstruction]

end Routine

namespace Heeded

open Routine

variable {N : Notice → Prop} {C : Command → Prop} {P : Computer → Prop} {call : Caller}
  (I : Heeded N C P) (hcall : ∀ command, C command → Keeps P (call command))
include I hcall

omit I in
theorem keeps_react {reaction : Reaction} (h : reaction.Calls C) :
    Keeps P (react call reaction) := by
  induction reaction with
  | done => exact Keeps.pure _
  | fail fault => exact Keeps.throw fault
  | call command next ih =>
    exact Keeps.bind (Keeps.attempt (hcall command h.1)) fun outcome => ih outcome (h.2 outcome)

theorem keeps_deliver {notice : Notice} (h : N notice) (source : Source) (subscriber : Nat) :
    Keeps P (deliver call source notice subscriber) := by
  refine Keeps.bind (Keeps.modify fun c hc => I.give subscriber source notice hc h)
    fun _ => Keeps.get_bind fun c hc => ?_
  split
  · exact hc
  · rename_i s hs
    have hnote : Keeps P (modify fun c =>
        { c with subscribers := c.subscribers.modify subscriber fun r =>
          { r with state := (s.react s.state notice).1 } }) :=
      Keeps.modify fun c hc => I.note subscriber _ hc
    have hreaction := I.conduct hc s (List.mem_of_getElem? hs) s.state notice h
    exact Keeps.bind hnote (fun _ => keeps_react hcall hreaction) c hc

theorem keeps_notifyMachine : Keeps P (notifyMachine call) :=
  Keeps.get_bind fun c hc =>
    Keeps.forM (fun subscriber _ => I.keeps_deliver hcall (I.machine hc) _ subscriber) c hc

theorem keeps_notifyProgram (index : Nat) : Keeps P (notifyProgram call index) :=
  Keeps.program_bind fun c _ hc hp =>
    Keeps.forM (fun subscriber _ => I.keeps_deliver hcall (I.program hc hp) _ subscriber) c hc

theorem keeps_tell {memory : Memory} (h : N (.memory memory)) (watcher : Watcher) :
    Keeps P (tell call memory watcher) := by
  cases watcher with
  | dataRegister =>
    exact Keeps.bind (Keeps.modify fun c hc => I.refresh hc) fun _ => I.keeps_notifyMachine hcall
  | subscriber index => exact I.keeps_deliver hcall h _ index

/-- What is left of a write once the memory has changed is to tell of it. -/
theorem write {c : Computer} {value address : Value} {memory : Memory} {rest : List Watcher}
    (hw : c.memoryWatchers = .dataRegister :: rest)
    (hm : c.machine.memory.write value address = .ok memory) (h : N (.memory memory))
    (hd : P { c with machine := (c.machine.setMemory memory).refresh }) :
    P ((write call value address).on c).2 := by
  rw [on_write hw, hm]
  exact Keeps.bind (I.keeps_notifyMachine hcall)
    (fun _ => Keeps.forM fun watcher _ => I.keeps_tell hcall h watcher) _ hd

end Heeded

namespace Upheld

open Routine Computer

variable {N : Notice → Prop} {C : Command → Prop} {P : Computer → Prop} {call : Caller}

section
variable (I : Upheld N C P)
include I

theorem modifyProgram {c : Computer} (hc : P c) {index : Nat} {p : Program}
    (hp : c.programs[index]? = some p) {f : Program → Program} (h : p.Change N c.machine (f p))
    (hmark : (f p).mark = p.mark) : P { c with programs := c.programs.modify index f } := by
  have hsame : ∀ q, c.programs[index]? = some q → p = q := fun q hq =>
    Option.some.inj (hp.symm.trans hq)
  refine I.change hc (.program index f fun q hq => ?_) (.modifyProgram fun q hq => ?_)
  · exact hsame q hq ▸ h
  · exact hsame q hq ▸ hmark

theorem keeps_modifyProgram {index : Nat} {f : Program → Program}
    (h : ∀ m p, Program.Change N m p (f p)) (hmark : ∀ p, (f p).mark = p.mark) :
    Keeps P (Routine.modifyProgram index f) :=
  Keeps.modify fun c hc => I.change hc (.program index f fun p _ => h c.machine p)
    (.modifyProgram fun p _ => hmark p)

theorem keeps_log {record : Record} (h : record.isPhase = false) : Keeps P (log record) :=
  Keeps.modify fun c hc => I.change hc (.log record) (.log h c)

theorem keeps_unobserve (source : Source) (subscriber : Nat) :
    Keeps P (unobserve source subscriber) := by
  cases source with
  | memory => exact Keeps.modify fun c hc => I.change hc (.unwatchMemory subscriber) ⟨rfl, rfl⟩
  | machine => exact Keeps.modify fun c hc => I.change hc (.unwatchMachine subscriber) ⟨rfl, rfl⟩
  | program index =>
    exact Keeps.program_bind fun c p hc hp => I.modifyProgram hc hp (.unwatch subscriber) rfl

end

section
variable (I : Upheld N C P) (hcall : ∀ command, C command → Keeps P (call command))
include I hcall

theorem keeps_deliver {notice : Notice} (h : N notice) (source : Source) (subscriber : Nat) :
    Keeps P (deliver call source notice subscriber) :=
  I.heeded.keeps_deliver hcall h source subscriber

theorem keeps_notifyMachine : Keeps P (notifyMachine call) := I.heeded.keeps_notifyMachine hcall

theorem keeps_notifyProgram (index : Nat) : Keeps P (notifyProgram call index) :=
  I.heeded.keeps_notifyProgram hcall index

theorem keeps_write (value address : Value) : Keeps P (write call value address) := by
  intro c hc
  obtain ⟨rest, hw⟩ := I.watched hc
  cases hm : c.machine.memory.write value address with
  | error fault =>
    rw [on_write hw, hm]
    exact hc
  | ok memory =>
    obtain ⟨a, k, -, -, ha, rfl⟩ := Memory.write_eq_ok.mp hm
    have hd := I.change hc (.machine (.store a k ha)) ⟨rfl, rfl⟩
    exact I.heeded.write hcall hw hm (I.memory hd) hd

theorem keeps_operate (circuit : Operation) : Keeps P (operate call circuit) := by
  intro c hc
  by_cases hs : circuit = .store
  · rw [hs, on_operate_store]
    exact I.keeps_write hcall _ _ c hc
  · rw [on_operate hs]
    exact I.keeps_notifyMachine hcall _ (I.change hc (.machine (.compute circuit hs)) ⟨rfl, rfl⟩)

theorem keeps_dispatch (op : Operation) : Keeps P (dispatch call op) := by
  refine Keeps.get_bind fun c hc => ?_
  split
  · exact I.keeps_operate hcall _ c hc
  · exact hc

theorem keeps_decode (instruction : Value) : Keeps P (decode call instruction) := by
  refine Keeps.get_bind fun c hc => ?_
  rw [on_conclude_bind]
  split
  · rename_i i hi
    obtain ⟨-, hi⟩ := checkInstruction_eq_ok.mp hi
    rw [on_modifyMachine_bind]
    have hd := I.change hc (.machine (.decode i hi)) ⟨rfl, rfl⟩
    exact Keeps.get_bind (fun d hd => Keeps.bind (I.keeps_log rfl)
      (fun _ => I.keeps_notifyMachine hcall) d hd) _ hd
  · exact hc

theorem keeps_execute : Keeps P (execute call) := by
  refine Keeps.get_bind fun c hc => ?_
  split
  · exact hc
  · refine Keeps.bind (Keeps.modify fun c hc => I.change hc (.machine .consume) ⟨rfl, rfl⟩)
      (fun _ => ?_) c hc
    refine Keeps.bind (I.keeps_dispatch hcall _) fun _ => ?_
    exact Keeps.get_bind fun d hd => I.keeps_log rfl d hd

theorem keeps_insert (index : Nat) (name args position : Value) :
    Keeps P (insert call index name args position) := by
  refine Keeps.program_bind fun c p hc hp => ?_
  rw [on_conclude_bind]
  split
  · rename_i n hn
    rw [on_conclude_bind]
    split
    · rename_i i hi
      rw [on_get_bind, on_conclude_bind]
      split
      · rename_i ha
        rw [on_modifyProgram_bind]
        have hd := I.modifyProgram hc hp (f := (·.insertAt n i))
          (.insert n i (Program.position_le hn) (Program.checkAddress_eq_ok.mp ha)) rfl
        exact Keeps.bind (I.keeps_notifyProgram hcall index) (fun _ => Keeps.pure i) _ hd
      · exact hc
    · exact hc
  · exact hc

theorem keeps_append (index : Nat) (name args : Value) :
    Keeps P (append call index name args) :=
  Keeps.program_bind fun c _ hc _ => I.keeps_insert hcall index name args _ c hc

theorem keeps_observe (source : Source) (subscriber : Nat) :
    Keeps P (observe call source subscriber) := by
  cases source with
  | memory =>
    refine Keeps.bind (Keeps.modify fun c hc => I.change hc (.watchMemory subscriber) ⟨rfl, rfl⟩)
      fun _ => ?_
    exact Keeps.get_bind fun d hd => I.keeps_deliver hcall (I.memory hd) _ subscriber d hd
  | machine =>
    refine Keeps.bind (Keeps.modify fun c hc => I.change hc (.watchMachine subscriber) ⟨rfl, rfl⟩)
      fun _ => ?_
    exact Keeps.get_bind fun d hd => I.keeps_deliver hcall (I.machine hd) _ subscriber d hd
  | program index =>
    refine Keeps.program_bind fun c p hc hp => ?_
    refine Keeps.bind (I.keeps_modifyProgram (fun _ _ => .watch subscriber) fun _ => rfl)
      (fun _ => ?_) c hc
    exact I.keeps_deliver hcall (I.program hc hp) _ subscriber

section
variable (hlog : ∀ record, Keeps P (log record))
include hlog

theorem keeps_fetchPhase (index : Nat) (i : Instruction) : Keeps P (fetchPhase call index i) := by
  refine Keeps.bind (Keeps.ensuring (I.keeps_decode hcall _) (Keeps.get_bind fun c hc => ?_))
    fun _ => Keeps.program_bind fun c _ hc _ => hlog _ c hc
  split
  · rename_i hi
    exact I.change hc (.program index _ fun p _ => .fetch i hi) (.modifyProgram fun _ _ => rfl)
  · exact hc

theorem keeps_executePhase (index : Nat) (i : Instruction) :
    Keeps P (executePhase call index i) := by
  refine Keeps.get_bind fun before hbefore => ?_
  refine Keeps.bind (Keeps.ensuring (I.keeps_execute hcall) (Keeps.get_bind fun c hc => ?_))
    (fun _ => Keeps.program_bind fun c _ hc _ => hlog _ c hc) before hbefore
  dsimp only
  split
  · rename_i hpost
    have hidle : c.machine.isDecoded = false := by simpa using hpost
    exact I.change hc (.program index _ fun p _ => .advance i _ (I.machine hbefore) hidle)
      (.modifyProgram fun _ _ => rfl)
  · exact hc

theorem keeps_doPhase (index : Nat) (i : Instruction) (phase : Phase) :
    Keeps P (doPhase call index i phase) := by
  cases phase with
  | fetch => exact I.keeps_fetchPhase hcall hlog index i
  | decoded => exact I.keeps_executePhase hcall hlog index i

theorem keeps_step (hset : ∀ index stepping, Keeps P (setStepping index stepping)) (index : Nat) :
    Keeps P (step call index) := by
  refine Keeps.program_bind fun c p hc _ => ?_
  split
  · exact hc
  · split
    · exact hc
    · rename_i i _
      refine Keeps.bind (hset index true) (fun _ => ?_) c hc
      refine Keeps.bind (Keeps.ensuring (I.keeps_doPhase hcall hlog index i _) (hset index false))
        fun _ => ?_
      exact Keeps.bind (I.keeps_notifyProgram hcall index) fun _ => Keeps.pure true

end

end

end Upheld

/-- The calls in `C` that step and play programs keep a property. -/
structure Routine.KeepsDriving (P : Computer → Prop) (call : Caller) (C : Command → Prop) :
    Prop where
  step : ∀ index, C (.step index) → Keeps P (step call index)
  run : ∀ index, C (.run index) → Keeps P (run call index)
  play : ∀ index delay, C (.play index delay) → Keeps P (play call index delay)
  stop : ∀ index, C (.stop index) → Keeps P (stop call index)
  tick : ∀ k, C (.tick k) → Keeps P (tick call k)
  cancel : ∀ k, C (.cancel k) → Keeps P (cancel call k)

open Routine in
/-- What a call does keeps the property if stepping and playing do, and the calls made from inside
it. -/
theorem Upheld.keeps_perform {N : Notice → Prop} {C D : Command → Prop} {P : Computer → Prop}
    {call : Caller} (I : Upheld N C P) (hcall : ∀ command, C command → Keeps P (call command))
    (h : KeepsDriving P call D) {command : Command} (hD : D command) :
    Keeps P (perform call command) := by
  cases command with
  | step index => exact Keeps.bind (h.step index hD) fun _ => Keeps.pure _
  | run index => exact Keeps.bind (h.run index hD) fun _ => Keeps.pure _
  | append index name args =>
    exact Keeps.bind (I.keeps_append hcall index name args) fun _ => Keeps.pure _
  | insert index name args position =>
    exact Keeps.bind (I.keeps_insert hcall index name args position) fun _ => Keeps.pure _
  | play index delay => exact Keeps.bind (h.play index delay hD) fun _ => Keeps.pure _
  | stop index => exact Keeps.bind (h.stop index hD) fun _ => Keeps.pure _
  | tick index => exact h.tick index hD
  | cancel index => exact h.cancel index hD
  | decode instruction => exact Keeps.bind (I.keeps_decode hcall instruction) fun _ => Keeps.pure _
  | execute => exact Keeps.bind (I.keeps_execute hcall) fun _ => Keeps.pure _
  | operate circuit => exact Keeps.bind (I.keeps_operate hcall circuit) fun _ => Keeps.pure _
  | dispatch op => exact Keeps.bind (I.keeps_dispatch hcall op) fun _ => Keeps.pure _
  | write value address =>
    exact Keeps.bind (I.keeps_write hcall value address) fun _ => Keeps.pure _
  | read address =>
    exact Keeps.get_bind fun c hc => Keeps.bind (Keeps.conclude _) (fun _ => Keeps.pure _) c hc
  | validate address =>
    exact Keeps.get_bind fun c hc => Keeps.bind (Keeps.conclude _) (fun _ => Keeps.pure _) c hc
  | observe source subscriber =>
    exact Keeps.bind (I.keeps_observe hcall source subscriber) fun _ => Keeps.pure _
  | unobserve source subscriber =>
    exact Keeps.bind (I.keeps_unobserve source subscriber) fun _ => Keeps.pure _
  | observeValue source value => exact Keeps.throw _

namespace Invariant

open Routine

variable {N : Notice → Prop} {P : Computer → Prop} {call : Caller}

theorem upheld (I : Invariant N P) : Upheld N (fun _ => True) P where
  watched := I.watched
  conduct _ _ _ _ _ _ := Reaction.calls_true _
  machine := I.machine
  memory := I.memory
  program := I.program
  change hc h _ := I.change hc h

section
variable (I : Invariant N P)
include I

theorem modifyProgram {c : Computer} (hc : P c) {index : Nat} {p : Program}
    (hp : c.programs[index]? = some p) {f : Program → Program} (h : p.Change N c.machine (f p)) :
    P { c with programs := c.programs.modify index f } := by
  refine I.change hc (.program index f fun q hq => ?_)
  obtain rfl : p = q := Option.some.inj (hp.symm.trans hq)
  exact h

theorem keeps_log (record : Record) : Keeps P (log record) :=
  Keeps.modify fun _ hc => I.change hc (.log record)

theorem keeps_setStage (index : Nat) (stage : Stage) : Keeps P (setStage index stage) :=
  Keeps.modify fun _ hc => I.change hc (.setStage index stage)

theorem keeps_setAwaited (awaited : Bool) : Keeps P (setAwaited awaited) :=
  Keeps.modify fun _ hc => I.change hc (.await awaited)

theorem keeps_setStepping (index : Nat) (stepping : Bool) : Keeps P (setStepping index stepping) :=
  Keeps.modify fun _ hc => I.change hc (.program index _ fun _ _ => .step stepping)

theorem keeps_makeLoop (index : Nat) (delay : Value) : Keeps P (makeLoop index delay) := by
  refine Keeps.program_bind fun c p hc hp => ?_
  exact I.change hc (.makeLoop _ p hp rfl rfl)

theorem keeps_unobserve (source : Source) (subscriber : Nat) :
    Keeps P (unobserve source subscriber) := I.upheld.keeps_unobserve source subscriber

end

section
variable (I : Invariant N P) (hcall : ∀ command, Keeps P (call command))
include I hcall

theorem keeps_deliver {notice : Notice} (h : N notice) (source : Source) (subscriber : Nat) :
    Keeps P (deliver call source notice subscriber) :=
  I.upheld.keeps_deliver (fun command _ => hcall command) h source subscriber

theorem keeps_notifyProgram (index : Nat) : Keeps P (notifyProgram call index) :=
  I.upheld.keeps_notifyProgram (fun command _ => hcall command) index

theorem keeps_step (index : Nat) : Keeps P (step call index) :=
  I.upheld.keeps_step (fun command _ => hcall command) I.keeps_log I.keeps_setStepping index

/-- Whatever the programs, the parts of runs and play loops keep an invariant. -/
theorem keepsPlay : KeepsPlay P call fun _ => True where
  step _ := I.keeps_step hcall _
  notify := I.keeps_notifyProgram hcall
  begin hc hp hcomplete hplaying := I.modifyProgram hc hp (.play hcomplete hplaying)
  halt hc hp hplaying := I.modifyProgram hc hp (.stop hplaying)
  finish index hc := I.change hc (.program index _ fun _ _ => .finish)
  makeLoop delay _ := I.keeps_makeLoop _ delay
  setStage := I.keeps_setStage
  setAwaited := I.keeps_setAwaited
  log record _ := I.keeps_log record

theorem keepsDriving : KeepsDriving P call fun _ => True where
  step index _ := I.keeps_step hcall index
  run _ _ := (I.keepsPlay hcall).run trivial
  play _ delay _ := (I.keepsPlay hcall).play trivial delay
  stop index _ := (I.keepsPlay hcall).stop index
  tick _ _ := (I.keepsPlay hcall).tick fun _ _ => trivial
  cancel k _ := (I.keepsPlay hcall).cancel k

/-- What a call does keeps the invariant if the calls made from inside it do. -/
theorem keeps_perform (command : Command) : Keeps P (perform call command) :=
  I.upheld.keeps_perform (fun command _ => hcall command) (I.keepsDriving hcall) trivial

end

/-- Calls from inside notifications keep an invariant, however deep they nest. -/
theorem keeps_performWithin (I : Invariant N P) (depth : Nat) (command : Command) :
    Keeps P (performWithin depth command) := by
  induction depth generalizing command with
  | zero => exact Keeps.throw _
  | succ depth ih => exact I.keeps_perform ih command

theorem bound (I : Invariant N P) (b : Nat) : Invariant N fun c => P c ∧ c.bound = b where
  watched h := I.watched h.1
  machine h := I.machine h.1
  memory h := I.memory h.1
  program h hp := I.program h.1 hp
  change h hd := ⟨I.change h.1 hd, by cases hd <;> exact h.2⟩

theorem perform (I : Invariant N P) {c : Computer} (hc : P c) (command : Command) :
    P (c.perform command).2 :=
  I.keeps_perform (I.keeps_performWithin c.bound) command c hc

end Invariant

end Accumulator
