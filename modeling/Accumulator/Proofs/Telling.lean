import Accumulator.Proofs.Editing
import Accumulator.Proofs.Expiry

/-! What routines tell subscribers that only take note. Each change of a source is told to everyone
who is registered with it, in the order of the registrations and once for each of them, with the
source as it is after the change. -/

namespace Accumulator

/-- The subscriber that watches, if it is not the machine. -/
def Watcher.subscriber? : Watcher → Option Nat
  | .dataRegister => none
  | .subscriber k => some k

/-- The sources that an operation changes: storing changes the memory, and with it the machine,
which hears of it first. -/
def Operation.sources : Operation → List Source
  | .store => [.machine, .memory]
  | _ => [.machine]

/-- The sources that the execution of what is pending changes. -/
def Machine.pendingSources (t : Dispatch) (m : Machine) : List Source :=
  (m.registers.pending.bind t.lookup).elim [] Operation.sources

/-- The sources that the next phase of a program changes beside the program itself. -/
def Progress.sources (t : Dispatch) (s : Progress) : List Source :=
  match s.phase with
  | .fetch => [.machine]
  | .decoded => s.machine.pendingSources t

instance (t : Dispatch) (s : Progress) (i : Instruction) : Decidable (s.Ready t i) :=
  match h : s.phase with
  | .fetch => decidable_of_iff (s.machine.Accepts t i) (by rw [Progress.Ready, h])
  | .decoded => decidable_of_iff (s.machine.isDecoded = true) (by rw [Progress.Ready, h])

/-- The sources that the next step of a program of a number changes: none if the program is complete
or the step is refused. -/
def Progress.stepSources (t : Dispatch) (index : Nat) (s : Progress) : List Source :=
  match s.current? with
  | none => []
  | some i => if s.Ready t i then s.sources t ++ [.program index] else []

namespace Computer

/-- What a source shows of itself. -/
def shown? (c : Computer) : Source → Option Notice
  | .memory => some (.memory c.machine.memory)
  | .machine => some (.machine c.machine)
  | .program index => c.programs[index]?.map fun p => .program p.view

/-- The registrations with a source, in their order. -/
def audience (c : Computer) : Source → List Nat
  | .memory => c.memoryWatchers.filterMap Watcher.subscriber?
  | .machine => c.machineWatchers
  | .program index => (c.programs[index]?.map Program.watchers).getD []

/-- A source is shown as it is, once for each registration. -/
def fanOut (c : Computer) (source : Source) : List Event :=
  match c.shown? source with
  | none => []
  | some notice => (c.audience source).map fun k => ⟨k, source, notice, c.machine⟩

/-- The same subscribers are registered, in the same order. -/
def SameAudience (c d : Computer) : Prop := ∀ source, d.audience source = c.audience source

/-- The machine watches its memory first, and all others who do are subscribers. -/
def Registered (c : Computer) : Prop :=
  ∃ ks : List Nat, c.memoryWatchers = .dataRegister :: ks.map .subscriber

/-- The computer is sound, and its subscribers only take note. -/
structure Attended (w n : Nat) (t : Dispatch) (c : Computer) : Prop where
  sound : c.Sound w n t Conduct.Records
  registered : c.Registered

variable {w n : Nat} {t : Dispatch} {c d : Computer}

/-- The stage of a play loop, if there is one of the number. -/
def stage? (c : Computer) (k : Nat) : Option Stage := c.loops[k]?.map PlayLoop.stage

theorem stage?_setStage {k : Nat} {before : Stage} (h : c.stage? k = some before) (stage : Stage) :
    ((Routine.setStage k stage).on c).2.stage? k = some stage := by
  obtain ⟨l, hl, -⟩ := Option.map_eq_some_iff.mp h
  show (c.loops.modify k _)[k]?.map PlayLoop.stage = _
  rw [List.getElem?_modify_eq, hl]
  rfl

theorem Noted.stage? (h : c.Noted d) (k : Nat) : d.stage? k = c.stage? k := by
  obtain ⟨_, _, _, rfl, -⟩ := h
  rfl

theorem Noted.setStage (h : c.Noted d) (k : Nat) (stage : Stage) :
    ((Routine.setStage k stage).on c).2.Noted ((Routine.setStage k stage).on d).2 := by
  obtain ⟨_, _, _, rfl, hr⟩ := h
  exact ⟨_, _, _, rfl, hr⟩

/-- One more registration with a source. -/
def register (c : Computer) (source : Source) (k : Nat) : Computer :=
  match source with
  | .memory => { c with memoryWatchers := c.memoryWatchers ++ [.subscriber k] }
  | .machine => { c with machineWatchers := c.machineWatchers ++ [k] }
  | .program index => { c with
      programs := c.programs.modify index fun p => { p with watchers := p.watchers ++ [k] } }

/-- The computer while a loop of its is resumed and waited for. -/
def resuming (c : Computer) (k : Nat) : Computer :=
  { c with awaited := true, loops := c.loops.modify k fun l => { l with stage := .running } }

/-- The computer after a loop of its has left off with an outcome: the loop sleeps, or it has ended
and its program is not playing any more. -/
def leftOff (c : Computer) (k : Nat) (l : PlayLoop) : Except Fault (Option Value) → Computer
  | .ok (some _) => ((Routine.setStage k .suspended).on c).2
  | _ => ((Routine.setStage k .ended).on { c with
      programs := c.programs.modify l.program fun p => { p with playing := false } }).2

/-- The sources that a loop changes when it leaves off with an outcome. -/
def leavingSources (l : PlayLoop) : Except Fault (Option Value) → List Source
  | .ok (some _) => []
  | _ => [.program l.program]

/-- What is answered to whoever has resumed a loop. -/
def handedOver (outcome : Except Fault (Option Value)) : Except Fault Answer :=
  outcome.map fun
    | some delay => .sleep delay
    | none => .ended

/-- A loop that leaves off changes its program if it has ended. -/
theorem leavingSources_eq {k : Nat} {before : Stage} (h : c.stage? k = some before) (l : PlayLoop)
    (outcome : Except Fault (Option Value)) : leavingSources l outcome =
      if (c.leftOff k l outcome).stage? k = some .ended then [.program l.program] else [] := by
  have hended : (c.leftOff k l (.ok none)).stage? k = some .ended :=
    stage?_setStage (c := { c with
      programs := c.programs.modify l.program fun p => { p with playing := false } }) h .ended
  rcases outcome with _ | _ | delay
  · exact (if_pos hended).symm
  · exact (if_pos hended).symm
  · have hasleep : (c.leftOff k l (.ok (some delay))).stage? k = some .suspended :=
      stage?_setStage h .suspended
    rw [hasleep]
    rfl

theorem Noted.fanOut (h : c.Noted d) (source : Source) : d.fanOut source = c.fanOut source := by
  obtain ⟨_, _, _, rfl, -⟩ := h
  rfl

theorem SameAudience.trans {e : Computer} (h : c.SameAudience d) (h' : d.SameAudience e) :
    c.SameAudience e :=
  fun source => (h' source).trans (h source)

theorem Noted.sameAudience (h : c.Noted d) : c.SameAudience d := by
  obtain ⟨_, _, _, rfl, -⟩ := h
  exact fun _ => rfl

theorem sameAudience_modify (c : Computer) (index : Nat) {f : Program → Program}
    (hf : ∀ p, (f p).watchers = p.watchers) :
    c.SameAudience { c with programs := c.programs.modify index f } := by
  intro source
  cases source with
  | program j =>
    show ((c.programs.modify index f)[j]?.map Program.watchers).getD [] = _
    rw [List.getElem?_modify]
    simp only [audience]
    cases c.programs[j]? with
    | none => rfl
    | some q => by_cases hj : index = j <;> simp [hj, hf]
  | _ => rfl

theorem sameAudience_put {index : Nat} {p : Program} (hp : c.programs[index]? = some p)
    (s : Progress) : c.SameAudience (c.put index p s) := by
  have hmodify := sameAudience_modify { c with machine := s.machine } index
    (f := fun q => { q.put s with watchers := q.watchers }) fun _ => rfl
  rw [modify_eq_set hp] at hmodify
  exact hmodify

theorem sameAudience_leftOff (c : Computer) (k : Nat) (l : PlayLoop)
    (outcome : Except Fault (Option Value)) : c.SameAudience (c.leftOff k l outcome) := by
  rcases outcome with _ | _ | _
  · exact sameAudience_modify c l.program fun _ => rfl
  · exact sameAudience_modify c l.program fun _ => rfl
  · exact fun _ => rfl

/-- The machine and its memory show the same, and to the same subscribers, whatever the programs
are. -/
theorem pendingSources_programs (c : Computer) (m : Machine) (programs : List Program) :
    (m.pendingSources t).flatMap { c with programs }.fanOut =
      (m.pendingSources t).flatMap c.fanOut := by
  unfold Machine.pendingSources
  cases m.registers.pending.bind t.lookup with
  | none => rfl
  | some circuit => cases circuit <;> rfl

theorem sources_programs (c : Computer) (s : Progress) (programs : List Program) :
    (s.sources t).flatMap { c with programs }.fanOut = (s.sources t).flatMap c.fanOut := by
  unfold Progress.sources
  split
  · rfl
  · exact pendingSources_programs c s.machine programs

theorem fanOut_program {index : Nat} {p : Program} (hp : c.programs[index]? = some p) :
    c.fanOut (.program index) =
      p.watchers.map fun k => ⟨k, .program index, .program p.view, c.machine⟩ := by
  simp only [fanOut, shown?, audience, hp, Option.map_some, Option.getD_some]

theorem audience_memory {ks : List Nat}
    (h : c.memoryWatchers = .dataRegister :: ks.map .subscriber) : c.audience .memory = ks := by
  rw [audience, h, List.filterMap_cons_none rfl, List.filterMap_map]
  exact List.filterMap_some

theorem fanOut_memory {ks : List Nat}
    (h : c.memoryWatchers = .dataRegister :: ks.map .subscriber) :
    c.fanOut .memory = ks.map fun k => ⟨k, .memory, .memory c.machine.memory, c.machine⟩ := by
  simp only [fanOut, shown?, audience_memory h]

theorem registered_invariant : Invariant (fun _ => True) fun c => c.Watched ∧ c.Registered := by
  refine invariant_of_change fun {c d} h hd => ?_
  obtain ⟨ks, hks⟩ := h
  cases hd with
  | watchMemory k => exact ⟨ks ++ [k], by simp [hks]⟩
  | unwatchMemory k =>
    refine ⟨ks.filter (· ≠ k), ?_⟩
    show c.memoryWatchers.filter _ = _
    rw [hks, List.filter_cons_of_pos (by simp), List.filter_map]
    simp [Function.comp_def]
  | _ => exact ⟨ks, hks⟩

theorem Reachable.registered {B : Conduct → Prop} (hn : 0 < n) (h : c.Reachable w n t B) :
    c.Registered := by
  induction h with
  | idle subscribers bound _ => exact ⟨[], rfl⟩
  | build entries delay _ _ ih => exact ih
  | call command hc ih =>
    exact (registered_invariant.perform ⟨(hc.sound hn).watched, ih⟩ command).2

theorem Reachable.attended (hn : 0 < n) (h : c.Reachable w n t Conduct.Records) :
    c.Attended w n t :=
  ⟨h.sound hn, h.registered hn⟩

namespace Attended

theorem recording (h : c.Attended w n t) : c.Recording := h.sound.conduct

end Attended

end Computer

namespace Routine

open Computer

variable {α β : Type}

/-- From `c` the routine has an outcome and arrives at `d`, what is noted aside, and it gives the
events `es` on the way, in this order. -/
structure Tells (routine : Routine α) (c : Computer) (outcome : Except Fault α) (d : Computer)
    (es : List Event) : Prop where
  outcome : (routine.on c).1 = outcome
  state : d.Noted (routine.on c).2
  events : (routine.on c).2.events = es.reverse ++ c.events

namespace Tells

variable {routine : Routine α} {c d e : Computer} {outcome : Except Fault α} {a : α}
  {es fs : List Event}

theorem pure (a : α) (c : Computer) : Tells (Pure.pure a) c (.ok a) c [] := ⟨rfl, .refl c, rfl⟩

theorem log (record : Record) (c : Computer) : Tells (log record) c (.ok ()) c [] :=
  ⟨rfl, ⟨_, _, _, rfl, rfl⟩, rfl⟩

/-- A routine that gives no event tells of nothing. -/
theorem of_eq (h : routine.on c = (outcome, d)) (he : d.events = c.events) :
    routine.Tells c outcome d [] := by
  refine ⟨by rw [h], ?_, by rw [h, he]; rfl⟩
  rw [h]
  exact .refl d

theorem of_on (other : Routine α) (c' : Computer) (hon : routine.on c = other.on c')
    (he : c'.events = c.events) (h : other.Tells c' outcome d es) : routine.Tells c outcome d es :=
  ⟨by rw [hon]; exact h.outcome, by rw [hon]; exact h.state, by rw [hon, h.events, he]⟩

theorem noted (h : routine.Tells c outcome d es) (hd : e.Noted d) : routine.Tells c outcome e es :=
  ⟨h.outcome, hd.trans h.state, h.events⟩

/-- What follows begins where the routine has left off. -/
theorem bind_at {next : α → Routine β} {final : Except Fault β}
    (h : routine.Tells c (.ok a) d es) (hn : (next a).Tells (routine.on c).2 final e fs) :
    (routine >>= next).Tells c final e (es ++ fs) := by
  have hon : (routine >>= next).on c = (next a).on (routine.on c).2 := by
    rw [on_bind, ← Prod.eta (routine.on c), h.outcome]
  refine ⟨by rw [hon]; exact hn.outcome, by rw [hon]; exact hn.state, ?_⟩
  rw [hon, hn.events, h.events, List.reverse_append, List.append_assoc]

theorem bind {next : α → Routine β} {final : Except Fault β} (h : routine.Tells c (.ok a) d es)
    (hn : ∀ d', d.Noted d' → (next a).Tells d' final e fs) :
    (routine >>= next).Tells c final e (es ++ fs) :=
  h.bind_at (hn _ h.state)

theorem log_bind {record : Record} {next : PUnit → Routine α}
    (hn : ∀ d', c.Noted d' → (next ⟨⟩).Tells d' outcome e es) :
    (Routine.log record >>= next).Tells c outcome e es :=
  (log record c).bind hn

/-- What follows tells of nothing. -/
theorem bind_silent {next : α → Routine β} {final : Except Fault β}
    (h : routine.Tells c (.ok a) d es) (hn : ∀ d', d.Noted d' → (next a).Tells d' final e []) :
    (routine >>= next).Tells c final e es := by
  have hbind := h.bind hn
  rwa [List.append_nil] at hbind

theorem bind_refused {fault : Fault} (h : routine.Tells c (.error fault) d es)
    (next : α → Routine β) : (routine >>= next).Tells c (.error fault) d es := by
  have hon : (routine >>= next).on c = (.error fault, (routine.on c).2) := by
    rw [on_bind, ← Prod.eta (routine.on c), h.outcome]
  exact ⟨by rw [hon], by rw [hon]; exact h.state, by rw [hon]; exact h.events⟩

theorem map (f : α → β) (h : routine.Tells c outcome d es) :
    (routine >>= fun a => Pure.pure (f a)).Tells c (outcome.map f) d es := by
  have hon : (routine >>= fun a => Pure.pure (f a)).on c = _ := on_bind_pure f routine c
  exact ⟨by rw [hon, h.outcome], by rw [hon]; exact h.state, by rw [hon]; exact h.events⟩

theorem attempt (h : routine.Tells c outcome d es) :
    (Routine.attempt routine).Tells c (.ok outcome) d es :=
  ⟨congrArg Except.ok h.outcome, h.state, h.events⟩

theorem ensuring_at {closing : Routine Unit} (h : routine.Tells c outcome d es)
    (hc : closing.Tells (routine.on c).2 (.ok ()) e fs) :
    (Routine.ensuring routine closing).Tells c outcome e (es ++ fs) := by
  have hon : (Routine.ensuring routine closing).on c =
      (outcome, (closing.on (routine.on c).2).2) := by
    rw [on_ensuring, ← Prod.eta (closing.on (routine.on c).2), hc.outcome, h.outcome]
  refine ⟨by rw [hon], by rw [hon]; exact hc.state, ?_⟩
  rw [hon, hc.events, h.events, List.reverse_append, List.append_assoc]

theorem ensuring_silent {closing : Routine Unit} (h : routine.Tells c outcome d es)
    (hc : ∀ d', d.Noted d' → closing.Tells d' (.ok ()) e []) :
    (Routine.ensuring routine closing).Tells c outcome e es := by
  have hensuring := h.ensuring_at (hc _ h.state)
  rwa [List.append_nil] at hensuring

theorem forM {items : List β} {action : β → Routine PUnit} {tells : β → List Event}
    (h : ∀ x ∈ items, ∀ d, c.Noted d → (action x).Tells d (.ok ⟨⟩) d (tells x)) :
    (items.forM action).Tells c (.ok ⟨⟩) c (items.flatMap tells) := by
  induction items generalizing c with
  | nil => exact pure _ c
  | cons x items ih =>
    refine bind (h x List.mem_cons_self c (.refl c)) fun d hd => ?_
    refine (ih fun y hy e he => ?_).noted hd
    exact h y (List.mem_cons_of_mem x hy) e (hd.trans he)

end Tells

section

variable {call : Caller} {c : Computer}

theorem deliver_tells (hr : c.Recording) (source : Source) (notice : Notice) (k : Nat) :
    (deliver call source notice k).Tells c (.ok ()) c [⟨k, source, notice, c.machine⟩] := by
  have harrives : (deliver call source notice k).Arrives c () c :=
    deliver_arrives (fun s hs => (hr s hs).quiet) source notice k
  refine ⟨harrives.recorded hr, harrives.state, ?_⟩
  rw [on_deliver]
  cases hs : c.subscribers[k]? with
  | none => rfl
  | some s =>
    simp only [hr s (List.mem_of_getElem? hs) s.state notice]
    rfl

theorem delivers_tells (hr : c.Recording) (source : Source) (notice : Notice) (ks : List Nat) :
    (ks.forM (deliver call source notice)).Tells c (.ok ()) c
      (ks.map fun k => ⟨k, source, notice, c.machine⟩) := by
  rw [List.map_eq_flatMap]
  refine Tells.forM fun k _ d hd => ?_
  have hdeliver : (deliver call source notice k).Tells d (.ok ()) d _ :=
    deliver_tells (hd.conduct hr) source notice k
  rwa [hd.machine] at hdeliver

theorem notifyMachine_tells (hr : c.Recording) :
    (notifyMachine call).Tells c (.ok ()) c (c.fanOut .machine) :=
  Tells.of_on (c.machineWatchers.forM (deliver call .machine (.machine c.machine))) c rfl rfl
    (delivers_tells hr _ _ c.machineWatchers)

/-- A program shows itself to everyone who is registered with it. -/
theorem on_notifyProgram {index : Nat} {p : Program} (hp : c.programs[index]? = some p) :
    (notifyProgram call index).on c = ((c.audience (.program index)).forM
      (deliver call (.program index) (.program p.view))).on c := by
  rw [notifyProgram, on_program_bind, audience, hp]
  rfl

theorem notifyProgram_tells (hr : c.Recording) {index : Nat} {p : Program}
    (hp : c.programs[index]? = some p) :
    (notifyProgram call index).Tells c (.ok ()) c (c.fanOut (.program index)) := by
  refine Tells.of_on _ c (on_notifyProgram hp) rfl ?_
  rw [fanOut_program hp, audience, hp]
  exact delivers_tells hr _ _ p.watchers

/-- Who is registered with a source is shown it at once. -/
theorem on_observe {source : Source} {notice : Notice} (hs : c.shown? source = some notice)
    (k : Nat) : (observe call source k).on c =
      (deliver call source notice k).on (c.register source k) := by
  cases source with
  | program index =>
    obtain ⟨p, hp, rfl⟩ := Option.map_eq_some_iff.mp hs
    rw [observe, on_program_bind, hp]
    rfl
  | _ =>
    obtain rfl := Option.some.inj hs
    rfl

theorem observe_tells (hr : c.Recording) {source : Source} {notice : Notice}
    (hs : c.shown? source = some notice) (k : Nat) :
    (observe call source k).Tells c (.ok ()) (c.register source k)
      [⟨k, source, notice, c.machine⟩] := by
  have hd : (c.register source k).Recording := by cases source <;> exact hr
  have hmachine : (c.register source k).machine = c.machine := by cases source <;> rfl
  have hdeliver : (deliver call source notice k).Tells _ (.ok ()) _ _ :=
    deliver_tells hd source notice k
  rw [hmachine] at hdeliver
  exact hdeliver.of_on _ _ (on_observe hs k) (by cases source <;> rfl)

variable {w n : Nat} {t : Dispatch}

/-- A write is told first by the machine and then by the memory, each to its own subscribers. -/
theorem on_write_registered {ks : List Nat}
    (hks : c.memoryWatchers = .dataRegister :: ks.map .subscriber) {value address : Value}
    {memory : Memory} (h : c.machine.memory.write value address = .ok memory) :
    (write call value address).on c =
      (notifyMachine call >>= fun _ => ks.forM (deliver call .memory (.memory memory))).on
        { c with machine := (c.machine.setMemory memory).refresh } := by
  have htell : (ks.map Watcher.subscriber).forM (tell call memory) =
      ks.forM (deliver call .memory (.memory memory)) := by
    rw [List.forM_eq_forM, List.forM_map]
    rfl
  rw [on_write hks, h, ← htell]

theorem write_tells (hc : c.Attended w n t) {value address : Value} {memory : Memory}
    (h : c.machine.memory.write value address = .ok memory) :
    let d := { c with machine := (c.machine.setMemory memory).refresh }
    (write call value address).Tells c (.ok ()) d
      ([.machine, .memory].flatMap d.fanOut) := by
  obtain ⟨ks, hks⟩ := hc.registered
  intro d
  have hr : d.Recording := hc.recording
  refine Tells.of_on _ d (on_write_registered hks h) rfl ?_
  rw [List.flatMap_cons, List.flatMap_singleton]
  refine (notifyMachine_tells hr).bind fun e he => ?_
  rw [fanOut_memory (c := d) hks]
  have hdelivers : (ks.forM (deliver call .memory (.memory memory))).Tells e (.ok ()) e _ :=
    delivers_tells (he.conduct hr) .memory (.memory memory) ks
  rw [he.machine] at hdelivers
  exact hdelivers.noted he

theorem write_refused {value address : Value} {fault : Fault}
    (h : c.machine.memory.write value address = .error fault) :
    (write call value address).on c = (.error fault, c) := by
  rw [write, on_get_bind, on_conclude_bind, h]

/-- An operation tells of the sources that it changes. -/
theorem operate_tells (hc : c.Attended w n t) (circuit : Operation) :
    let d := { c with machine := c.machine.operated circuit }
    (operate call circuit).Tells c (.ok ()) d (circuit.sources.flatMap d.fanOut) := by
  intro d
  by_cases h : circuit = .store
  · subst h
    have hwrite : (write call _ _).Tells c (.ok ()) d _ :=
      write_tells hc
        (Memory.write_natCast hc.sound.machine.address_lt c.machine.registers.accumulator)
    exact Tells.of_on _ c (on_operate_store c) rfl hwrite
  · have hsources : circuit.sources = [.machine] := by
      cases circuit with
      | store => exact absurd rfl h
      | _ => rfl
    have hr : d.Recording := hc.recording
    rw [hsources, List.flatMap_singleton]
    exact Tells.of_on _ d (on_operate h c) rfl (notifyMachine_tells hr)

theorem dispatch_tells (hc : c.Attended w n t) {op circuit : Operation}
    (h : t.lookup op = some circuit) :
    let d := { c with machine := c.machine.operated circuit }
    (dispatch call op).Tells c (.ok ()) d (circuit.sources.flatMap d.fanOut) := by
  refine Tells.of_on (operate call circuit) c ?_ rfl (operate_tells hc circuit)
  rw [dispatch, on_get_bind]
  simp only [hc.sound.table, h]

theorem dispatch_refused {op : Operation} (h : c.table.lookup op = none) :
    (dispatch call op).on c = (.error (.noEntry op), c) := by
  rw [dispatch, on_get_bind, h]
  rfl

theorem decode_rejected {v : Value} {fault : Fault} (h : checkInstruction c v = .error fault) :
    (decode call v).on c = (.error fault, c) := by
  rw [decode, on_get_bind, on_conclude_bind, h]

theorem decode_tells (hr : c.Recording) {i : Instruction} (hi : c.machine.Accepts c.table i) :
    let d := { c with machine := c.machine.decoded i }
    (decode call (.instruction i)).Tells c (.ok ()) d (d.fanOut .machine) := by
  intro d
  let record := Record.decoded i d.machine.registers.address d.machine.registers.data
  refine Tells.of_on (log record >>= fun _ => notifyMachine call) d ?_ rfl ?_
  · rw [decode, on_get_bind, on_conclude_bind, checkInstruction_eq_ok.mpr ⟨rfl, hi⟩]
    rfl
  · have hd : d.Recording := hr
    refine Tells.log_bind fun e he => ?_
    have hnotify : (notifyMachine call).Tells e (.ok ()) e (e.fanOut .machine) :=
      notifyMachine_tells (he.conduct hd)
    rw [he.fanOut] at hnotify
    exact hnotify.noted he

/-- Execution tells once of each source that it changes. -/
theorem execute_tells (hc : c.Attended w n t) (h : c.machine.isDecoded = true) :
    let d := { c with machine := c.machine.executed t }
    (execute call).Tells c (.ok ()) d ((c.machine.pendingSources t).flatMap d.fanOut) := by
  obtain ⟨op, hop⟩ := Option.isSome_iff_exists.mp h
  obtain ⟨circuit, hlookup⟩ : ∃ circuit, t.lookup op = some circuit :=
    Option.isSome_iff_exists.mp (hc.sound.machine.pending op hop).2
  have hexecuted : c.machine.executed t = c.machine.consume.operated circuit := by
    simp only [Machine.executed, hop, hlookup]
  have hsources : c.machine.pendingSources t = circuit.sources := by
    simp only [Machine.pendingSources, hop, Option.bind_some, hlookup, Option.elim_some]
  intro d
  let consumed := { c with machine := c.machine.consume }
  have hattended : consumed.Attended w n t :=
    ⟨⟨hc.sound.machine.consume, hc.sound.events, hc.sound.table, hc.sound.watched,
      hc.sound.conduct⟩, hc.registered⟩
  have hdispatch : (dispatch call op).Tells consumed (.ok ()) _ _ :=
    dispatch_tells hattended hlookup
  refine Tells.of_on (dispatch call op >>= fun _ => get >>= fun c =>
    log (.executed op c.machine.registers.accumulator)) consumed ?_ rfl ?_
  · rw [execute, on_get_bind, hop]
    rfl
  · rw [hsources]
    simp only [d, hexecuted]
    refine hdispatch.bind_silent fun e he => Tells.noted ?_ he
    exact Tells.of_on (log (.executed op e.machine.registers.accumulator)) e rfl rfl (.log _ e)

end

end Routine

end Accumulator
