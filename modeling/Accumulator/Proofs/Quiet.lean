import Accumulator.Proofs.Soundness

/-! Quiet computers, whose subscribers make no calls: on a notice they do nothing or fail. Every
routine changes a computer before it gives notice, and after a notice it has nothing left but notes
to take. So where a call arrives does not depend on what fails on the way. -/

namespace Accumulator

/-- On a notice a subscriber does nothing. -/
def Conduct.Records (react : Conduct) : Prop :=
  ∀ state notice, (react state notice).2 = .done

/-- On a notice a subscriber does nothing or fails. -/
def Conduct.Quiet (react : Conduct) : Prop :=
  ∀ state notice, (react state notice).2 = .done ∨ ∃ fault, (react state notice).2 = .fail fault

theorem Conduct.Records.quiet {react : Conduct} (h : react.Records) : Conduct.Quiet react :=
  fun state notice => .inl (h state notice)

namespace Computer

/-- No subscriber does anything on a notice. -/
def Recording (c : Computer) : Prop := ∀ s ∈ c.subscribers, Conduct.Records s.react

/-- No subscriber makes a call on a notice. -/
def Quiet (c : Computer) : Prop := ∀ s ∈ c.subscribers, Conduct.Quiet s.react

/-- What is noted aside, `after` is `before`: the events, the journal and what the subscribers have
in mind may differ. -/
def Noted (before after : Computer) : Prop :=
  ∃ events journal subscribers, after = { before with events, journal, subscribers } ∧
    subscribers.map Subscriber.react = before.subscribers.map Subscriber.react

theorem Noted.refl (c : Computer) : c.Noted c := ⟨_, _, _, rfl, rfl⟩

theorem Noted.trans {c d e : Computer} (h1 : c.Noted d) (h2 : d.Noted e) : c.Noted e := by
  obtain ⟨_, _, subscribers1, rfl, hr1⟩ := h1
  obtain ⟨events, journal, subscribers2, rfl, hr2⟩ := h2
  exact ⟨events, journal, subscribers2, rfl, hr2.trans hr1⟩

theorem conduct_of_react {B : Conduct → Prop} {ss rs : List Subscriber}
    (h : rs.map Subscriber.react = ss.map Subscriber.react) (hs : ∀ s ∈ ss, B s.react) :
    ∀ s ∈ rs, B s.react := by
  intro s hr
  have hmem : s.react ∈ ss.map Subscriber.react := by
    rw [← h]
    exact List.mem_map_of_mem hr
  obtain ⟨r, hrs, heq⟩ := List.mem_map.mp hmem
  rw [← heq]
  exact hs r hrs

theorem react_modify (ss : List Subscriber) (j state : Nat) :
    (ss.modify j fun s => { s with state }).map Subscriber.react = ss.map Subscriber.react := by
  apply List.ext_getElem?
  intro k
  rw [List.getElem?_map, List.getElem?_modify, List.getElem?_map]
  cases ss[k]? with
  | none => rfl
  | some s => by_cases h : j = k <;> simp [h]

theorem Noted.conduct {B : Conduct → Prop} {c d : Computer} (h : c.Noted d)
    (hc : ∀ s ∈ c.subscribers, B s.react) : ∀ s ∈ d.subscribers, B s.react := by
  obtain ⟨_, _, _, rfl, hr⟩ := h
  exact conduct_of_react hr hc

theorem Noted.machine {c d : Computer} (h : c.Noted d) : d.machine = c.machine := by
  obtain ⟨_, _, _, rfl, -⟩ := h
  rfl

theorem Noted.programs {c d : Computer} (h : c.Noted d) : d.programs = c.programs := by
  obtain ⟨_, _, _, rfl, -⟩ := h
  rfl

end Computer

namespace Routine

open Computer

variable {α β : Type}

/-- From `c` the routine arrives at `d`, what is noted aside. It is answered `a`, unless a
subscriber fails. -/
structure Arrives (routine : Routine α) (c : Computer) (a : α) (d : Computer) : Prop where
  state : d.Noted (routine.on c).2
  answer : (routine.on c).1 = .ok a ∨ ∃ fault, (routine.on c).1 = .error fault
  recorded : c.Recording → (routine.on c).1 = .ok a
  subscribers : d.subscribers = c.subscribers

namespace Arrives

variable {routine : Routine α} {c d e : Computer} {a : α} {b : β}

theorem pure (a : α) (c : Computer) : Arrives (Pure.pure a) c a c :=
  ⟨.refl c, .inl rfl, fun _ => rfl, rfl⟩

theorem of_on (other : Routine α) (c' : Computer) (hon : routine.on c = other.on c')
    (hs : c'.subscribers = c.subscribers) (h : other.Arrives c' a d) : routine.Arrives c a d := by
  refine ⟨by rw [hon]; exact h.state, by rw [hon]; exact h.answer, fun hc => ?_,
    h.subscribers.trans hs⟩
  rw [hon]
  exact h.recorded fun s hmem => hc s (hs ▸ hmem)

/-- What follows on an arrival and changes nothing may be left out. -/
theorem bind {next : α → Routine β} (h : Arrives routine c a d)
    (hn : ∀ d', d.Noted d' → (next a).Arrives d' b d') : Arrives (routine >>= next) c b d := by
  have hs := h.state
  rcases hout : routine.on c with ⟨fault | a', d'⟩ <;> rw [hout] at hs
  · have hon : (routine >>= next).on c = (.error fault, d') := by rw [on_bind, hout]
    refine ⟨by rwa [hon], .inr ⟨fault, by rw [hon]⟩, fun hc => ?_, h.subscribers⟩
    have := h.recorded hc
    rw [hout] at this
    cases this
  · have ha : a' = a := by
      rcases h.answer with ha | ⟨fault, ha⟩ <;> rw [hout] at ha
      · exact Except.ok.inj ha
      · cases ha
    have hon : (routine >>= next).on c = (next a).on d' := by rw [on_bind, hout, ha]
    have hnext := hn d' hs
    refine ⟨?_, by rw [hon]; exact hnext.answer, fun hc => ?_, h.subscribers⟩
    · rw [hon]
      exact hs.trans hnext.state
    · rw [hon]
      exact hnext.recorded (hs.conduct (h.subscribers ▸ hc))

theorem ensuring {closing : Routine Unit} (h : Arrives routine c a d)
    (hc : ∀ d', d.Noted d' → (closing.on d').1 = .ok () ∧ e.Noted (closing.on d').2)
    (he : e.subscribers = d.subscribers) : Arrives (ensuring routine closing) c a e := by
  obtain ⟨hok, hnoted⟩ := hc _ h.state
  have hon : (Routine.ensuring routine closing).on c =
      ((routine.on c).1, (closing.on (routine.on c).2).2) := by
    rw [on_ensuring]
    split
    · rename_i after hafter
      rw [hafter]
    · rename_i fault after hafter
      rw [hafter] at hok
      cases hok
  refine ⟨by rw [hon]; exact hnoted, ?_, fun hr => ?_, he.trans h.subscribers⟩
  · rw [hon]
    exact h.answer
  · rw [hon]
    exact h.recorded hr

theorem forM {items : List β} {action : β → Routine PUnit} (hc : c.Quiet)
    (h : ∀ x ∈ items, ∀ d, c.Noted d → (action x).Arrives d ⟨⟩ d) :
    Arrives (items.forM action) c ⟨⟩ c := by
  induction items generalizing c with
  | nil => exact pure _ c
  | cons x items ih =>
    refine bind (h x List.mem_cons_self c (.refl c)) fun d hd => ih (hd.conduct hc) ?_
    exact fun y hy e he => h y (List.mem_cons_of_mem x hy) e (hd.trans he)

end Arrives

section

variable {call : Caller} {c : Computer}

theorem on_deliver (source : Source) (notice : Notice) (subscriber : Nat) (c : Computer) :
    (deliver call source notice subscriber).on c =
      match c.subscribers[subscriber]? with
      | none =>
        (.ok (), { c with events := ⟨subscriber, source, notice, c.machine⟩ :: c.events })
      | some s =>
        (react call (s.react s.state notice).2).on
          { c with
            events := ⟨subscriber, source, notice, c.machine⟩ :: c.events
            subscribers := c.subscribers.modify subscriber fun r =>
              { r with state := (s.react s.state notice).1 } } := by
  rw [deliver, on_modify_bind, on_get_bind]
  cases c.subscribers[subscriber]? <;> rfl

theorem deliver_arrives (hc : c.Quiet) (source : Source) (notice : Notice) (subscriber : Nat) :
    (deliver call source notice subscriber).Arrives c () c := by
  have hon : (deliver call source notice subscriber).on c = _ :=
    on_deliver source notice subscriber c
  cases hs : c.subscribers[subscriber]? with
  | none =>
    rw [hs] at hon
    exact ⟨⟨_, _, _, by rw [hon], rfl⟩, .inl (by rw [hon]), fun _ => by rw [hon], rfl⟩
  | some s =>
    rw [hs] at hon
    have hmem := List.mem_of_getElem? hs
    have hreact := react_modify c.subscribers subscriber (s.react s.state notice).1
    dsimp only at hon
    rcases hc s hmem s.state notice with h | ⟨fault, h⟩
    · rw [h] at hon
      exact ⟨⟨_, _, _, by rw [hon]; rfl, hreact⟩, .inl (by rw [hon]; rfl),
        fun _ => by rw [hon]; rfl, rfl⟩
    · rw [h] at hon
      refine ⟨⟨_, _, _, by rw [hon]; rfl, hreact⟩, .inr ⟨fault, by rw [hon]; rfl⟩, fun hr => ?_,
        rfl⟩
      have := hr s hmem s.state notice
      rw [h] at this
      cases this

theorem notifyMachine_arrives (hc : c.Quiet) : (notifyMachine call).Arrives c () c :=
  Arrives.of_on (c.machineWatchers.forM (deliver call .machine (.machine c.machine))) c rfl rfl
    (Arrives.forM hc fun subscriber _ _ hd => deliver_arrives (hd.conduct hc) _ _ subscriber)

theorem notifyProgram_arrives (hc : c.Quiet) {index : Nat} {p : Program}
    (hp : c.programs[index]? = some p) : (notifyProgram call index).Arrives c () c := by
  refine Arrives.of_on (p.watchers.forM (deliver call (.program index) (.program p.view))) c ?_ rfl
    (Arrives.forM hc fun subscriber _ _ hd => deliver_arrives (hd.conduct hc) _ _ subscriber)
  rw [notifyProgram, on_program_bind, hp]

theorem tell_arrives (hc : c.Quiet) (hfresh : c.machine.refresh = c.machine) (memory : Memory)
    (watcher : Watcher) : (tell call memory watcher).Arrives c () c := by
  cases watcher with
  | dataRegister =>
    refine Arrives.of_on (notifyMachine call) c ?_ rfl (notifyMachine_arrives hc)
    rw [tell, on_modifyMachine_bind, hfresh]
  | subscriber index => exact deliver_arrives hc _ _ index

theorem write_arrives (hc : c.Quiet) (hw : ∃ rest, c.memoryWatchers = .dataRegister :: rest)
    {value address : Value} {memory : Memory}
    (h : c.machine.memory.write value address = .ok memory) :
    (write call value address).Arrives c ()
      { c with machine := (c.machine.setMemory memory).refresh } := by
  obtain ⟨rest, hw⟩ := hw
  let d := { c with machine := (c.machine.setMemory memory).refresh }
  have hd : d.Quiet := hc
  refine Arrives.of_on (notifyMachine call >>= fun _ => rest.forM (tell call memory)) d ?_ rfl ?_
  · rw [on_write hw, h]
  · refine Arrives.bind (notifyMachine_arrives hd) fun e he => ?_
    refine Arrives.forM (he.conduct hd) fun watcher _ f hf => ?_
    have hnoted := he.trans hf
    exact tell_arrives (hnoted.conduct hd) (by rw [hnoted.machine]; rfl) memory watcher

variable {w n : Nat} {t : Dispatch} {B : Conduct → Prop}

/-- An operation arrives with the machine operated: the selected cell of a sound machine can be
written. -/
theorem operate_arrives (hc : c.Quiet) (hs : c.Sound w n t B) (circuit : Operation) :
    (operate call circuit).Arrives c () { c with machine := c.machine.operated circuit } := by
  by_cases h : circuit = .store
  · subst h
    exact Arrives.of_on _ c (on_operate_store c) rfl
      (write_arrives hc hs.watched (Memory.write_natCast hs.machine.address_lt _))
  · exact Arrives.of_on _ _ (on_operate h c) rfl (notifyMachine_arrives hc)

theorem dispatch_arrives (hc : c.Quiet) (hs : c.Sound w n t B) {op circuit : Operation}
    (h : t.lookup op = some circuit) :
    (dispatch call op).Arrives c () { c with machine := c.machine.operated circuit } := by
  refine Arrives.of_on (operate call circuit) c ?_ rfl
    (operate_arrives hc hs circuit)
  rw [dispatch, on_get_bind]
  simp only [hs.table, h]

theorem decode_arrives (hc : c.Quiet) {i : Instruction} (hi : c.machine.Accepts c.table i) :
    (decode call (.instruction i)).Arrives c () { c with machine := c.machine.decoded i } := by
  let d := { c with machine := c.machine.decoded i }
  have hd : d.Quiet := hc
  let record := Record.decoded i d.machine.registers.address d.machine.registers.data
  refine Arrives.of_on (log record >>= fun _ => notifyMachine call) d ?_ rfl ?_
  · rw [decode, on_get_bind, on_conclude_bind, checkInstruction_eq_ok.mpr ⟨rfl, hi⟩]
    rfl
  · have hlog : (log record).Arrives d () d := ⟨⟨_, _, _, rfl, rfl⟩, .inl rfl, fun _ => rfl, rfl⟩
    exact hlog.bind fun e he => notifyMachine_arrives (he.conduct hd)

/-- What is pending in a sound machine has an entry in the table, so that its execution arrives. -/
theorem execute_arrives (hc : c.Quiet) (hs : c.Sound w n t B) (h : c.machine.isDecoded = true) :
    (execute call).Arrives c () { c with machine := c.machine.executed t } := by
  obtain ⟨op, hop⟩ := Option.isSome_iff_exists.mp h
  obtain ⟨circuit, hcircuit⟩ := Option.isSome_iff_exists.mp (hs.machine.pending op hop).2
  have hexecuted : c.machine.executed t = c.machine.consume.operated circuit := by
    have hlookup : t.lookup op = some circuit := hcircuit
    simp only [Machine.executed, hop, hlookup]
  let d := { c with machine := c.machine.consume }
  have hd : d.Quiet := hc
  have hsound : d.Sound w n t B :=
    ⟨hs.machine.consume, hs.events, hs.table, hs.watched, hs.conduct⟩
  refine Arrives.of_on (dispatch call op >>= fun _ => get >>= fun c =>
    log (.executed op c.machine.registers.accumulator)) d ?_ rfl ?_
  · rw [execute, on_get_bind, hop]
    rfl
  · rw [hexecuted]
    refine (dispatch_arrives hd hsound hcircuit).bind fun e _ => ?_
    exact ⟨⟨_, _, _, rfl, rfl⟩, .inl rfl, fun _ => rfl, rfl⟩

end

end Routine

end Accumulator
