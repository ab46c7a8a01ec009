import Accumulator.Proofs.Hearing

/-! Changes and the notices of them. A call changes one source after the other, and after each
change it tells those who are registered before it makes the next one. Whoever is told may call in
turn. So what holds whenever a call begins, and is restored by the telling after each change, holds
after every call. -/

namespace Accumulator

/-- The reaction makes only calls in `C`, and does not fail. -/
def Reaction.Unfailing (C : Command → Prop) : Reaction → Prop
  | .done => True
  | .fail _ => False
  | .call command next => C command ∧ ∀ outcome, (next outcome).Unfailing C

/-- Whatever a subscriber is told, it makes only calls in `C`, and does not fail. -/
def Conduct.Unfailing (C : Command → Prop) (react : Conduct) : Prop :=
  ∀ state notice, (react state notice).2.Unfailing C

/-- The entries of the trace in which nothing was executed. -/
def Program.idleEntries (p : Program) : Nat := p.trace.countP fun e => !e.pre.isDecoded

/-- The phases of a step that are over. -/
def Phase.over : Phase → Nat
  | .fetch => 0
  | .decoded => 1

/-- How far a program has come that shows itself so: the instructions that it has got, and the
phases that it has gone through. -/
def ProgramView.age (v : ProgramView) : Nat := v.instructions.length + 2 * v.counter + v.phase.over

/-- The age of what a notice shows. A memory or a machine has none. -/
def Notice.age : Notice → Nat
  | .program v => v.age
  | _ => 0

theorem Phase.over_le (phase : Phase) : phase.over ≤ 1 := by cases phase <;> decide

namespace Program

/-- A program only gets older. -/
structure Ages (p q : Program) : Prop where
  idle : p.idleEntries ≤ q.idleEntries
  age : p.view.age ≤ q.view.age

theorem ages_insertAt (p : Program) (n : Nat) (i : Instruction) : p.Ages (p.insertAt n i) := by
  refine ⟨Nat.le_refl _, ?_⟩
  have hlength : p.instructions.length ≤ (p.instructions.insertIdx n i).length := by
    rw [List.length_insertIdx]
    split <;> omega
  have hcounter : p.counter ≤ (p.insertAt n i).counter := by
    simp only [insertAt]
    split <;> omega
  exact Nat.add_le_add_right (Nat.add_le_add hlength (Nat.mul_le_mul_left 2 hcounter)) _

theorem ages_decoded (p : Program) : p.Ages { p with phase := .decoded } :=
  ⟨Nat.le_refl _, Nat.add_le_add_left p.phase.over_le _⟩

theorem ages_advance (p : Program) (i : Instruction) (pre post : Machine) :
    p.Ages (p.advance i pre post) := by
  constructor
  · rw [idleEntries, advance, idleEntries, List.countP_append]
    exact Nat.le_add_right _ _
  · have hphase := p.phase.over_le
    show p.instructions.length + 2 * p.counter + p.phase.over ≤
      p.instructions.length + 2 * (p.counter + 1) + Phase.over .fetch
    omega

end Program

namespace Computer

/-- The entries of a program's trace in which nothing was executed. -/
def idleEntries (c : Computer) : Source → Nat
  | .program index => (c.programs[index]?.map Program.idleEntries).getD 0
  | _ => 0

/-- How far a source has come. -/
def age (c : Computer) (source : Source) : Nat := ((c.shown? source).map Notice.age).getD 0

/-- From `c` to `d` nobody is told anything, and only sources that have changed show it. -/
structure Unheard (changed : Source → Prop) (c d : Computer) : Prop where
  events : d.events = c.events
  subscribers : d.subscribers = c.subscribers
  shown : ∀ source, ¬ changed source → d.shown? source = c.shown? source
  idle : ∀ source, c.idleEntries source ≤ d.idleEntries source
  age : ∀ source, c.age source ≤ d.age source

/-- From `c` to `d`, moreover, nobody registers or is removed. -/
structure Untold (changed : Source → Prop) (c d : Computer) : Prop
    extends Unheard changed c d where
  watchers : d.memoryWatchers = c.memoryWatchers
  audience : c.SameAudience d

variable {w n : Nat} {t : Dispatch} {B : Conduct → Prop} {c d : Computer}

namespace Unheard

theorem aside (c : Computer) (memoryWatchers : List Watcher) (machineWatchers : List Nat)
    (loops : List PlayLoop) (journal : List Record) (awaited : Bool) :
    c.Unheard (fun _ => False)
      { c with memoryWatchers, machineWatchers, loops, journal, awaited } where
  events := rfl
  subscribers := rfl
  shown source _ := by cases source <;> rfl
  idle source := by cases source <;> exact Nat.le_refl _
  age source := by cases source <;> exact Nat.le_refl _

theorem stored (c : Computer) (m : Machine) :
    c.Unheard (fun source => source = .machine ∨ source = .memory) { c with machine := m } where
  events := rfl
  subscribers := rfl
  shown source hsource := by
    cases source with
    | program j => rfl
    | machine => exact absurd (.inl rfl) hsource
    | memory => exact absurd (.inr rfl) hsource
  idle source := by cases source <;> exact Nat.le_refl _
  age source := by cases source <;> exact Nat.le_refl _

/-- The registers have changed. -/
theorem worked {m : Machine} (hm : m.memory = c.machine.memory) :
    c.Unheard (· = .machine) { c with machine := m } where
  events := rfl
  subscribers := rfl
  shown source hsource := by
    cases source with
    | memory => exact congrArg (fun m => some (Notice.memory m)) hm
    | machine => exact absurd rfl hsource
    | program j => rfl
  idle := (stored c m).idle
  age := (stored c m).age

theorem program (j : Nat) {f : Program → Program} (hf : ∀ p : Program, p.Ages (f p)) :
    c.Unheard (· = .program j) { c with programs := c.programs.modify j f } where
  events := rfl
  subscribers := rfl
  shown source hsource := by
    cases source with
    | program k =>
      have hjk : j ≠ k := fun h => hsource (h ▸ rfl)
      show (c.programs.modify j f)[k]?.map _ = _
      rw [List.getElem?_modify_ne f _ hjk]
      rfl
    | _ => rfl
  idle source := by
    cases source with
    | program k =>
      show _ ≤ ((c.programs.modify j f)[k]?.map Program.idleEntries).getD 0
      rw [List.getElem?_modify, idleEntries]
      cases c.programs[k]? with
      | none => exact Nat.le_refl _
      | some p =>
        by_cases hj : j = k
        · simpa [hj] using (hf p).idle
        · simp [hj]
    | _ => exact Nat.le_refl _
  age source := by
    cases source with
    | program k =>
      show _ ≤ (((c.programs.modify j f)[k]?.map fun p => Notice.program p.view).map _).getD 0
      rw [List.getElem?_modify, Computer.age, shown?]
      cases c.programs[k]? with
      | none => exact Nat.le_refl _
      | some p =>
        by_cases hj : j = k
        · simpa [hj, Notice.age] using (hf p).age
        · simp [hj]
    | _ => exact Nat.le_refl _

/-- A program is marked in a way that it does not show. -/
theorem marked (j : Nat) {f : Program → Program} (hview : ∀ p, (f p).view = p.view)
    (htrace : ∀ p, (f p).trace = p.trace) :
    c.Unheard (fun _ => False) { c with programs := c.programs.modify j f } := by
  have hf (p : Program) : p.Ages (f p) :=
    ⟨by rw [Program.idleEntries, Program.idleEntries, htrace], by rw [hview]⟩
  have h := program (c := c) j hf
  refine ⟨h.events, h.subscribers, fun source _ => ?_, h.idle, h.age⟩
  cases source with
  | program k =>
    show (c.programs.modify j f)[k]?.map _ = c.programs[k]?.map _
    rw [List.getElem?_modify]
    cases c.programs[k]? with
    | none => rfl
    | some p => by_cases hj : j = k <;> simp [hj, hview]
  | _ => rfl

theorem registered (c : Computer) (source : Source) (k : Nat) :
    c.Unheard (fun _ => False) (c.register source k) := by
  cases source with
  | program j => exact marked j (fun _ => rfl) fun _ => rfl
  | _ => exact aside c _ _ _ _ _

theorem removed (c : Computer) (source : Source) (k : Nat) :
    c.Unheard (fun _ => False) ((Routine.unobserve source k).on c).2 := by
  cases source with
  | program j =>
    rw [Routine.unobserve, Routine.on_program_bind]
    cases c.programs[j]? with
    | none => exact aside c _ _ _ _ _
    | some p => exact marked j (fun _ => rfl) fun _ => rfl
  | _ => exact aside c _ _ _ _ _

end Unheard

namespace Untold

variable {changed : Source → Prop}

theorem mono {other : Source → Prop} (h : c.Untold changed d)
    (hchanged : ∀ source, changed source → other source) : c.Untold other d where
  toUnheard := ⟨h.events, h.subscribers,
    fun source hsource => h.shown source fun hc => hsource (hchanged source hc), h.idle, h.age⟩
  watchers := h.watchers
  audience := h.audience

theorem aside (c : Computer) (loops : List PlayLoop) (journal : List Record) (awaited : Bool) :
    c.Untold (fun _ => False) { c with loops, journal, awaited } where
  toUnheard := .aside c _ _ _ _ _
  watchers := rfl
  audience _ := rfl

theorem refl (c : Computer) : c.Untold (fun _ => False) c := aside c c.loops c.journal c.awaited

theorem stored (c : Computer) (m : Machine) :
    c.Untold (fun source => source = .machine ∨ source = .memory) { c with machine := m } where
  toUnheard := .stored c m
  watchers := rfl
  audience source := by cases source <;> rfl

theorem worked {m : Machine} (hm : m.memory = c.machine.memory) :
    c.Untold (· = .machine) { c with machine := m } where
  toUnheard := .worked hm
  watchers := rfl
  audience := (stored c m).audience

theorem marked (j : Nat) {f : Program → Program} (hf : ∀ p, (f p).watchers = p.watchers)
    (hview : ∀ p, (f p).view = p.view) (htrace : ∀ p, (f p).trace = p.trace) :
    c.Untold (fun _ => False) { c with programs := c.programs.modify j f } where
  toUnheard := .marked j hview htrace
  watchers := rfl
  audience := sameAudience_modify c j hf

theorem program (j : Nat) {f : Program → Program} (hf : ∀ p, (f p).watchers = p.watchers)
    (hages : ∀ p : Program, p.Ages (f p)) :
    c.Untold (· = .program j) { c with programs := c.programs.modify j f } where
  toUnheard := .program j hages
  watchers := rfl
  audience := sameAudience_modify c j hf

end Untold

theorem modify_missing {α : Type} {items : List α} {j : Nat} (h : items[j]? = none) (f : α → α) :
    items.modify j f = items :=
  List.modify_eq_self (List.getElem?_eq_none_iff.mp h)

theorem shown_program {j : Nat} {p : Program} (hp : c.programs[j]? = some p) :
    (c.shown? (.program j)).isSome = true := by
  rw [shown?, hp]
  rfl

theorem Sound.withMachine (h : c.Sound w n t B) {m : Machine} (hm : m.Sound w n t) :
    Sound w n t B { c with machine := m } :=
  ⟨hm, h.events, h.table, h.watched, h.conduct⟩

theorem change_register (N : Notice → Prop) (c : Computer) (source : Source) (k : Nat) :
    c.Change N (c.register source k) := by
  cases source with
  | memory => exact .watchMemory k
  | machine => exact .watchMachine k
  | program j => exact .program j _ fun p _ => .watch k

theorem Sound.register (h : c.Sound w n t B) (source : Source) (k : Nat) :
    (c.register source k).Sound w n t B :=
  Sound.invariant.change h (change_register _ c source k)

theorem Registered.register (h : c.Registered) (hw : c.Watched) (source : Source) (k : Nat) :
    (c.register source k).Registered :=
  (registered_invariant.change ⟨hw, h⟩ (change_register _ c source k)).2

theorem Sound.shown (h : c.Sound w n t B) {source : Source} {notice : Notice}
    (hs : c.shown? source = some notice) : notice.Sound w n t := by
  cases source with
  | memory => exact Option.some.inj hs ▸ h.machine.memory
  | machine => exact Option.some.inj hs ▸ h.machine
  | program j =>
    obtain ⟨p, -, rfl⟩ := Option.map_eq_some_iff.mp hs
    trivial

end Computer

namespace Routine

open Computer

variable {α β : Type}

/-- From `P` the routine answers where `Q` holds, or it is refused where `E` holds. -/
def Meets (P Q E : Computer → Prop) (routine : Routine α) : Prop :=
  ∀ c, P c → match routine.on c with
    | (.ok _, d) => Q d
    | (.error _, d) => E d

namespace Meets

variable {P Q R E F : Computer → Prop} {routine : Routine α}

/-- It is enough to look at one computer. -/
theorem here {c : Computer} (h : match routine.on c with
    | (.ok _, d) => Q d
    | (.error _, d) => E d) : Meets (· = c) Q E routine := fun _ hc => hc ▸ h

theorem strengthen {P' : Computer → Prop} (h : Meets P Q E routine) (hP : ∀ c, P' c → P c) :
    Meets P' Q E routine :=
  fun c hc => h c (hP c hc)

theorem of_eq {c : Computer} (h : Meets P Q E routine) (hc : P c) : Meets (· = c) Q E routine :=
  h.strengthen fun _ hd => hd ▸ hc

theorem pure (a : α) : Meets P P E (Pure.pure a) := fun _ hc => hc

theorem modify {f : Computer → Computer} (h : ∀ c, P c → Q (f c)) :
    Meets P Q E (modify f : Routine PUnit) := h

theorem bind {next : α → Routine β} (h : Meets P Q E routine) (hn : ∀ a, Meets Q R E (next a)) :
    Meets P R E (routine >>= next) := by
  intro c hc
  have hr := h c hc
  rw [on_bind]
  rcases hout : routine.on c with ⟨_ | a, d⟩ <;> rw [hout] at hr
  · exact hr
  · exact hn a d hr

theorem get_bind {next : Computer → Routine β} (h : ∀ c, P c → Meets (· = c) Q E (next c)) :
    Meets P Q E (get >>= next) := fun c hc => h c hc c rfl

/-- What closes a routine comes after an answer and after a refusal, and is not refused itself. -/
theorem ensuring {closing : Routine Unit} (h : Meets P Q E routine)
    (hQ : Meets Q R (fun _ => False) closing) (hE : Meets E F (fun _ => False) closing) :
    Meets P R F (Routine.ensuring routine closing) := by
  intro c hc
  have hr := h c hc
  rw [on_ensuring]
  rcases hout : routine.on c with ⟨fault | a, d⟩ <;> rw [hout] at hr
  · have hclose := hE d hr
    rcases hend : closing.on d with ⟨_ | _, e⟩ <;> rw [hend] at hclose
    · exact hclose.elim
    · exact hclose
  · have hclose := hQ d hr
    rcases hend : closing.on d with ⟨_ | _, e⟩ <;> rw [hend] at hclose
    · exact hclose.elim
    · exact hclose

theorem after (h : Meets P Q Q routine) {c : Computer} (hc : P c) : Q (routine.on c).2 := by
  have hr := h c hc
  rcases hout : routine.on c with ⟨_ | _, d⟩ <;> rw [hout] at hr <;> exact hr

theorem forM {items : List β} {action : β → Routine PUnit}
    (h : ∀ x ∈ items, Meets P P E (action x)) : Meets P P E (items.forM action) := by
  induction items with
  | nil => exact pure _
  | cons x items ih =>
    exact bind (h x List.mem_cons_self) fun _ => ih fun y hy => h y (List.mem_cons_of_mem x hy)

theorem unrefused (h : Meets P Q (fun _ => False) routine) : Meets P Q E routine := by
  intro c hc
  have hr := h c hc
  rcases hout : routine.on c with ⟨_ | _, d⟩ <;> rw [hout] at hr
  · exact hr.elim
  · exact hr

end Meets

theorem Keeps.meets {P : Computer → Prop} {routine : Routine α} (h : Keeps P routine) :
    Meets P P P routine := by
  intro c hc
  have hr := h c hc
  rcases hout : routine.on c with ⟨_ | _, d⟩ <;> rw [hout] at hr <;> exact hr

/-- Whoever makes only calls that keep a property, and does not fail, comes to an end there. -/
theorem meets_react {P : Computer → Prop} {call : Caller} {C : Command → Prop}
    (hcall : ∀ command, C command → Keeps P (call command)) {reaction : Reaction}
    (h : reaction.Unfailing C) : Meets P P (fun _ => False) (react call reaction) := by
  induction reaction with
  | done => exact .pure _
  | fail fault => exact h.elim
  | call command next ih =>
    refine Meets.bind (Q := P) (fun c hc => ?_) fun outcome => ih outcome (h.2 outcome)
    rw [on_attempt]
    exact hcall command h.1 c hc

end Routine

open Routine Computer

/-- `Φ` holds whenever a call begins, and `Ψ` of a source when the source has changed and is about
to tell. The subscribers act as `B` allows, and register as `C` allows. -/
structure Tidings (w n : Nat) (t : Dispatch) (B : Conduct → Prop) (C : Command → Prop)
    (call : Caller) (Φ : Computer → Prop) (Ψ : Source → Computer → Prop) : Prop where
  sound : ∀ {c}, Φ c → c.Sound w n t B
  soundly : ∀ {source c}, Ψ source c → c.Sound w n t B
  registered : ∀ {source c}, Ψ source c → c.Registered
  shown : ∀ {source c}, Ψ source c → (c.shown? source).isSome = true
  aside : ∀ {c d}, Φ c → c.Untold (fun _ => False) d → d.Sound w n t B → Φ d
  change : ∀ {source c d}, Φ c → c.Untold (· = source) d → d.Sound w n t B →
    (d.shown? source).isSome = true → Ψ source d
  further : ∀ {source c d}, Ψ source c → c.Untold (· = source) d → d.Sound w n t B →
    (d.shown? source).isSome = true → Ψ source d
  idle : ∀ {j c d}, Φ c → c.Untold (· = .program j) d → d.Sound w n t B →
    c.idleEntries (.program j) < d.idleEntries (.program j) → Φ d
  audience : ∀ {source c notice}, Ψ source c → c.shown? source = some notice →
    Meets (· = c) Φ (fun _ => False) ((c.audience source).forM (deliver call source notice))
  stored : ∀ {c d}, Ψ .machine c → c.Untold (fun source => source = .machine ∨ source = .memory) d →
    d.Sound w n t B → Meets (· = d) Φ (fun _ => False) (do
      notifyMachine call
      (d.audience .memory).forM (deliver call .memory (.memory d.machine.memory)))
  register : ∀ {source k c notice}, C (.observe source k) → Φ c → c.shown? source = some notice →
    Meets (· = c.register source k) Φ (fun _ => False) (deliver call source notice k)
  unobserve : ∀ source k, Keeps Φ (unobserve source k)

namespace Tidings

variable {w n : Nat} {t : Dispatch} {B : Conduct → Prop} {C : Command → Prop} {call : Caller}
  {Φ : Computer → Prop} {Ψ : Source → Computer → Prop} (T : Tidings w n t B C call Φ Ψ)
include T

section Aside

theorem unchanged {c : Computer} (hc : Φ c) {source : Source}
    (hsource : (c.shown? source).isSome = true) : Ψ source c :=
  T.change hc ((Untold.refl c).mono nofun) (T.sound hc) hsource

theorem further_aside {source : Source} {c d : Computer} (hc : Ψ source c)
    (h : c.Untold (fun _ => False) d) (hd : d.Sound w n t B) : Ψ source d :=
  T.further hc (h.mono nofun) hd (by rw [h.shown source nofun]; exact T.shown hc)

theorem keeps_log (record : Record) : Keeps Φ (log record) := fun c hc =>
  T.aside hc (.aside c _ _ _) (Sound.invariant.keeps_log record c (T.sound hc))

theorem further_log {source : Source} (record : Record) :
    Meets (Ψ source) (Ψ source) (fun _ => False) (log record) :=
  .modify fun c hc =>
    T.further_aside hc (.aside c _ _ _) (Sound.invariant.keeps_log record c (T.soundly hc))

theorem keeps_setAwaited (awaited : Bool) : Keeps Φ (setAwaited awaited) := fun c hc =>
  T.aside hc (.aside c _ _ _) (Sound.invariant.keeps_setAwaited awaited c (T.sound hc))

theorem keeps_setStage (k : Nat) (stage : Stage) : Keeps Φ (setStage k stage) := fun c hc =>
  T.aside hc (.aside c _ _ _) (Sound.invariant.keeps_setStage k stage c (T.sound hc))

theorem keeps_makeLoop (j : Nat) (delay : Value) : Keeps Φ (makeLoop j delay) :=
  Keeps.program_bind fun c _ hc _ =>
    T.aside hc (.aside c _ _ _) ⟨(T.sound hc).machine, (T.sound hc).events, (T.sound hc).table,
      (T.sound hc).watched, (T.sound hc).conduct⟩

theorem keeps_setStepping (j : Nat) (stepping : Bool) : Keeps Φ (setStepping j stepping) :=
  fun _ hc => T.aside hc (.marked j (fun _ => rfl) (fun _ => rfl) fun _ => rfl)
    ((T.sound hc).withPrograms _)

theorem further_setStepping {source : Source} (j : Nat) (stepping : Bool) :
    Meets (Ψ source) (Ψ source) (fun _ => False) (setStepping j stepping) :=
  .modify fun _ hc => T.further_aside hc
    (.marked j (fun _ => rfl) (fun _ => rfl) fun _ => rfl) ((T.soundly hc).withPrograms _)

/-- A program changes what it shows. -/
theorem change_program {j : Nat} {c : Computer} {p : Program} (hc : Φ c)
    (hp : c.programs[j]? = some p) {f : Program → Program} (hf : ∀ p, (f p).watchers = p.watchers)
    (hages : ∀ p : Program, p.Ages (f p)) :
    Ψ (.program j) { c with programs := c.programs.modify j f } :=
  T.change hc (.program j hf hages) ((T.sound hc).withPrograms _)
    (shown_program (modify_getElem? hp f))

end Aside

section Telling

theorem machine : Meets (Ψ .machine) Φ (fun _ => False) (notifyMachine call) :=
  fun c hc => T.audience hc rfl c rfl

theorem program (j : Nat) : Meets (Ψ (.program j)) Φ (fun _ => False) (notifyProgram call j) := by
  intro c hc
  obtain ⟨p, hp⟩ : ∃ p, c.programs[j]? = some p := by
    simpa [shown?, Option.isSome_iff_exists] using T.shown hc
  rw [on_notifyProgram hp]
  exact T.audience hc (by rw [shown?, hp]; rfl) c rfl

theorem write {c : Computer} {value address : Value} {memory : Memory} (hc : Ψ .machine c)
    (h : c.machine.memory.write value address = .ok memory) :
    Meets (· = c) Φ (fun _ => False) (Routine.write call value address) := by
  refine .here ?_
  have hs := T.soundly hc
  obtain ⟨ks, hks⟩ := T.registered hc
  obtain ⟨a, k, -, -, -, rfl⟩ := Memory.write_eq_ok.mp h
  let d := { c with machine := (c.machine.setMemory (c.machine.memory.set a k)).refresh }
  have hd : d.Sound w n t B := hs.withMachine (hs.machine.stored a k)
  have hstored := T.stored hc (.stored c _) hd
  rw [on_write_registered hks h, ← audience_memory hks]
  exact hstored d rfl

theorem keeps_observe (source : Source) (k : Nat) (h : C (.observe source k)) :
    Keeps Φ (observe call source k) := by
  intro c hc
  cases hs : c.shown? source with
  | none =>
    rw [observe_missing hs]
    exact hc
  | some notice =>
    rw [on_observe hs]
    exact (T.register h hc hs).unrefused.after rfl

end Telling

section Machine

theorem operate (circuit : Operation) :
    Meets (Ψ .machine) Φ (fun _ => False) (operate call circuit) := by
  intro c hc
  have hs := T.soundly hc
  by_cases h : circuit = .store
  · subst h
    rw [on_operate_store]
    exact T.write hc (Memory.write_natCast hs.machine.address_lt _) c rfl
  · have hmemory : (c.machine.operated circuit).memory = c.machine.memory := by
      cases circuit with
      | store => exact absurd rfl h
      | _ => rfl
    rw [on_operate h]
    exact T.machine _ (T.further hc (.worked hmemory)
      (hs.withMachine (hs.machine.operated circuit)) rfl)

theorem keeps_operate (circuit : Operation) : Keeps Φ (Routine.operate call circuit) :=
  fun _ hc => (T.operate circuit).unrefused.after (T.unchanged hc rfl)

theorem keeps_write (value address : Value) : Keeps Φ (Routine.write call value address) := by
  intro c hc
  cases hm : c.machine.memory.write value address with
  | error fault =>
    rw [write_refused hm]
    exact hc
  | ok memory =>
    exact (T.write (T.unchanged hc rfl) hm).unrefused.after rfl

theorem keeps_dispatch (op : Operation) : Keeps Φ (Routine.dispatch call op) := by
  refine Keeps.get_bind fun c hc => ?_
  split
  · exact T.keeps_operate _ c hc
  · exact hc

theorem decode {c : Computer} (hc : Φ c) {i : Instruction} (hi : c.machine.Accepts c.table i) :
    Meets (· = c) Φ (fun _ => False) (Routine.decode call (.instruction i)) := by
  refine .here ?_
  have hs := T.sound hc
  have hsound := hs.machine.decoded (hs.table ▸ hi)
  have hd := T.change (d := { c with machine := c.machine.decoded i }) hc (.worked rfl)
    (hs.withMachine hsound) rfl
  have htell : Meets (Ψ .machine) Φ (fun _ => False) (do
      let m := (← get).machine
      log (.decoded i m.registers.address m.registers.data)
      notifyMachine call) :=
    .get_bind fun d hd => ((T.further_log _).bind fun _ => T.machine).of_eq hd
  rw [Routine.decode, on_get_bind, on_conclude_bind, checkInstruction_eq_ok.mpr ⟨rfl, hi⟩]
  exact htell _ hd

theorem keeps_decode (v : Value) : Keeps Φ (Routine.decode call v) := by
  intro c hc
  cases hcheck : checkInstruction c v with
  | error fault =>
    rw [decode_rejected hcheck]
    exact hc
  | ok i =>
    obtain ⟨rfl, hi⟩ := checkInstruction_eq_ok.mp hcheck
    exact (T.decode hc hi).unrefused.after rfl

/-- What is pending is executed. The machine has consumed it by then, but nobody has been told. -/
theorem execute {c : Computer} (hc : Φ c) (h : c.machine.isDecoded = true) :
    Meets (· = c) Φ (fun _ => False) (Routine.execute call) := by
  refine .here ?_
  have hs := T.sound hc
  obtain ⟨op, hop⟩ := Option.isSome_iff_exists.mp h
  obtain ⟨circuit, hcircuit⟩ := Option.isSome_iff_exists.mp (hs.machine.pending op hop).2
  have hd := T.change (d := { c with machine := c.machine.consume }) hc (.worked rfl)
    (hs.withMachine hs.machine.consume) rfl
  have hdispatch : Meets (fun d => Ψ .machine d ∧ d.table = t) Φ (fun _ => False)
      (Routine.dispatch call op) := by
    refine .get_bind fun d hd => ?_
    simp only [hd.2, show t.lookup op = some circuit from hcircuit]
    exact (T.operate circuit).of_eq hd.1
  rw [Routine.execute, on_get_bind, hop]
  refine hdispatch.bind (fun _ => .get_bind fun e he => ?_) _ ⟨hd, hs.table⟩
  exact .modify fun _ h => T.keeps_log _ _ (h ▸ he)

theorem keeps_execute : Keeps Φ (Routine.execute call) := by
  intro c hc
  cases h : c.machine.isDecoded with
  | true => exact (T.execute hc h).unrefused.after rfl
  | false =>
    rw [execute_refused h]
    exact hc

end Machine

section Program

theorem keeps_notifyProgram_bind {α : Type} {j : Nat} {next : Unit → Routine α}
    (hnext : ∀ u, Keeps Φ (next u)) {c : Computer} (hc : Ψ (.program j) c) :
    Φ ((notifyProgram call j >>= next).on c).2 :=
  ((T.program j).unrefused.bind fun u => (hnext u).meets).after hc

theorem keeps_insert (j : Nat) (name args position : Value) :
    Keeps Φ (Routine.insert call j name args position) := by
  intro c hc
  cases hp : c.programs[j]? with
  | none =>
    rw [Routine.insert, on_program_bind, hp]
    exact hc
  | some p =>
    rw [on_insertion hp]
    cases insertion c p name args position with
    | error fault => exact hc
    | ok inserted =>
      exact T.keeps_notifyProgram_bind (fun _ => Keeps.pure _)
        (T.change_program hc hp (fun _ => rfl) fun p => p.ages_insertAt _ _)

theorem keeps_append (j : Nat) (name args : Value) : Keeps Φ (append call j name args) :=
  Keeps.program_bind fun c _ hc _ => T.keeps_insert j name args _ c hc

theorem keeps_play (j : Nat) (delay : Value) : Keeps Φ (play call j delay) := by
  refine Keeps.program_bind fun c p hc hp => ?_
  split
  · exact hc
  · split
    · exact hc
    · rw [on_modifyProgram_bind]
      exact ((T.further_log _).unrefused.bind fun _ => (T.program j).unrefused.bind fun _ =>
        (T.keeps_makeLoop j delay).meets).after
          (T.change_program hc hp (fun _ => rfl) fun _ => ⟨Nat.le_refl _, Nat.le_refl _⟩)

theorem keeps_stop (j : Nat) : Keeps Φ (stop call j) := by
  refine Keeps.program_bind fun c p hc hp => ?_
  split
  · rw [on_modifyProgram_bind]
    exact ((T.further_log _).bind fun _ => T.program j).unrefused.after
      (T.change_program hc hp (fun _ => rfl) fun _ => ⟨Nat.le_refl _, Nat.le_refl _⟩)
  · exact hc

theorem keeps_endRun (l : PlayLoop) : Keeps Φ (endRun call l) := by
  refine Keeps.program_bind fun c p hc hp => ?_
  split
  · rw [on_modifyProgram_bind]
    exact (T.program l.program).unrefused.after
      (T.change_program hc hp (fun _ => rfl) fun _ => ⟨Nat.le_refl _, Nat.le_refl _⟩)
  · exact hc

theorem change_or_missing {j : Nat} {c : Computer} (hc : Φ c) {f : Program → Program}
    (hf : ∀ p, (f p).watchers = p.watchers) (hages : ∀ p : Program, p.Ages (f p)) :
    let d := { c with programs := c.programs.modify j f }
    Ψ (.program j) d ∨ d.programs[j]? = none ∧ Φ d := by
  cases hp : c.programs[j]? with
  | none =>
    rw [modify_missing hp]
    exact .inr ⟨hp, hc⟩
  | some p => exact .inl (T.change_program hc hp hf hages)

theorem unchanged_or_missing (j : Nat) {c : Computer} (hc : Φ c) :
    Ψ (.program j) c ∨ c.programs[j]? = none ∧ Φ c := by
  cases hp : c.programs[j]? with
  | none => exact .inr ⟨rfl, hc⟩
  | some p => exact .inl (T.unchanged hc (shown_program hp))

/-- The record of a phase is made of the program as it is then. -/
theorem log_phase (j : Nat) (record : Program → Record) :
    Meets (fun d => Ψ (.program j) d ∨ d.programs[j]? = none ∧ Φ d) (Ψ (.program j)) Φ
      (Routine.program j >>= fun p => log (record p)) := by
  intro d hd
  rw [on_program_bind]
  rcases hd with hd | ⟨hmissing, hd⟩
  · obtain ⟨p, hp⟩ : ∃ p, d.programs[j]? = some p := by
      simpa [shown?, Option.isSome_iff_exists] using T.shown hd
    rw [hp]
    exact T.further_log (record p) d hd
  · rw [hmissing]
    exact hd

theorem fetchPhase (j : Nat) (i : Instruction) :
    Meets Φ (Ψ (.program j)) Φ (fetchPhase call j i) := by
  intro c hc
  have hs := T.sound hc
  have hclosing : Meets Φ (fun d => Ψ (.program j) d ∨ d.programs[j]? = none ∧ Φ d)
      (fun _ => False) (do
        if (← get).machine.holds i then
          modifyProgram j fun p => { p with phase := .decoded } : Routine Unit) := by
    refine .get_bind fun d hd => ?_
    split
    · exact .here (T.change_or_missing (f := fun p => { p with phase := .decoded }) hd
        (fun _ => rfl) fun p => p.ages_decoded)
    · exact .here (T.unchanged_or_missing j hd)
  by_cases hi : c.machine.Accepts c.table i
  · have hdecode := (T.decode hc hi).ensuring (F := Φ) hclosing fun _ h => h.elim
    exact hdecode.bind (fun _ => T.log_phase j _) c rfl
  · -- What is refused is not what the machine holds, so that the program does not go on either.
    obtain ⟨fault, hdecode⟩ : ∃ fault, (Routine.decode call (.instruction i)).on c =
      (.error fault, c) := decode_refused hi
    have hholds : ¬ c.machine.holds i = true := fun h => hi (hs.table ▸ hs.machine.accepts h)
    rw [Routine.fetchPhase, on_bind, on_ensuring, hdecode, on_get_bind, if_neg hholds]
    exact hc

theorem executePhase (j : Nat) (i : Instruction) :
    Meets Φ (Ψ (.program j)) Φ (executePhase call j i) := by
  intro c hc
  rw [Routine.executePhase, on_get_bind]
  cases hdecoded : c.machine.isDecoded with
  | true =>
    have hclosing : Meets Φ (fun d => Ψ (.program j) d ∨ d.programs[j]? = none ∧ Φ d)
        (fun _ => False) (do
          let post := (← get).machine
          if !post.isDecoded then modifyProgram j (·.advance i c.machine post) : Routine Unit) := by
      refine .get_bind fun d hd => ?_
      dsimp only
      split
      · exact .here (T.change_or_missing (f := (·.advance i c.machine d.machine)) hd
          (fun _ => rfl) fun p => p.ages_advance _ _ _)
      · exact .here (T.unchanged_or_missing j hd)
    have hexecute := (T.execute hc hdecoded).ensuring (F := Φ) hclosing fun _ h => h.elim
    exact hexecute.bind (fun _ => T.log_phase j _) c rfl
  | false =>
    -- Nothing was pending: the program goes on all the same, and enters that nothing was executed.
    rw [on_bind, on_ensuring, execute_refused hdecoded, on_get_bind]
    simp only [hdecoded, Bool.not_false, if_true]
    show Φ { c with programs := c.programs.modify j (·.advance i c.machine c.machine) }
    cases hp : c.programs[j]? with
    | none =>
      rw [modify_missing hp]
      exact hc
    | some p =>
      refine T.idle hc (.program j (fun _ => rfl) fun p => p.ages_advance _ _ _)
        ((T.sound hc).withPrograms _) ?_
      show (c.programs[j]?.map _).getD 0 < ((c.programs.modify j _)[j]?.map _).getD 0
      rw [modify_getElem? hp, hp]
      simp [Program.idleEntries, Program.advance, hdecoded]

theorem doPhase (j : Nat) (i : Instruction) (phase : Phase) :
    Meets Φ (Ψ (.program j)) Φ (doPhase call j i phase) := by
  cases phase with
  | fetch => exact T.fetchPhase j i
  | decoded => exact T.executePhase j i

theorem keeps_step (j : Nat) : Keeps Φ (step call j) := by
  refine Keeps.program_bind fun c p hc _ => ?_
  split
  · exact hc
  · split
    · exact hc
    · rename_i i _
      have hphase : Meets Φ (Ψ (.program j)) Φ
          (ensuring (Routine.doPhase call j i p.phase) (setStepping j false)) :=
        (T.doPhase j i p.phase).ensuring (T.further_setStepping j false)
          fun d hd => T.keeps_setStepping j false d hd
      refine Keeps.bind (T.keeps_setStepping j true) (fun _ d hd => ?_) c hc
      exact (hphase.bind fun _ => (T.program j).unrefused.bind fun _ => .pure true).after hd

end Program

section Play

theorem keeps_tick (k : Nat) : Keeps Φ (tick call k) :=
  Routine.keeps_tick T.keeps_setAwaited fun {c l} hc _ _ =>
    on_resume (keeps_loopStep (T.keeps_step l.program) _ (T.keeps_setStage k .running c hc))
      (fun d hd => T.keeps_setStage k .suspended d hd) (fun d hd => T.keeps_endRun l d hd)
      (fun record _ => T.keeps_log record) fun d hd => T.keeps_setStage k .ended d hd

theorem keeps_cancel (k : Nat) : Keeps Φ (cancel call k) := fun c hc =>
  on_cancel hc (fun _ _ _ => T.keeps_setStage k .ended c hc) fun l _ _ =>
    T.keeps_setStage k .ended _ (T.keeps_endRun l _ (T.keeps_setStage k .running c hc))

end Play

/-- After a call all is as it is whenever a call begins. -/
theorem keeps_perform {command : Command} (h : C command) : Keeps Φ (perform call command) := by
  cases command with
  | step j => exact Keeps.bind (T.keeps_step j) fun _ => Keeps.pure _
  | run j => exact Keeps.bind (keeps_run (T.keeps_step j)) fun _ => Keeps.pure _
  | append j name args => exact Keeps.bind (T.keeps_append j name args) fun _ => Keeps.pure _
  | insert j name args position =>
    exact Keeps.bind (T.keeps_insert j name args position) fun _ => Keeps.pure _
  | play j delay => exact Keeps.bind (T.keeps_play j delay) fun _ => Keeps.pure _
  | stop j => exact Keeps.bind (T.keeps_stop j) fun _ => Keeps.pure _
  | tick k => exact T.keeps_tick k
  | cancel k => exact T.keeps_cancel k
  | decode v => exact Keeps.bind (T.keeps_decode v) fun _ => Keeps.pure _
  | execute => exact Keeps.bind T.keeps_execute fun _ => Keeps.pure _
  | operate circuit => exact Keeps.bind (T.keeps_operate circuit) fun _ => Keeps.pure _
  | dispatch op => exact Keeps.bind (T.keeps_dispatch op) fun _ => Keeps.pure _
  | write value address => exact Keeps.bind (T.keeps_write value address) fun _ => Keeps.pure _
  | read address =>
    exact Keeps.get_bind fun c hc => Keeps.bind (Keeps.conclude _) (fun _ => Keeps.pure _) c hc
  | validate address =>
    exact Keeps.get_bind fun c hc => Keeps.bind (Keeps.conclude _) (fun _ => Keeps.pure _) c hc
  | observe source k => exact Keeps.bind (T.keeps_observe source k h) fun _ => Keeps.pure _
  | unobserve source k => exact Keeps.bind (T.unobserve source k) fun _ => Keeps.pure _
  | observeValue source value => exact Keeps.throw _

end Tidings

end Accumulator
