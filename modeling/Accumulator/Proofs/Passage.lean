import Accumulator.Proofs.Expiry

/-! The ways that calls take. A call leads from one computer to another by single changes and by the
calls that are made from inside it, one after the other: there is nothing else in its course, and
what it comes to depends on no other calls. What a call does to the machine it does before it makes
the first of these; only a run goes on to another step after them. -/

namespace Accumulator

/-- A call that is made from inside another one: what is called, and the computer that it is made
on. -/
structure Inner where
  command : Command
  computer : Computer

namespace Computer

/-- By single changes, whatever is shown in the notices, one computer comes of the other. -/
def Becomes : Computer → Computer → Prop := Relation.ReflTransGen (Change fun _ => True)

/-- A single change that begins no phase: of the machine it refreshes the data register at most. -/
structure Mild (c d : Computer) : Prop where
  change : c.Change (fun _ => True) d
  machine : d.machine = c.machine ∨ d.machine = c.machine.refresh

/-- The machine watches its memory before any subscriber does, and these make no calls but those in
`C`. -/
structure Voiced (C : Command → Prop) (c : Computer) : Prop where
  watched : c.Watched
  conduct : ∀ s ∈ c.subscribers, ∀ state notice, (s.react state notice).2.Calls C

variable {C : Command → Prop} {c d : Computer}

theorem Becomes.keeps {P : Computer → Prop} (h : c.Becomes d)
    (hP : ∀ {c d : Computer}, c.Change (fun _ => True) d → P c → P d) (hc : P c) : P d := by
  induction h with
  | refl => exact hc
  | tail _ hchange ih => exact hP hchange ih

theorem Becomes.loop (h : c.Becomes d) {k : Nat} {l : PlayLoop} (hl : c.loops[k]? = some l) :
    ∃ m, d.loops[k]? = some m ∧ m.program = l.program ∧ m.run = l.run := by
  induction h with
  | refl => exact ⟨l, hl, rfl, rfl⟩
  | tail _ hchange ih =>
    obtain ⟨m, hm, hprogram, hrun⟩ := ih
    obtain ⟨m', hm', hprogram', hrun'⟩ := hchange.loop hm
    exact ⟨m', hm', hprogram'.trans hprogram, hrun'.trans hrun⟩

theorem Voiced.change (h : c.Voiced C) (hd : c.Change (fun _ => True) d) : d.Voiced C :=
  ⟨hd.watched h.watched,
    hd.conduct (B := fun react => ∀ state notice, (react state notice).2.Calls C) h.conduct⟩

theorem Voiced.becomes (h : c.Voiced C) (hd : c.Becomes d) : d.Voiced C :=
  hd.keeps (fun hchange hc => hc.change hchange) h

end Computer

open Computer

/-- The way from one computer to another by changes that `R` allows and by the calls `ms`, which are
made in this order as `call` makes them. -/
inductive Passage (R : Computer → Computer → Prop) (call : Caller) :
    Computer → List Inner → Computer → Prop
  | refl (c : Computer) : Passage R call c [] c
  | change {c d e : Computer} {ms : List Inner} : R c d → Passage R call d ms e →
      Passage R call c ms e
  | call {c e : Computer} {ms : List Inner} (command : Command) :
      Passage R call ((call command).on c).2 ms e → Passage R call c (⟨command, c⟩ :: ms) e

namespace Passage

variable {R S : Computer → Computer → Prop} {C : Command → Prop} {call : Caller} {c d e : Computer}
  {ms ns : List Inner}

theorem trans (h : Passage R call c ms d) (hd : Passage R call d ns e) :
    Passage R call c (ms ++ ns) e := by
  induction h with
  | refl => exact hd
  | change hchange _ ih => exact .change hchange (ih hd)
  | call command _ ih => exact .call command (ih hd)

theorem mono (h : Passage R call c ms d) (hR : ∀ c d, R c d → S c d) : Passage S call c ms d := by
  induction h with
  | refl c => exact .refl c
  | change hchange _ ih => exact .change (hR _ _ hchange) ih
  | call command _ ih => exact .call command ih

theorem of_changes (h : Relation.ReflTransGen R c d) : Passage R call c [] d := by
  induction h using Relation.ReflTransGen.head_induction_on with
  | refl => exact .refl d
  | head hchange _ ih => exact .change hchange ih

/-- What changes and calls keep is kept along the way, and whatever is called is called on a
computer that has it. -/
theorem keeps {P : Computer → Prop} (h : Passage R call c ms d)
    (hR : ∀ c d, P c → R c d → P d) (hcall : ∀ m ∈ ms, Routine.Keeps P (call m.command))
    (hc : P c) : P d ∧ ∀ m ∈ ms, P m.computer := by
  induction h with
  | refl => exact ⟨hc, List.forall_mem_nil _⟩
  | change hchange _ ih => exact ih hcall (hR _ _ hc hchange)
  | call command _ ih =>
    obtain ⟨hfirst, hrest⟩ := List.forall_mem_cons.mp hcall
    have hnext := hfirst _ hc
    obtain ⟨hd, hms⟩ := ih hrest hnext
    exact ⟨hd, List.forall_mem_cons.mpr ⟨hc, hms⟩⟩

end Passage

namespace Routine

variable {α β : Type}

/-- Of the calls that may be made from inside a routine, what it comes to depends on `ms` only. -/
def DependsOn (f : Caller → Routine α) (call : Caller) (c : Computer) (ms : List Inner) : Prop :=
  ∀ call' : Caller, (∀ m ∈ ms, (call' m.command).on m.computer = (call m.command).on m.computer) →
    (f call').on c = (f call).on c

/-- The calls that a routine makes on the computer `c` are `ms`, all of them in `C`. It comes from
`d` to its end by them and by changes that `R` allows. -/
structure Makes (R : Computer → Computer → Prop) (C : Command → Prop) (f : Caller → Routine α)
    (call : Caller) (c d : Computer) (ms : List Inner) : Prop where
  passage : Passage R call d ms ((f call).on c).2
  depends : DependsOn f call c ms
  calls : ∀ m ∈ ms, C m.command

/-- From `d` on, the routine goes by changes that `R` allows and by calls in `C`. -/
def Goes (R : Computer → Computer → Prop) (C : Command → Prop) (f : Caller → Routine α)
    (call : Caller) (c d : Computer) : Prop := ∃ ms, Makes R C f call c d ms

/-- The routine begins no phase. -/
def Mildly (C : Command → Prop) (f : Caller → Routine α) (call : Caller) (c : Computer) : Prop :=
  Goes Mild C f call c c

/-- The routine begins no phase when it has made a call. -/
def Promptly (C : Command → Prop) (f : Caller → Routine α) (call : Caller) (c : Computer) : Prop :=
  ∃ d, c.Becomes d ∧ Goes Mild C f call c d

section

variable {R S : Computer → Computer → Prop} {C : Command → Prop} {f : Caller → Routine α}
  {call : Caller} {c d e : Computer}

namespace Goes

theorem mono (h : Goes R C f call c d) (hR : ∀ c d, R c d → S c d) : Goes S C f call c d := by
  obtain ⟨ms, hpassage, hdepends, hcalls⟩ := h
  exact ⟨ms, hpassage.mono hR, hdepends, hcalls⟩

/-- No calls are made. -/
theorem closed {outcome : Except Fault α} (hon : ∀ call', (f call').on c = (outcome, e))
    (h : Relation.ReflTransGen R d e) : Goes R C f call c d := by
  refine ⟨[], ?_, fun call' _ => (hon call').trans (hon call).symm, List.forall_mem_nil _⟩
  rw [hon call]
  exact .of_changes h

/-- Changes come first. -/
theorem of_on (g : Caller → Routine α) (hon : ∀ call', (f call').on c = (g call').on e)
    (hd : Relation.ReflTransGen R d e) (h : Goes R C g call e e) : Goes R C f call c d := by
  obtain ⟨ms, hpassage, hdepends, hcalls⟩ := h
  refine ⟨ms, ?_, fun call' hcall' => ?_, hcalls⟩
  · rw [hon call]
    exact (Passage.of_changes hd).trans hpassage
  · rw [hon, hon, hdepends call' hcall']

theorem pure (a : α) : Goes R C (fun _ => Pure.pure a) call c c :=
  ⟨[], .refl c, fun _ _ => rfl, List.forall_mem_nil _⟩

theorem throw (fault : Fault) :
    Goes R C (fun _ => (MonadExcept.throw fault : Routine α)) call c c :=
  ⟨[], .refl c, fun _ _ => rfl, List.forall_mem_nil _⟩

theorem inner {command : Command} (h : C command) :
    Goes R C (fun call => call command) call c c :=
  ⟨[⟨command, c⟩], .call command (.refl _), fun _ hcall' => hcall' _ List.mem_cons_self,
    List.forall_mem_singleton.mpr h⟩

theorem attempt (h : Goes R C f call c d) :
    Goes R C (fun call => Routine.attempt (f call)) call c d := by
  obtain ⟨ms, hpassage, hdepends, hcalls⟩ := h
  refine ⟨ms, hpassage, fun call' hcall' => ?_, hcalls⟩
  rw [on_attempt, on_attempt, hdepends call' hcall']

section
variable (hR : ∀ c d, R c d → c.Change (fun _ => True) d)
  (hcall : ∀ command, C command → Keeps (Voiced C) (call command))
include hR hcall

theorem voiced (h : Goes R C f call c d) (hd : d.Voiced C) : ((f call).on c).2.Voiced C := by
  obtain ⟨ms, hpassage, -, hcalls⟩ := h
  exact (hpassage.keeps (fun _ _ hc h => hc.change (hR _ _ h))
    (fun m hm => hcall _ (hcalls m hm)) hd).1

theorem bind {g : Caller → α → Routine β} (h : Goes R C f call c d) (hd : d.Voiced C)
    (hn : ∀ a e, e.Voiced C → Goes R C (fun call => g call a) call e e) :
    Goes R C (fun call => f call >>= g call) call c d := by
  have hvoiced := h.voiced hR hcall hd
  obtain ⟨ms, hpassage, hdepends, hcalls⟩ := h
  rcases hout : (f call).on c with ⟨fault | a, e⟩
  · have hon : (f call >>= g call).on c = (.error fault, e) := by rw [on_bind, hout]
    refine ⟨ms, ?_, fun call' hcall' => ?_, hcalls⟩
    · rw [hon]
      rwa [hout] at hpassage
    · rw [hon, on_bind, hdepends call' hcall', hout]
  · have hon : (f call >>= g call).on c = (g call a).on e := by rw [on_bind, hout]
    rw [hout] at hpassage hvoiced
    obtain ⟨ns, hpassage', hdepends', hcalls'⟩ := hn a e hvoiced
    refine ⟨ms ++ ns, ?_, fun call' hcall' => ?_, List.forall_mem_append.mpr ⟨hcalls, hcalls'⟩⟩
    · rw [hon]
      exact hpassage.trans hpassage'
    · obtain ⟨hfirst, hrest⟩ := List.forall_mem_append.mp hcall'
      rw [hon, on_bind, hdepends call' hfirst, hout]
      exact hdepends' call' hrest

theorem ensuring {closing : Caller → Routine Unit} (h : Goes R C f call c d) (hd : d.Voiced C)
    (hclosing : ∀ e, e.Voiced C → Goes R C closing call e e) :
    Goes R C (fun call => Routine.ensuring (f call) (closing call)) call c d := by
  refine bind hR hcall h.attempt hd fun outcome e he => ?_
  refine bind hR hcall (hclosing e he) he fun _ e' _ => ?_
  exact closed (fun _ => on_conclude e' outcome) .refl

theorem forM {items : List β} {action : Caller → β → Routine PUnit} (hc : c.Voiced C)
    (h : ∀ x ∈ items, ∀ d, d.Voiced C → Goes R C (fun call => action call x) call d d) :
    Goes R C (fun call => items.forM (action call)) call c c := by
  induction items generalizing c with
  | nil => exact pure _
  | cons x items ih =>
    show Goes R C (fun call => action call x >>= fun _ => items.forM (action call)) call c c
    exact bind hR hcall (h x List.mem_cons_self c hc) hc
      fun _ d hd => ih hd fun y hy => h y (List.mem_cons_of_mem x hy)

end

end Goes

namespace Promptly

theorem attempt (h : Promptly C f call c) :
    Promptly C (fun call => Routine.attempt (f call)) call c := by
  obtain ⟨d, hd, h⟩ := h
  exact ⟨d, hd, h.attempt⟩

theorem of_mildly (h : Mildly C f call c) : Promptly C f call c := ⟨c, .refl, h⟩

theorem of_on (g : Caller → Routine α) (hon : ∀ call', (f call').on c = (g call').on e)
    (he : c.Becomes e) (h : Promptly C g call e) : Promptly C f call c := by
  obtain ⟨d, hd, ms, hpassage, hdepends, hcalls⟩ := h
  refine ⟨d, he.trans hd, ms, ?_, fun call' hcall' => ?_, hcalls⟩
  · rw [hon call]
    exact hpassage
  · rw [hon, hon, hdepends call' hcall']

theorem closed {outcome : Except Fault α} (hon : ∀ call', (f call').on c = (outcome, e))
    (he : c.Becomes e) : Promptly C f call c := ⟨e, he, .closed hon .refl⟩

theorem goes (h : Promptly C f call c) : Goes (Change fun _ => True) C f call c c := by
  obtain ⟨d, hd, ms, hpassage, hdepends, hcalls⟩ := h
  exact ⟨ms, (Passage.of_changes hd).trans (hpassage.mono fun _ _ h => h.change), hdepends, hcalls⟩

section
variable (hcall : ∀ command, C command → Keeps (Voiced C) (call command))
include hcall

theorem bind {g : Caller → α → Routine β} (h : Promptly C f call c) (hc : c.Voiced C)
    (hn : ∀ a e, e.Voiced C → Mildly C (fun call => g call a) call e) :
    Promptly C (fun call => f call >>= g call) call c := by
  obtain ⟨d, hd, h⟩ := h
  exact ⟨d, hd, h.bind (fun _ _ h => h.change) hcall (hc.becomes hd) hn⟩

theorem ensuring {closing : Caller → Routine Unit} (h : Promptly C f call c) (hc : c.Voiced C)
    (hclosing : ∀ e, e.Voiced C → Mildly C closing call e) :
    Promptly C (fun call => Routine.ensuring (f call) (closing call)) call c := by
  obtain ⟨d, hd, h⟩ := h
  exact ⟨d, hd, h.ensuring (fun _ _ h => h.change) hcall (hc.becomes hd) hclosing⟩

end

end Promptly

end

/-! ### The parts of calls -/

section

variable {R : Computer → Computer → Prop} {C : Command → Prop} {call : Caller} {c d : Computer}

namespace Mildly

theorem get_bind {g : Caller → Computer → Routine α} (h : Mildly C (fun call => g call c) call c) :
    Mildly C (fun call => get >>= g call) call c :=
  .of_on (fun call => g call c) (fun _ => rfl) .refl h

theorem program_bind {index : Nat} {g : Caller → Program → Routine α}
    (h : ∀ p, c.programs[index]? = some p → Mildly C (fun call => g call p) call c) :
    Mildly C (fun call => program index >>= g call) call c := by
  cases hp : c.programs[index]? with
  | none => exact .closed (fun _ => by rw [on_program_bind, hp]) .refl
  | some p =>
    exact .of_on (fun call => g call p) (fun _ => by rw [on_program_bind, hp]) .refl (h p hp)

theorem conclude_bind {outcome : Except Fault α} {g : Caller → α → Routine β}
    (h : ∀ a, outcome = .ok a → Mildly C (fun call => g call a) call c) :
    Mildly C (fun call => conclude outcome >>= g call) call c := by
  cases hout : outcome with
  | error fault => exact .closed (fun _ => on_conclude_bind _ _ c) .refl
  | ok a => exact .of_on (fun call => g call a) (fun _ => on_conclude_bind _ _ c) .refl (h a hout)

/-- A change comes first that begins no phase. -/
theorem after {f : Caller → Routine α} (g : Caller → Routine α)
    (hon : ∀ call', (f call').on c = (g call').on d) (hd : c.Change (fun _ => True) d)
    (hm : d.machine = c.machine) (h : Mildly C g call d) : Mildly C f call c :=
  .of_on g hon (.single ⟨hd, .inl hm⟩) h

/-- The only change begins no phase. -/
theorem only {f : Caller → Routine α} {outcome : Except Fault α} (hd : c.Change (fun _ => True) d)
    (hm : d.machine = c.machine) (hon : ∀ call', (f call').on c = (outcome, d)) :
    Mildly C f call c :=
  .closed hon (.single ⟨hd, .inl hm⟩)

theorem log (record : Record) : Mildly C (fun _ => Routine.log record) call c :=
  only (.log record) rfl fun _ => rfl

theorem setAwaited (awaited : Bool) : Mildly C (fun _ => Routine.setAwaited awaited) call c :=
  only (.await awaited) rfl fun _ => rfl

theorem setStage (k : Nat) (stage : Stage) :
    Mildly C (fun _ => Routine.setStage k stage) call c :=
  only (.setStage k stage) rfl fun _ => rfl

theorem modifyProgram {index : Nat} {f : Program → Program}
    (h : ∀ p, c.programs[index]? = some p → p.Change (fun _ => True) c.machine (f p)) :
    Mildly C (fun _ => Routine.modifyProgram index f) call c :=
  only (.program index f h) rfl fun _ => rfl

theorem sleep (delay : Value) : Mildly C (fun _ => Routine.sleep delay) call c := by
  have hon : (Routine.sleep delay).on c = (((Routine.sleep delay).on c).1, c) :=
    Prod.ext rfl (keeps_sleep (· = c) delay c rfl)
  exact .closed (fun _ => hon) .refl

end Mildly

section

variable (hcall : ∀ command, C command → Keeps (Voiced C) (call command))
include hcall

theorem Mildly.bind {f : Caller → Routine α} {g : Caller → α → Routine β} (h : Mildly C f call c)
    (hc : c.Voiced C) (hn : ∀ a d, d.Voiced C → Mildly C (fun call => g call a) call d) :
    Mildly C (fun call => f call >>= g call) call c :=
  Goes.bind (fun _ _ h => h.change) hcall h hc hn

theorem Mildly.ensuring {f : Caller → Routine α} {closing : Caller → Routine Unit}
    (h : Mildly C f call c) (hc : c.Voiced C)
    (hclosing : ∀ d, d.Voiced C → Mildly C closing call d) :
    Mildly C (fun call => Routine.ensuring (f call) (closing call)) call c :=
  Goes.ensuring (fun _ _ h => h.change) hcall h hc hclosing

theorem mildly_react {reaction : Reaction} (h : reaction.Calls C) (hc : c.Voiced C) :
    Mildly C (fun call => react call reaction) call c := by
  induction reaction generalizing c with
  | done => exact .pure ()
  | fail fault => exact .throw fault
  | call command next ih =>
    exact Mildly.bind hcall (.attempt (.inner h.1)) hc fun outcome _ hd =>
      ih outcome (h.2 outcome) hd

theorem mildly_deliver (source : Source) (notice : Notice) (k : Nat) (hc : c.Voiced C) :
    Mildly C (fun call => deliver call source notice k) call c := by
  let given := { c with events := ⟨k, source, notice, c.machine⟩ :: c.events }
  have hgive : c.Change (fun _ => True) given := .give k source notice trivial
  cases hs : c.subscribers[k]? with
  | none =>
    have hon : ∀ call', (deliver call' source notice k).on c = (.ok (), given) := fun call' => by
      rw [deliver, on_modify_bind, on_get_bind]
      simp only [hs]
      rfl
    exact .only hgive rfl hon
  | some s =>
    let noted := { given with subscribers := c.subscribers.modify k fun r =>
      { r with state := (s.react s.state notice).1 } }
    have hnote : given.Change (fun _ => True) noted := .note k (s.react s.state notice).1
    have hreact : Mildly C (fun call => react call (s.react s.state notice).2) call noted :=
      mildly_react hcall (hc.conduct s (List.mem_of_getElem? hs) _ _)
        ((hc.change hgive).change hnote)
    have hon : ∀ call', (deliver call' source notice k).on c =
        (react call' (s.react s.state notice).2).on noted := fun call' => by
      rw [deliver, on_modify_bind, on_get_bind]
      simp only [hs]
      rfl
    exact .of_on _ hon (.tail (.single ⟨hgive, .inl rfl⟩) ⟨hnote, .inl rfl⟩) hreact

theorem mildly_forM {items : List β} {action : Caller → β → Routine PUnit} (hc : c.Voiced C)
    (h : ∀ x ∈ items, ∀ d, d.Voiced C → Mildly C (fun call => action call x) call d) :
    Mildly C (fun call => items.forM (action call)) call c :=
  Goes.forM (fun _ _ h => h.change) hcall hc h

theorem mildly_notifyMachine (hc : c.Voiced C) :
    Mildly C (fun call => notifyMachine call) call c :=
  .of_on (fun call => c.machineWatchers.forM (deliver call .machine (.machine c.machine)))
    (fun _ => rfl) .refl (mildly_forM hcall hc fun k _ _ hd =>
      mildly_deliver hcall .machine (.machine c.machine) k hd)

theorem mildly_notifyProgram (index : Nat) (hc : c.Voiced C) :
    Mildly C (fun call => notifyProgram call index) call c :=
  .program_bind fun p _ => mildly_forM hcall hc fun k _ _ hd =>
    mildly_deliver hcall (.program index) (.program p.view) k hd

theorem mildly_tell (memory : Memory) (watcher : Watcher) (hc : c.Voiced C) :
    Mildly C (fun call => tell call memory watcher) call c := by
  cases watcher with
  | dataRegister =>
    have hrefresh : c.Change (fun _ => True) { c with machine := c.machine.refresh } :=
      .machine .refresh
    exact .of_on (fun call => notifyMachine call) (fun _ => rfl) (.single ⟨hrefresh, .inr rfl⟩)
      (mildly_notifyMachine hcall (hc.change hrefresh))
  | subscriber k => exact mildly_deliver hcall .memory (.memory memory) k hc

theorem promptly_write (value address : Value) (hc : c.Voiced C) :
    Promptly C (fun call => write call value address) call c := by
  obtain ⟨rest, hw⟩ := hc.watched
  cases hm : c.machine.memory.write value address with
  | error fault =>
    exact .of_mildly (.closed (fun _ => by rw [on_write hw, hm]) .refl)
  | ok memory =>
    obtain ⟨a, k, -, -, ha, rfl⟩ := Memory.write_eq_ok.mp hm
    have hstore : c.Change (fun _ => True) _ := .machine (.store a k ha)
    refine .of_on (fun call => do notifyMachine call; rest.forM (tell call _))
      (fun _ => by rw [on_write hw, hm]) (.single hstore) (.of_mildly ?_)
    exact Mildly.bind hcall (mildly_notifyMachine hcall (hc.change hstore)) (hc.change hstore)
      fun _ _ hd => mildly_forM hcall hd fun watcher _ _ he => mildly_tell hcall _ watcher he

theorem promptly_operate (circuit : Operation) (hc : c.Voiced C) :
    Promptly C (fun call => operate call circuit) call c := by
  by_cases hs : circuit = .store
  · subst hs
    exact .of_on _ (fun _ => on_operate_store c) .refl (promptly_write hcall _ _ hc)
  · have hcompute : c.Change (fun _ => True) { c with machine := c.machine.operated circuit } :=
      .machine (.compute circuit hs)
    exact .of_on _ (fun _ => on_operate hs c) (.single hcompute)
      (.of_mildly (mildly_notifyMachine hcall (hc.change hcompute)))

theorem promptly_dispatch (op : Operation) (hc : c.Voiced C) :
    Promptly C (fun call => dispatch call op) call c := by
  cases hlookup : c.table.lookup op with
  | none =>
    have hon : ∀ call', (dispatch call' op).on c = (.error (.noEntry op), c) := fun call' => by
      rw [dispatch, on_get_bind, hlookup]
      rfl
    exact .closed hon .refl
  | some circuit =>
    refine .of_on _ (fun call' => ?_) .refl (promptly_operate hcall circuit hc)
    rw [dispatch, on_get_bind, hlookup]

theorem promptly_decode (v : Value) (hc : c.Voiced C) :
    Promptly C (fun call => decode call v) call c := by
  cases hv : checkInstruction c v with
  | error fault =>
    exact .closed (fun _ => by rw [decode, on_get_bind, on_conclude_bind, hv]) .refl
  | ok i =>
    have hdecode : c.Change (fun _ => True) { c with machine := c.machine.decoded i } :=
      .machine (.decode i (checkInstruction_eq_ok.mp hv).2)
    let m := c.machine.decoded i
    refine .of_on (fun call => do
      Routine.log (.decoded i m.registers.address m.registers.data)
      notifyMachine call) (fun call' => ?_) (.single hdecode) (.of_mildly ?_)
    · rw [decode, on_get_bind, on_conclude_bind, hv]
      rfl
    · exact Mildly.bind hcall (.log _) (hc.change hdecode) fun _ _ hd =>
        mildly_notifyMachine hcall hd

theorem promptly_execute (hc : c.Voiced C) : Promptly C (fun call => execute call) call c := by
  cases hp : c.machine.registers.pending with
  | none =>
    have hon : ∀ call', (execute call').on c = (.error .nothingDecoded, c) := fun call' => by
      rw [execute, on_get_bind, hp]
      rfl
    exact .closed hon .refl
  | some op =>
    have hconsume : c.Change (fun _ => True) { c with machine := c.machine.consume } :=
      .machine .consume
    refine .of_on (fun call => do
      dispatch call op
      Routine.log (.executed op (← get).machine.registers.accumulator)) (fun call' => ?_)
      (.single hconsume) (Promptly.bind hcall (promptly_dispatch hcall op (hc.change hconsume))
        (hc.change hconsume) fun _ d _ => ?_)
    · rw [execute, on_get_bind, hp]
      rfl
    · exact Mildly.get_bind (.log (.executed op d.machine.registers.accumulator))

theorem mildly_insert (index : Nat) (name args position : Value) (hc : c.Voiced C) :
    Mildly C (fun call => insert call index name args position) call c := by
  refine .program_bind fun p hp => .conclude_bind fun n hn => .conclude_bind fun i hi =>
    .get_bind (.conclude_bind fun _ ha => ?_)
  have hinsert : ∀ q, c.programs[index]? = some q →
      q.Change (fun _ => True) c.machine (q.insertAt n i) := fun q hq => by
    obtain rfl : p = q := Option.some.inj (hp.symm.trans hq)
    exact .insert n i (Program.position_le hn) (Program.checkAddress_eq_ok.mp ha)
  exact Mildly.bind hcall (.modifyProgram hinsert) hc fun _ _ hd =>
    Mildly.bind hcall (mildly_notifyProgram hcall index hd) hd fun _ _ _ => .pure i

theorem mildly_append (index : Nat) (name args : Value) (hc : c.Voiced C) :
    Mildly C (fun call => append call index name args) call c :=
  .program_bind fun _ _ => mildly_insert hcall index name args _ hc

theorem mildly_observe (source : Source) (k : Nat) (hc : c.Voiced C) :
    Mildly C (fun call => observe call source k) call c := by
  cases source with
  | memory =>
    have hwatch : c.Change (fun _ => True) _ := .watchMemory k
    exact .after (fun call => do deliver call .memory (.memory (← get).machine.memory) k)
      (fun _ => rfl) hwatch rfl (.get_bind (mildly_deliver hcall _ _ k (hc.change hwatch)))
  | machine =>
    have hwatch : c.Change (fun _ => True) _ := .watchMachine k
    exact .after (fun call => do deliver call .machine (.machine (← get).machine) k)
      (fun _ => rfl) hwatch rfl (.get_bind (mildly_deliver hcall _ _ k (hc.change hwatch)))
  | program index =>
    refine .program_bind fun p _ => ?_
    exact Mildly.bind hcall (.modifyProgram fun _ _ => .watch k) hc fun _ _ hd =>
      mildly_deliver hcall _ _ k hd

omit hcall in
theorem mildly_unobserve (source : Source) (k : Nat) :
    Mildly C (fun _ => unobserve source k) call c := by
  cases source with
  | memory => exact .only (.unwatchMemory k) rfl fun _ => rfl
  | machine => exact .only (.unwatchMachine k) rfl fun _ => rfl
  | program index => exact .program_bind fun _ _ => .modifyProgram fun _ _ => .unwatch k

theorem promptly_fetchPhase (index : Nat) (i : Instruction) (hc : c.Voiced C) :
    Promptly C (fun call => fetchPhase call index i) call c := by
  refine Promptly.bind hcall (Promptly.ensuring hcall (promptly_decode hcall _ hc) hc
    fun d _ => .get_bind ?_) hc fun _ _ _ => .program_bind fun _ _ => .log _
  split
  · rename_i hi
    exact .modifyProgram fun _ _ => .fetch i hi
  · exact .pure ()

theorem promptly_executePhase (index : Nat) (i : Instruction) (hc : c.Voiced C) :
    Promptly C (fun call => executePhase call index i) call c := by
  refine .of_on _ (fun _ => on_get_bind _ c) .refl ?_
  refine Promptly.bind hcall (Promptly.ensuring hcall (promptly_execute hcall hc) hc
    fun d _ => .get_bind ?_) hc fun _ _ _ => .program_bind fun _ _ => .log _
  dsimp only
  split
  · rename_i hpost
    have hidle : d.machine.isDecoded = false := by simpa using hpost
    exact .modifyProgram fun _ _ => .advance i _ trivial hidle
  · exact .pure ()

theorem promptly_doPhase (index : Nat) (i : Instruction) (phase : Phase) (hc : c.Voiced C) :
    Promptly C (fun call => doPhase call index i phase) call c := by
  cases phase with
  | fetch => exact promptly_fetchPhase hcall index i hc
  | decoded => exact promptly_executePhase hcall index i hc

theorem promptly_step (index : Nat) (hc : c.Voiced C) :
    Promptly C (fun call => step call index) call c := by
  have hrefused : ∀ outcome, (∀ call', (step call' index).on c = (outcome, c)) →
      Promptly C (fun call => step call index) call c := fun _ hon => .closed hon .refl
  cases hp : c.programs[index]? with
  | none => exact hrefused _ fun _ => by rw [step, on_program_bind, hp]
  | some p =>
    cases hstepping : p.stepping with
    | true =>
      refine hrefused (.error .stepInProgress) fun _ => ?_
      rw [step, on_program_bind, hp]
      simp only [hstepping, if_true]
      rfl
    | false =>
      cases hi : p.current? with
      | none =>
        refine hrefused (.ok false) fun _ => ?_
        rw [step, on_program_bind, hp]
        simp only [hstepping, hi]
        rfl
      | some i =>
        have hmark : c.Change (fun _ => True) { c with
            programs := c.programs.modify index fun p => { p with stepping := true } } :=
          .program index _ fun _ _ => .step true
        refine .of_on (fun call => do
          ensuring (doPhase call index i p.phase) (setStepping index false)
          notifyProgram call index
          return true) (fun _ => ?_) (.single hmark) ?_
        · rw [step, on_program_bind, hp]
          simp only [hstepping, hi]
          rfl
        · have hphase : Promptly C (fun call => ensuring (doPhase call index i p.phase)
              (setStepping index false)) call _ :=
            Promptly.ensuring hcall (promptly_doPhase hcall index i p.phase (hc.change hmark))
              (hc.change hmark) fun _ _ => .modifyProgram fun _ _ => .step false
          exact Promptly.bind hcall hphase (hc.change hmark) fun _ _ hd =>
            Mildly.bind hcall (mildly_notifyProgram hcall index hd) hd fun _ _ _ => .pure true

theorem goes_steps (index limit : Nat) (hc : c.Voiced C) :
    Goes (Change fun _ => True) C (fun call => steps call index limit) call c c := by
  induction limit generalizing c with
  | zero => exact .throw _
  | succ limit ih =>
    refine Goes.bind (fun _ _ h => h) hcall (promptly_step hcall index hc).goes hc
      fun more d hd => ?_
    cases more with
    | true => exact ih hd
    | false => exact .pure ()

theorem goes_run (index : Nat) (hc : c.Voiced C) :
    Goes (Change fun _ => True) C (fun call => run call index) call c c := by
  cases hp : c.programs[index]? with
  | none => exact .closed (fun _ => by rw [run, on_program_bind, hp]) .refl
  | some p =>
    refine .of_on (fun call => do
      steps call index (runLimit c p)
      return (← program index).trace.length) (fun _ => ?_) .refl ?_
    · rw [run, on_program_bind, hp]
      rfl
    · refine Goes.bind (fun _ _ h => h) hcall (goes_steps hcall index _ hc) hc fun _ d _ => ?_
      exact Goes.mono (Mildly.program_bind fun q _ => .pure q.trace.length) fun _ _ h => h.change

omit hcall in
theorem mildly_makeLoop (index : Nat) (delay : Value) :
    Mildly C (fun _ => makeLoop index delay) call c :=
  .program_bind fun p hp => .only (.makeLoop _ p hp rfl rfl) rfl fun _ => rfl

theorem mildly_play (index : Nat) (delay : Value) (hc : c.Voiced C) :
    Mildly C (fun call => play call index delay) call c := by
  refine .program_bind fun p hp => ?_
  split
  · exact .throw _
  · rename_i hcomplete
    split
    · exact .throw _
    · rename_i hplaying
      have hbegin : ∀ q, c.programs[index]? = some q → q.Change (fun _ => True) c.machine
          { q with run := q.run + 1, playing := true } := fun q hq => by
        obtain rfl : p = q := Option.some.inj (hp.symm.trans hq)
        exact .play (by simpa using hcomplete) (by simpa using hplaying)
      refine Mildly.bind hcall (.modifyProgram hbegin) hc fun _ _ hd => ?_
      refine Mildly.bind hcall (.log _) hd fun _ _ he => ?_
      exact Mildly.bind hcall (mildly_notifyProgram hcall index he) he fun _ _ _ =>
        mildly_makeLoop index delay

theorem mildly_stop (index : Nat) (hc : c.Voiced C) :
    Mildly C (fun call => stop call index) call c := by
  refine .program_bind fun p hp => ?_
  split
  · rename_i hplaying
    have hhalt : ∀ q, c.programs[index]? = some q → q.Change (fun _ => True) c.machine
        { q with run := q.run + 1, playing := false } := fun q hq => by
      obtain rfl : p = q := Option.some.inj (hp.symm.trans hq)
      exact .stop hplaying
    refine Mildly.bind hcall (.modifyProgram hhalt) hc fun _ _ hd => ?_
    exact Mildly.bind hcall (.log _) hd fun _ _ he => mildly_notifyProgram hcall index he
  · exact .pure ()

theorem mildly_endRun (l : PlayLoop) (hc : c.Voiced C) :
    Mildly C (fun call => endRun call l) call c := by
  refine .program_bind fun p _ => ?_
  split
  · exact Mildly.bind hcall (.modifyProgram fun _ _ => .finish) hc fun _ _ hd =>
      mildly_notifyProgram hcall l.program hd
  · exact .pure ()

theorem mildly_endLoop (l : PlayLoop) (outcome : Except Fault (Option Value)) (hc : c.Voiced C) :
    Mildly C (fun call => endLoop call l outcome) call c := by
  have hconclude : Mildly C (fun _ => conclude outcome) call c :=
    .closed (fun _ => on_conclude c outcome) .refl
  have hend := Mildly.ensuring hcall hconclude hc fun d hd => mildly_endRun hcall l hd
  exact Mildly.bind hcall hend hc fun _ _ _ => .program_bind fun _ _ => .log _

theorem promptly_loopStep (l : PlayLoop) (hc : c.Voiced C) :
    Promptly C (fun call => loopStep call l) call c := by
  cases hp : c.programs[l.program]? with
  | none => exact .closed (fun _ => by rw [loopStep, on_program_bind, hp]) .refl
  | some p =>
    by_cases hrun : (p.run = l.run && !p.isComplete) = true
    · refine .of_on (fun call => do
        let _ ← step call l.program
        if (← program l.program).isComplete then return none
        else return some (← Routine.sleep l.delay)) (fun _ => ?_) .refl ?_
      · rw [loopStep, on_program_bind, hp]
        simp only [hrun, if_true]
      · refine Promptly.bind hcall (promptly_step hcall l.program hc) hc fun _ d hd =>
          .program_bind fun q _ => ?_
        split
        · exact .pure none
        · exact Mildly.bind hcall (.sleep l.delay) hd fun delay _ _ => .pure (some delay)
    · have hon : ∀ call', (loopStep call' l).on c = (.ok none, c) := fun _ => by
        rw [loopStep, on_program_bind, hp]
        simp only [hrun]
        rfl
      exact .closed hon .refl

theorem promptly_resume (k : Nat) (l : PlayLoop) (hc : c.Voiced C) :
    Promptly C (fun call => resume call k l) call c := by
  have hset : c.Change (fun _ => True) ((Routine.setStage k .running).on c).2 :=
    .setStage k .running
  refine .of_on _ (fun _ => on_setStage_bind k .running _ c) (.single hset) ?_
  refine Promptly.bind hcall (Promptly.attempt (promptly_loopStep hcall l (hc.change hset)))
    (hc.change hset) fun outcome d hd => ?_
  split
  · exact Mildly.bind hcall (.setStage k .suspended) hd fun _ _ _ => .pure _
  · exact Mildly.bind hcall (Mildly.ensuring hcall (mildly_endLoop hcall l outcome hd) hd
      fun _ _ => .setStage k .ended) hd fun _ _ _ => .pure _

theorem promptly_await (k : Nat) (l : PlayLoop) (hc : c.Voiced C) :
    Promptly C (fun call => await call k l) call c := by
  have hset : c.Change (fun _ => True) { c with awaited := true } := .await true
  exact .of_on (fun call => ensuring (resume call k l) (Routine.setAwaited false)) (fun _ => rfl)
    (.single hset) (Promptly.ensuring hcall (promptly_resume hcall k l (hc.change hset))
      (hc.change hset) fun _ _ => .setAwaited false)

/-- A loop that is resumed begins its phase before it tells anybody of anything. -/
theorem promptly_tick (k : Nat) (hc : c.Voiced C) :
    Promptly C (fun call => tick call k) call c := by
  have hsame : ∀ outcome, (∀ call', (tick call' k).on c = (outcome, c)) →
      Promptly C (fun call => tick call k) call c := fun _ hon => .closed hon .refl
  cases hl : c.loops[k]? with
  | none =>
    refine hsame (.ok .noSuchLoop) fun _ => ?_
    rw [tick, on_get_bind, hl]
    rfl
  | some l =>
    have hawait : (∀ call', (tick call' k).on c = (await call' k l).on c) →
        Promptly C (fun call => tick call k) call c := fun hon =>
      .of_on _ hon .refl (promptly_await hcall k l hc)
    cases hstage : l.stage with
    | fresh =>
      refine hawait fun _ => ?_
      rw [tick, on_get_bind, hl]
      simp only [hstage]
    | suspended =>
      refine hawait fun _ => ?_
      rw [tick, on_get_bind, hl]
      simp only [hstage]
    | running =>
      refine hsame (.error .loopRunning) fun _ => ?_
      rw [tick, on_get_bind, hl]
      simp only [hstage]
      rfl
    | ended =>
      refine hsame (.ok .alreadyEnded) fun _ => ?_
      rw [tick, on_get_bind, hl]
      simp only [hstage]
      rfl

theorem mildly_cancel (k : Nat) (hc : c.Voiced C) :
    Mildly C (fun call => cancel call k) call c := by
  refine .get_bind ?_
  split
  · exact .pure _
  · rename_i l _
    split
    · exact Mildly.bind hcall (.setStage k .ended) hc fun _ _ _ => .pure _
    · refine Mildly.bind hcall (.setStage k .running) hc fun _ _ hd => ?_
      exact Mildly.bind hcall (Mildly.ensuring hcall (mildly_endRun hcall l hd) hd
        fun _ _ => .setStage k .ended) hd fun _ _ _ => .pure _
    · exact .throw _
    · exact .pure _

omit hcall in
theorem Goes.answer {f : Caller → Routine α} (h : Goes R C f call c d) (answer : α → Answer) :
    Goes R C (fun call => f call >>= fun a => return answer a) call c d := by
  obtain ⟨ms, hpassage, hdepends, hcalls⟩ := h
  refine ⟨ms, ?_, fun call' hcall' => ?_, hcalls⟩
  · rw [on_bind_pure]
    exact hpassage
  · rw [on_bind_pure, on_bind_pure, hdepends call' hcall']

/-- A call takes its way by single changes and by the calls that it makes. -/
theorem goes_perform (command : Command) (hc : c.Voiced C) :
    Goes (Change fun _ => True) C (fun call => perform call command) call c c := by
  have hmild : ∀ {α : Type} {f : Caller → Routine α}, Mildly C f call c →
      Goes (Change fun _ => True) C f call c c := fun h => h.mono fun _ _ h => h.change
  cases command with
  | step index => exact (promptly_step hcall index hc).goes.answer .flag
  | run index => exact (goes_run hcall index hc).answer .number
  | append index name args =>
    exact (hmild (mildly_append hcall index name args hc)).answer .instruction
  | insert index name args position =>
    exact (hmild (mildly_insert hcall index name args position hc)).answer .instruction
  | play index delay => exact (hmild (mildly_play hcall index delay hc)).answer .loop
  | stop index => exact (hmild (mildly_stop hcall index hc)).answer fun _ => .nothing
  | tick k => exact (promptly_tick hcall k hc).goes
  | cancel k => exact hmild (mildly_cancel hcall k hc)
  | decode v => exact (promptly_decode hcall v hc).goes.answer fun _ => .nothing
  | execute => exact (promptly_execute hcall hc).goes.answer fun _ => .nothing
  | operate circuit => exact (promptly_operate hcall circuit hc).goes.answer fun _ => .nothing
  | dispatch op => exact (promptly_dispatch hcall op hc).goes.answer fun _ => .nothing
  | write value address =>
    exact (promptly_write hcall value address hc).goes.answer fun _ => .nothing
  | read address => exact hmild (.get_bind (.conclude_bind fun n _ => .pure (Answer.number n)))
  | validate address => exact hmild (.get_bind (.conclude_bind fun n _ => .pure (Answer.number n)))
  | observe source k => exact (hmild (mildly_observe hcall source k hc)).answer fun _ => .nothing
  | unobserve source k => exact (hmild (mildly_unobserve source k)).answer fun _ => .nothing
  | observeValue source v => exact .throw _

end

/-- Subscribers go on making no other calls, however deep these nest. -/
theorem voiced_performWithin (depth : Nat) (command : Command) :
    Keeps (Voiced C) (performWithin depth command) := by
  induction depth generalizing command with
  | zero => exact Keeps.throw _
  | succ depth ih =>
    have hcall : ∀ command, C command → Keeps (Voiced C) (performWithin depth command) :=
      fun command _ => ih command
    exact fun c hc => (goes_perform hcall command hc).voiced (fun _ _ h => h) hcall hc

theorem goes_performWithin (depth : Nat) (command : Command) (hc : c.Voiced C) :
    Goes (Change fun _ => True) C (fun call => perform call command) (performWithin depth) c c :=
  goes_perform (fun command _ => voiced_performWithin depth command) command hc

/-- A call comes to the same if those that subscribers make are made in another way that comes to
the same. -/
theorem perform_congr {depth : Nat} (hc : c.Voiced C) (h : ∀ d command, d.Voiced C → C command →
    (call command).on d = (performWithin depth command).on d) (command : Command) :
    (perform call command).on c = (perform (performWithin depth) command).on c := by
  obtain ⟨calls, hmakes⟩ := goes_performWithin depth command hc
  have hvoiced := (hmakes.passage.keeps (fun _ _ hc hd => hc.change hd)
    (fun m _ => voiced_performWithin depth m.command) hc).2
  exact hmakes.depends call fun m hm => h m.computer m.command (hvoiced m hm) (hmakes.calls m hm)

end

end Routine

end Accumulator
