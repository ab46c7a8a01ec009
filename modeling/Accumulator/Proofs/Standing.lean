import Accumulator.Proofs.Announcing
import Accumulator.Proofs.Editing

/-! How a program stands while notices are given. A subscriber that is told may make calls of its
own; what a program stands at is kept by a notice if those calls keep it, and so by all that a call
does after its change is made. -/

namespace Accumulator

/-- A sound computer and one program of it. A loop belongs to a program as `owner` allows. -/
structure Setting where
  wordSize : Nat
  size : Nat
  table : Dispatch
  conduct : Conduct → Prop
  owner : Nat → Nat → Prop
  index : Nat

namespace Progress

/-- The program is in a step, or not, and has come as far as `Q` says. -/
def Standing (stepping : Bool) (Q : Progress → Prop) (b : Bool) (s : Progress) : Prop :=
  b = stepping ∧ Q s

/-- Insertions keep it, and so does work on the machine that touches nothing that is decoded. -/
structure Steady (w n : Nat) (t : Dispatch) (R : Bool → Progress → Prop) : Prop where
  insertAt : ∀ b s k i, R b s → k ≤ s.instructions.length → R b (s.insertAt k i)
  work : ∀ b s m, R b s → m.Sound w n t →
    m.registers.instruction = s.machine.registers.instruction →
    m.registers.pending = s.machine.registers.pending → R b { s with machine := m }

end Progress

/-- A call steps only the programs in `J`, and has the machine decode or execute by itself only if
that is of no account. -/
def Command.Fits (S : Setting) (J : Nat → Prop) (R : Bool → Progress → Prop) : Command → Prop
  | .step j | .run j => J j
  | .play j _ => ∀ k, S.owner k j
  | .tick k => ∀ j, S.owner k j → J j
  | .decode _ | .execute => ∀ b s m, R b s → R b { s with machine := m }
  | _ => True

namespace Computer

/-- Whether the program of the setting is in a step, and how far it has come, is as `R` says. -/
structure Stands (S : Setting) (R : Bool → Progress → Prop) (c : Computer) : Prop where
  sound : c.Sound S.wordSize S.size S.table S.conduct
  loops : ∀ k l, c.loops[k]? = some l → S.owner k l.program
  program : ∃ p, c.programs[S.index]? = some p ∧ R p.stepping (p.progress c.machine)

namespace Stands

variable {S : Setting} {R R' : Bool → Progress → Prop} {c d : Computer}

theorem of_eq (h : c.Stands S R) (hs : d.Sound S.wordSize S.size S.table S.conduct)
    (hm : d.machine = c.machine) (hp : d.programs = c.programs) (hl : d.loops = c.loops) :
    d.Stands S R :=
  ⟨hs, hl ▸ h.loops, by rw [hp, hm]; exact h.program⟩

/-- The machine has changed. -/
theorem work {m : Machine} (h : c.Stands S R) (hm : m.Sound S.wordSize S.size S.table)
    (hR : ∀ b s, s.machine = c.machine → R b s → R' b { s with machine := m }) :
    Stands S R' { c with machine := m } := by
  obtain ⟨p, hp, hprogress⟩ := h.program
  have hs := h.sound
  exact ⟨⟨hm, hs.events, hs.table, hs.watched, hs.conduct⟩, h.loops, p, hp, hR _ _ rfl hprogress⟩

theorem modifyProgram (h : c.Stands S R) (j : Nat) {f : Program → Program}
    (hf : ∀ p, c.programs[j]? = some p → j = S.index → R p.stepping (p.progress c.machine) →
      R' (f p).stepping ((f p).progress c.machine))
    (hR : j ≠ S.index → ∀ b s, R b s → R' b s) :
    Stands S R' { c with programs := c.programs.modify j f } := by
  obtain ⟨p, hp, hprogress⟩ := h.program
  refine ⟨h.sound.withPrograms _, h.loops, ?_⟩
  by_cases hj : j = S.index
  · subst hj
    exact ⟨f p, modify_getElem? hp f, hf p hp rfl hprogress⟩
  · refine ⟨p, ?_, hR hj _ _ hprogress⟩
    show (c.programs.modify j f)[S.index]? = _
    rw [List.getElem?_modify_ne f _ hj, hp]

/-- A program changes beside its progress. -/
theorem mark (h : c.Stands S R) (j : Nat) {f : Program → Program}
    (hstepping : ∀ p, (f p).stepping = p.stepping)
    (hf : ∀ p m, (f p).progress m = p.progress m) :
    Stands S R { c with programs := c.programs.modify j f } := by
  refine h.modifyProgram j (fun p _ _ hprogress => ?_) fun _ _ _ hR => hR
  rwa [hstepping, hf]

end Stands

end Computer

namespace Routine

open Computer

variable {S : Setting} {R : Bool → Progress → Prop} {J : Nat → Prop} {C : Command → Prop}
  {c : Computer} {call : Caller} {i : Instruction}

theorem stands_log (record : Record) : Keeps (Stands S R) (log record) :=
  fun c hc => hc.of_eq (Sound.invariant.keeps_log record c hc.sound) rfl rfl rfl

theorem stands_setAwaited (awaited : Bool) : Keeps (Stands S R) (setAwaited awaited) :=
  fun c hc => hc.of_eq (Sound.invariant.keeps_setAwaited awaited c hc.sound) rfl rfl rfl

theorem stands_setStage (k : Nat) (stage : Stage) : Keeps (Stands S R) (setStage k stage) := by
  intro c hc
  refine ⟨Sound.invariant.keeps_setStage k stage c hc.sound, fun j l hl => ?_, hc.program⟩
  have hmodify : (c.loops.modify k fun l => { l with stage })[j]? = some l := hl
  rw [List.getElem?_modify] at hmodify
  obtain ⟨l', hl', rfl⟩ := Option.map_eq_some_iff.mp hmodify
  have howner := hc.loops j l' hl'
  split
  · exact howner
  · exact howner

theorem stands_makeLoop {j : Nat} (hj : ∀ k, S.owner k j) (delay : Value) :
    Keeps (Stands S R) (makeLoop j delay) := by
  intro c hc
  have hsound := Sound.invariant.keeps_makeLoop j delay c hc.sound
  rw [makeLoop, on_program_bind] at hsound ⊢
  cases hp : c.programs[j]? with
  | none => exact hc
  | some p =>
    rw [hp] at hsound
    refine ⟨hsound, fun k l hl => ?_, hc.program⟩
    have happend : (c.loops ++ [⟨j, p.run, delayOf p delay, .fresh⟩])[k]? = some l := hl
    rw [List.getElem?_append] at happend
    split at happend
    · exact hc.loops k l happend
    · obtain rfl := List.mem_singleton.mp (List.mem_of_getElem? happend)
      exact hj k

theorem stands_unobserve (source : Source) (k : Nat) :
    Keeps (Stands S R) (unobserve source k) := by
  intro c hc
  have hsound := Sound.invariant.keeps_unobserve source k c hc.sound
  cases source with
  | memory => exact hc.of_eq hsound rfl rfl rfl
  | machine => exact hc.of_eq hsound rfl rfl rfl
  | program j =>
    exact Keeps.program_bind (fun c p hc _ => hc.mark j (fun _ => rfl) fun _ _ => rfl) c hc

/-- What a program stands at is kept by the giving of a notice. -/
theorem stands_heeded
    (hC : ∀ react, S.conduct react → ∀ state notice, (react state notice).2.Calls C) :
    Heeded (Notice.Sound S.wordSize S.size S.table) C (Stands S R) where
  conduct hc s hs state notice _ := hC s.react (hc.sound.conduct s hs) state notice
  machine hc := hc.sound.machine
  program _ _ := trivial
  give k source notice hc h :=
    hc.of_eq (Sound.invariant.change hc.sound (.give k source notice h)) rfl rfl rfl
  note k state hc := hc.of_eq (Sound.invariant.change hc.sound (.note k state)) rfl rfl rfl
  refresh hc := by
    rw [hc.sound.machine.refresh]
    exact hc

section
variable (hC : ∀ react, S.conduct react → ∀ state notice, (react state notice).2.Calls C)
  (hcall : ∀ command, C command → Keeps (Stands S R) (call command))
include hC hcall

theorem stands_notifyProgram (j : Nat) : Keeps (Stands S R) (notifyProgram call j) :=
  (stands_heeded hC).keeps_notifyProgram hcall j

theorem stands_write {value address : Value} {memory : Memory}
    (hm : c.machine.memory.write value address = .ok memory)
    (h : Stands S R { c with machine := (c.machine.setMemory memory).refresh }) :
    ((write call value address).on c).2.Stands S R := by
  obtain ⟨rest, hw⟩ := h.sound.watched
  exact (stands_heeded hC).write hcall hw hm h.sound.machine.memory h

variable {B : Conduct → Prop}

theorem stands_operate (hs : c.Sound S.wordSize S.size S.table B) {circuit : Operation}
    (h : Stands S R { c with machine := c.machine.operated circuit }) :
    ((operate call circuit).on c).2.Stands S R := by
  by_cases hcircuit : circuit = .store
  · subst hcircuit
    rw [on_operate_store]
    exact stands_write hC hcall (Memory.write_natCast hs.machine.address_lt _) h
  · rw [on_operate hcircuit]
    exact (stands_heeded hC).keeps_notifyMachine hcall _ h

theorem stands_dispatch (hs : c.Sound S.wordSize S.size S.table B) {op circuit : Operation}
    (hlookup : S.table.lookup op = some circuit)
    (h : Stands S R { c with machine := c.machine.operated circuit }) :
    ((dispatch call op).on c).2.Stands S R := by
  rw [dispatch, on_get_bind]
  simp only [hs.table, hlookup]
  exact stands_operate hC hcall hs h

theorem stands_decode (hi : c.machine.Accepts c.table i)
    (h : Stands S R { c with machine := c.machine.decoded i }) :
    ((decode call (.instruction i)).on c).2.Stands S R := by
  rw [decode, on_get_bind, on_conclude_bind, checkInstruction_eq_ok.mpr ⟨rfl, hi⟩]
  simp only
  rw [on_modifyMachine_bind]
  exact Keeps.get_bind (fun d hd => Keeps.bind (stands_log _)
    (fun _ => (stands_heeded hC).keeps_notifyMachine hcall) d hd) _ h

theorem stands_execute (hs : c.Sound S.wordSize S.size S.table B)
    (hdecoded : c.machine.isDecoded = true)
    (h : Stands S R { c with machine := c.machine.executed S.table }) :
    ((execute call).on c).2.Stands S R := by
  obtain ⟨op, hop⟩ := Option.isSome_iff_exists.mp hdecoded
  obtain ⟨circuit, hcircuit⟩ := Option.isSome_iff_exists.mp (hs.machine.pending op hop).2
  have hlookup : S.table.lookup op = some circuit := hcircuit
  simp only [Machine.executed, hop, hlookup] at h
  rw [execute, on_get_bind, hop]
  simp only
  rw [on_modifyMachine_bind, on_bind]
  have hsound : Sound S.wordSize S.size S.table B { c with machine := c.machine.consume } :=
    ⟨hs.machine.consume, hs.events, hs.table, hs.watched, hs.conduct⟩
  have hdispatch := stands_dispatch hC hcall hsound hlookup h
  rcases hout : (dispatch call op).on { c with machine := c.machine.consume } with ⟨_ | _, d⟩ <;>
    rw [hout] at hdispatch
  · exact hdispatch
  · exact Keeps.get_bind (fun e he => stands_log _ e he) d hdispatch

theorem stands_insert (h : c.Stands S R) {j : Nat} {name args position : Value}
    (hinsert : ∀ p n i, c.programs[j]? = some p → insertion c p name args position = .ok (n, i) →
      Stands S R { c with programs := c.programs.modify j (·.insertAt n i) }) :
    ((insert call j name args position).on c).2.Stands S R := by
  cases hp : c.programs[j]? with
  | none =>
    rw [insert, on_program_bind, hp]
    exact h
  | some p =>
    rw [on_insertion hp]
    cases hinsertion : insertion c p name args position with
    | error fault => exact h
    | ok inserted =>
      exact Keeps.bind (stands_notifyProgram hC hcall j) (fun _ => Keeps.pure _) _
        (hinsert p _ _ hp hinsertion)

theorem stands_observe (source : Source) (k : Nat) :
    Keeps (Stands S R) (observe call source k) := by
  have hdeliver (notice : Notice) (h : notice.Sound S.wordSize S.size S.table) (d : Computer)
      (hd : d.Stands S R) : ((deliver call source notice k).on d).2.Stands S R :=
    (stands_heeded hC).keeps_deliver hcall h source k d hd
  intro c hc
  cases source with
  | memory =>
    exact hdeliver (.memory c.machine.memory) hc.sound.machine.memory _
      (hc.of_eq (Sound.invariant.change hc.sound (.watchMemory k)) rfl rfl rfl)
  | machine =>
    exact hdeliver (.machine c.machine) hc.sound.machine _
      (hc.of_eq (Sound.invariant.change hc.sound (.watchMachine k)) rfl rfl rfl)
  | program j =>
    refine Keeps.program_bind (fun c p hc _ => ?_) c hc
    rw [on_modifyProgram_bind]
    exact hdeliver (.program p.view) trivial _ (hc.mark j (fun _ => rfl) fun _ _ => rfl)

/-- The parts of runs and play loops keep it if the steps do. -/
theorem stands_keepsPlay (hstep : ∀ j, J j → Keeps (Stands S R) (step call j))
    (howner : ∀ j, J j → ∀ k, S.owner k j) : KeepsPlay (Stands S R) call J where
  step hj := hstep _ hj
  notify := stands_notifyProgram hC hcall
  begin hc _ _ _ := hc.mark _ (fun _ => rfl) fun _ _ => rfl
  halt hc _ _ := hc.mark _ (fun _ => rfl) fun _ _ => rfl
  finish j hc := hc.mark j (fun _ => rfl) fun _ _ => rfl
  makeLoop delay hj := stands_makeLoop (howner _ hj) delay
  setStage := stands_setStage
  setAwaited := stands_setAwaited
  log record _ := stands_log record

section
variable (hR : Progress.Steady S.wordSize S.size S.table R)
include hR

theorem stands_operates (circuit : Operation) : Keeps (Stands S R) (operate call circuit) :=
  fun c hc => stands_operate hC hcall hc.sound <|
    hc.work (hc.sound.machine.operated circuit) fun b s hm hs =>
      hR.work b s _ hs (hc.sound.machine.operated circuit)
        (by rw [hm, Machine.operated_instruction]) (by rw [hm, Machine.operated_pending])

theorem stands_writes (value address : Value) : Keeps (Stands S R) (write call value address) := by
  intro c hc
  cases hm : c.machine.memory.write value address with
  | error fault =>
    rw [write_refused hm]
    exact hc
  | ok memory =>
    obtain ⟨a, k, -, -, ha, rfl⟩ := Memory.write_eq_ok.mp hm
    have hsound := hc.sound.machine.stored a k
    exact stands_write hC hcall hm <| hc.work hsound fun b s hm hs =>
      hR.work b s _ hs hsound (by rw [hm]; rfl) (by rw [hm]; rfl)

theorem stands_dispatches (op : Operation) : Keeps (Stands S R) (dispatch call op) := by
  refine Keeps.get_bind fun c hc => ?_
  split
  · exact stands_operates hC hcall hR _ c hc
  · exact hc

theorem stands_inserts (j : Nat) (name args position : Value) :
    Keeps (Stands S R) (insert call j name args position) := fun c hc =>
  stands_insert hC hcall hc fun p k i hp hinsertion =>
    hc.modifyProgram j (fun q hq _ hs => by
      obtain rfl : p = q := Option.some.inj (hp.symm.trans hq)
      exact hR.insertAt _ _ k i hs (Program.position_le (insertion_position hinsertion)))
      fun _ _ _ hs => hs

end

theorem stands_decodes (hR : ∀ b s m, R b s → R b { s with machine := m }) (v : Value) :
    Keeps (Stands S R) (decode call v) := by
  intro c hc
  cases hcheck : checkInstruction c v with
  | error fault =>
    rw [decode_rejected hcheck]
    exact hc
  | ok i =>
    obtain ⟨rfl, hi⟩ := checkInstruction_eq_ok.mp hcheck
    have hsound := hc.sound.machine.decoded (hc.sound.table ▸ hi)
    exact stands_decode hC hcall hi (hc.work hsound fun b s _ hs => hR b s _ hs)

theorem stands_executes (hR : ∀ b s m, R b s → R b { s with machine := m }) :
    Keeps (Stands S R) (execute call) := by
  intro c hc
  cases hdecoded : c.machine.isDecoded with
  | false =>
    rw [execute_refused hdecoded]
    exact hc
  | true =>
    exact stands_execute hC hcall hc.sound hdecoded
      (hc.work hc.sound.machine.executed fun b s _ hs => hR b s _ hs)

/-- What a call does keeps it if the steps do that it takes. -/
theorem stands_perform (hR : Progress.Steady S.wordSize S.size S.table R)
    (hstep : ∀ j, J j → Keeps (Stands S R) (step call j)) (howner : ∀ j, J j → ∀ k, S.owner k j)
    {command : Command} (h : command.Fits S J R) : Keeps (Stands S R) (perform call command) := by
  have hplay := stands_keepsPlay hC hcall hstep howner
  cases command with
  | step j => exact Keeps.bind (hstep j h) fun _ => Keeps.pure _
  | run j => exact Keeps.bind (hplay.run h) fun _ => Keeps.pure _
  | play j delay =>
    exact Keeps.bind (hplay.toKeepsRuns.play hplay.begin (stands_makeLoop h delay))
      fun _ => Keeps.pure _
  | stop j => exact Keeps.bind (hplay.stop j) fun _ => Keeps.pure _
  | tick k => exact hplay.tick fun hc hl => h _ (hc.loops k _ hl)
  | cancel k => exact hplay.cancel k
  | append j name args =>
    exact Keeps.bind (Keeps.program_bind fun c _ hc _ =>
      stands_inserts hC hcall hR j name args _ c hc) fun _ => Keeps.pure _
  | insert j name args position =>
    exact Keeps.bind (stands_inserts hC hcall hR j name args position) fun _ => Keeps.pure _
  | decode v => exact Keeps.bind (stands_decodes hC hcall h v) fun _ => Keeps.pure _
  | execute => exact Keeps.bind (stands_executes hC hcall h) fun _ => Keeps.pure _
  | operate circuit => exact Keeps.bind (stands_operates hC hcall hR circuit) fun _ => Keeps.pure _
  | dispatch op => exact Keeps.bind (stands_dispatches hC hcall hR op) fun _ => Keeps.pure _
  | write value address =>
    exact Keeps.bind (stands_writes hC hcall hR value address) fun _ => Keeps.pure _
  | read address =>
    exact Keeps.get_bind fun c hc => Keeps.bind (Keeps.conclude _) (fun _ => Keeps.pure _) c hc
  | validate address =>
    exact Keeps.get_bind fun c hc => Keeps.bind (Keeps.conclude _) (fun _ => Keeps.pure _) c hc
  | observe source k => exact Keeps.bind (stands_observe hC hcall source k) fun _ => Keeps.pure _
  | unobserve source k => exact Keeps.bind (stands_unobserve source k) fun _ => Keeps.pure _
  | observeValue source value => exact Keeps.throw _

end

end Routine

end Accumulator
