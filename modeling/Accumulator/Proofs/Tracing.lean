import Accumulator.Proofs.Completion
import Accumulator.Proofs.Inserting
import Accumulator.Proofs.Refusing
import Accumulator.Proofs.Schedule

/-! What a program keeps of its steps when others work on its machine as well. A step is refused
when the machine has no entry for the operation, or when nothing is pending any more that the
program has decoded; either way nothing is carried out. As long as every step that is to execute
finds something pending, the entries of a trace are of what was applied, and as long as it finds
what the program has decoded, they state what was applied. -/

namespace Accumulator

/-- The entry is of something that was pending, and it was applied. -/
structure TraceEntry.Applied (t : Dispatch) (e : TraceEntry) : Prop where
  pending : e.pre.isDecoded = true
  applied : e.post = e.pre.executed t

namespace Progress

variable {w n : Nat} {t : Dispatch}

/-- Something is pending if the program has decoded an instruction. -/
def Pending (s : Progress) : Prop := s.phase = .decoded → s.machine.isDecoded = true

instance : DecidablePred Pending := fun s =>
  inferInstanceAs (Decidable (s.phase = .decoded → s.machine.isDecoded = true))

/-- Something pending vouches for it that something was applied. -/
theorem pending_vouches : Vouches w n t Pending (TraceEntry.Applied t) where
  next hs h := (Held.next ⟨hs, h⟩).pending
  insertAt _ _ h := h
  work h _ hpending hphase := (congrArg Option.isSome hpending).trans (h hphase)
  entry _ h hphase _ hpre hpost := ⟨hpre ▸ h hphase, hpre ▸ hpost⟩

theorem traced_steady (es : List TraceEntry) :
    Steady w n t (Standing false fun s => s.trace = es) where
  insertAt _ _ _ _ hs _ := hs
  work _ _ _ hs _ _ _ := hs

end Progress

namespace Computer

/-- The call steps the program of a number. -/
def Steps (index : Nat) (c : Computer) : Command → Prop
  | .step j | .run j => j = index
  | .tick k => c.loops[k]?.map PlayLoop.program = some index
  | _ => False

/-- The program and its machine are as `H` says. -/
def Finds (H : Progress → Prop) (index : Nat) (c : Computer) : Prop :=
  ∀ p, c.programs[index]? = some p → H (p.progress c.machine)

/-- Whenever one of the calls steps the program, it and its machine are as `H` says. -/
def FindsAlong (H : Progress → Prop) (index : Nat) : Computer → List Command → Prop
  | _, [] => True
  | c, command :: commands =>
    (c.Steps index command → c.Finds H index) ∧ FindsAlong H index (c.perform command).2 commands

instance (H : Progress → Prop) [DecidablePred H] (index : Nat) (c : Computer) :
    Decidable (c.Finds H index) :=
  inferInstanceAs (Decidable (∀ p ∈ c.programs[index]?, H (p.progress c.machine)))

instance (index : Nat) (c : Computer) : (command : Command) → Decidable (c.Steps index command)
  | .step j | .run j => inferInstanceAs (Decidable (j = index))
  | .tick k => inferInstanceAs (Decidable (c.loops[k]?.map PlayLoop.program = some index))
  | .append .. | .insert .. | .play .. | .stop _ | .cancel _ | .decode _ | .execute | .operate _
  | .dispatch _ | .write .. | .read _ | .validate _ | .observe .. | .unobserve ..
  | .observeValue .. => isFalse id

instance decidableFindsAlong (H : Progress → Prop) [DecidablePred H] (index : Nat) :
    (c : Computer) → (commands : List Command) → Decidable (c.FindsAlong H index commands)
  | _, [] => isTrue trivial
  | c, command :: commands =>
    have : Decidable ((c.perform command).2.FindsAlong H index commands) :=
      decidableFindsAlong H index _ commands
    inferInstanceAs (Decidable ((c.Steps index command → c.Finds H index) ∧ _))

/-- From `c` to `d` a step of the program `p` has been refused with a fault: the operation is not
supported, or nothing is pending. The machine is as it was, nobody was told, and as long as
something is pending that the program has decoded everything is as it was. -/
structure StepRefused (t : Dispatch) (index : Nat) (c : Computer) (p : Program) (f : Fault)
    (d : Computer) : Prop where
  reason : (p.phase = .fetch ∧ ∃ i, p.current? = some i ∧ t.contains i.operation = false ∧
      f = .unsupported i.operation) ∨
    (p.phase = .decoded ∧ c.machine.isDecoded = false ∧ f = .nothingDecoded)
  machine : d.machine = c.machine
  events : d.events = c.events
  program : ∃ q, d.programs = c.programs.set index q ∧ q.instructions = p.instructions
  unchanged : (p.progress c.machine).Pending → d = c

variable {S : Setting} {R R' : Bool → Progress → Prop} {c d : Computer} {w n : Nat} {t : Dispatch}
  {B : Conduct → Prop} {index : Nat}

/-- A program and its machine have come further. -/
theorem Stands.put {j : Nat} {p : Program} {s : Progress} (h : c.Stands S R)
    (hp : c.programs[j]? = some p) (hd : (c.put j p s).Noted d)
    (hs : d.Sound S.wordSize S.size S.table S.conduct)
    (hself : j = S.index → R p.stepping (p.progress c.machine) → R' p.stepping s)
    (hother : j ≠ S.index → ∀ b s', R b s' → R' b { s' with machine := s.machine }) :
    d.Stands S R' := by
  obtain ⟨_, _, _, rfl, -⟩ := hd
  obtain ⟨q, hq, hR⟩ := h.program
  refine ⟨hs, h.loops, ?_⟩
  by_cases hj : j = S.index
  · subst hj
    obtain rfl : p = q := Option.some.inj (hp.symm.trans hq)
    exact ⟨p.put s, List.getElem?_set_self (List.getElem?_eq_some_iff.mp hp).1, hself rfl hR⟩
  · refine ⟨q, ?_, hother hj _ _ hR⟩
    show (c.programs.set j _)[S.index]? = _
    rw [List.getElem?_set_ne hj, hq]

end Computer

namespace Routine

open Computer Progress

variable {S : Setting} {R : Bool → Progress → Prop} {c : Computer} {w n : Nat} {t : Dispatch}
  {B : Conduct → Prop} {call : Caller} {index : Nat} {i : Instruction}

/-- A step changes nothing, or takes a program that is in no step to its next progress. -/
theorem step_lands (hc : c.Quiet) (hs : c.Sound w n t B) (index : Nat) :
    ((step call index).on c).2 = c ∨ ∃ p, c.programs[index]? = some p ∧ p.stepping = false ∧
      (c.put index p ((p.progress c.machine).next t)).Noted ((step call index).on c).2 := by
  cases hp : c.programs[index]? with
  | none =>
    refine .inl ?_
    rw [step, on_program_bind, hp]
  | some p =>
    cases hstepping : p.stepping with
    | true =>
      refine .inl ?_
      rw [step, on_program_bind, hp]
      simp only [hstepping, if_true]
      rfl
    | false =>
      cases hi : p.current? with
      | none => exact .inl (by rw [step_complete hp hstepping hi])
      | some i =>
        refine .inr ⟨p, rfl, hstepping, ?_⟩
        by_cases hready : (p.progress c.machine).Ready t i
        · exact (step_arrives hc hs hp hstepping hi hready).state
        · obtain ⟨fault, hon⟩ := step_refused hs.table hp hstepping hi hready
          rw [hon]
          exact .refl _

section
variable (hS : S.conduct = Conduct.Records)
  (hcall : ∀ command, Keeps (Computer.Sound S.wordSize S.size S.table S.conduct) (call command))
include hS hcall

theorem honest_step {H : Progress → Prop} {E : TraceEntry → Prop}
    (hH : Vouches S.wordSize S.size S.table H E) (j : Nat) (hj : j = S.index) :
    Keeps (Stands S (Standing false (Honest S.wordSize S.size S.table H E))) (step call j) := by
  intro c hc
  have hquiet : c.Quiet := fun s hs => (hS ▸ hc.sound.conduct s hs : Conduct.Records s.react).quiet
  rcases step_lands hquiet hc.sound j with hon | ⟨p, hp, -, hnoted⟩
  · rwa [hon]
  · exact hc.put hp hnoted (Sound.invariant.keeps_step hcall j c hc.sound)
      (fun _ hR => ⟨hR.1, hR.2.next hH⟩) fun hne => absurd hj hne

theorem traced_step (es : List TraceEntry) (j : Nat) (hj : j ≠ S.index) :
    Keeps (Stands S (Standing false fun s => s.trace = es)) (step call j) := by
  intro c hc
  have hquiet : c.Quiet := fun s hs => (hS ▸ hc.sound.conduct s hs : Conduct.Records s.react).quiet
  rcases step_lands hquiet hc.sound j with hon | ⟨p, hp, -, hnoted⟩
  · rwa [hon]
  · exact hc.put hp hnoted (Sound.invariant.keeps_step hcall j c hc.sound)
      (fun heq => absurd heq hj) fun _ _ _ hR => hR

end

theorem fetchPhase_fault {fault : Fault} (h : checkInstruction c (.instruction i) = .error fault) :
    ((fetchPhase call index i).on c).1 = .error fault := by
  rw [fetchPhase, on_bind, on_ensuring, decode_rejected h, on_get_bind]
  by_cases hholds : c.machine.holds i = true
  · simp only [if_pos hholds]
    rfl
  · simp only [if_neg hholds]
    rfl

theorem executePhase_fault (h : c.machine.isDecoded = false) :
    ((executePhase call index i).on c).1 = .error .nothingDecoded := by
  rw [executePhase, on_get_bind, on_bind, on_ensuring, execute_refused h, on_get_bind]
  simp only [h, Bool.not_false, if_true]
  rfl

/-- A step is refused for the reason for which its phase is. -/
theorem step_fault {p : Program} (hp : c.programs[index]? = some p) (hstepping : p.stepping = false)
    (hi : p.current? = some i) {fault : Fault}
    (h : ((doPhase call index i p.phase).on { c with
      programs := c.programs.modify index fun p => { p with stepping := true } }).1 =
        .error fault) : ((step call index).on c).1 = .error fault := by
  rw [on_step hp hstepping hi, on_bind, on_ensuring, h]
  rfl

/-- A step whose operation is not supported changes nothing. -/
theorem step_unsupported (hs : c.Sound w n t B) {p : Program} (hp : c.programs[index]? = some p)
    (hstepping : p.stepping = false) (hi : p.current? = some i) (hphase : p.phase = .fetch)
    (h : t.contains i.operation = false) :
    (step call index).on c = (.error (.unsupported i.operation), c) := by
  have hcurrent : (p.progress c.machine).current? = some i := hi
  have hphase' : (p.progress c.machine).phase = .fetch := hphase
  have hready : ¬ (p.progress c.machine).Ready t i := by
    simp only [Ready, hphase']
    rintro ⟨hcontains, -⟩
    rw [h] at hcontains
    cases hcontains
  have hheld : (p.progress c.machine).Held w n t :=
    ⟨hs.machine, fun hdecoded => absurd (hphase.symm.trans hdecoded) (by decide)⟩
  have hfault : ((step call index).on c).1 = .error (.unsupported i.operation) := by
    refine step_fault hp hstepping hi ?_
    rw [hphase]
    exact fetchPhase_fault (by simp [checkInstruction, hs.table, h])
  obtain ⟨fault, hon⟩ : ∃ fault, (step call index).on c = (.error fault, _) :=
    step_refused hs.table hp hstepping hi hready
  rw [hheld.next_of_not_ready hcurrent hready, put_self hp] at hon
  rw [hon] at hfault ⊢
  rw [← hfault]

/-- A step that is to execute and finds nothing pending leaves the machine as it is. -/
theorem step_idle (ht : c.table = t) {p : Program} (hp : c.programs[index]? = some p)
    (hstepping : p.stepping = false) (hi : p.current? = some i) (hphase : p.phase = .decoded)
    (h : c.machine.isDecoded = false) : (step call index).on c =
      (.error .nothingDecoded, c.put index p ((p.progress c.machine).finished t i)) := by
  have hcurrent : (p.progress c.machine).current? = some i := hi
  have hphase' : (p.progress c.machine).phase = .decoded := hphase
  have hready : ¬ (p.progress c.machine).Ready t i := by
    simp only [Ready, hphase']
    show ¬ c.machine.isDecoded = true
    rw [h]
    decide
  have hfault : ((step call index).on c).1 = .error .nothingDecoded := by
    refine step_fault hp hstepping hi ?_
    rw [hphase]
    exact executePhase_fault h
  obtain ⟨fault, hon⟩ : ∃ fault, (step call index).on c = (.error fault, _) :=
    step_refused ht hp hstepping hi hready
  rw [next_decoded hcurrent hphase'] at hon
  rw [hon] at hfault ⊢
  rw [← hfault]

end Routine

namespace Computer

open Routine

variable {w n : Nat} {t : Dispatch} {c : Computer} {index : Nat} {p : Program} {f : Fault}

/-- What a step is refused for, and what it leaves. -/
theorem step_refusal (hn : 0 < n) (h : c.Reachable w n t Conduct.Records)
    (hp : c.programs[index]? = some p) (hf : (c.perform (.step index)).1 = .error f) :
    StepRefused t index c p f (c.perform (.step index)).2 := by
  have hsound := h.sound hn
  have hstepping := (h.atRest hn).steps p (List.mem_of_getElem? hp)
  rw [perform_step] at hf ⊢
  rcases hi : p.current? with _ | i
  · rw [step_complete hp hstepping hi] at hf
    cases hf
  by_cases hready : (p.progress c.machine).Ready t i
  · have hok : ((step (performWithin c.bound) index).on c).1 = .ok true :=
      (step_arrives (hsound.imp fun _ => Conduct.Records.quiet).conduct hsound hp hstepping hi
        hready).recorded hsound.conduct
    rw [hok] at hf
    cases hf
  cases hphase : p.phase with
  | fetch =>
    have hcontains : t.contains i.operation = false := by
      have hphase' : (p.progress c.machine).phase = .fetch := hphase
      simp only [Progress.Ready, hphase'] at hready
      refine Bool.eq_false_iff.mpr fun hcontains => hready ⟨hcontains, fun a ha => ?_⟩
      have hlt := h.addressed hn p (List.mem_of_getElem? hp) i (List.mem_of_getElem? hi) a ha
      rwa [← hsound.machine.memory.size] at hlt
    have hon : (step (performWithin c.bound) index).on c = (.error (.unsupported i.operation), c) :=
      step_unsupported hsound hp hstepping hi hphase hcontains
    rw [hon] at hf ⊢
    cases hf
    have hsame : c.programs = c.programs.set index p :=
      (congrArg Computer.programs (put_self hp)).symm
    exact ⟨.inl ⟨hphase, i, hi, hcontains, rfl⟩, rfl, rfl, ⟨p, hsame, rfl⟩, fun _ => rfl⟩
  | decoded =>
    have hidle : c.machine.isDecoded = false := by
      have hphase' : (p.progress c.machine).phase = .decoded := hphase
      simp only [Progress.Ready, hphase'] at hready
      exact Bool.eq_false_iff.mpr hready
    have hon : (step (performWithin c.bound) index).on c = (.error .nothingDecoded, _) :=
      step_idle hsound.table hp hstepping hi hphase hidle
    rw [hon] at hf ⊢
    cases hf
    refine ⟨.inr ⟨hphase, hidle, rfl⟩, Machine.executed_idle hidle, rfl, ⟨_, rfl, rfl⟩,
      fun hpending => ?_⟩
    cases hidle.symm.trans (hpending hphase)

/-- The setting of a program in the course of a call that steps only the programs in `J`. -/
def setting (w n : Nat) (t : Dispatch) (index : Nat) (J : Nat → Prop) (command : Command) :
    Setting where
  wordSize := w
  size := n
  table := t
  conduct := Conduct.Records
  owner k j := command = .tick k → J j
  index := index

/-- What a program stands at is kept by a call if the steps of the programs keep it that the call
steps. -/
theorem Stands.perform {J : Nat → Prop} {R : Bool → Progress → Prop} {command : Command}
    (h : c.Stands (setting w n t index J command) R) (hR : Progress.Steady w n t R)
    (hstep : ∀ j, J j → Keeps (Stands (setting w n t index J command) R)
      (step (performWithin c.bound) j))
    (hfits : command.Fits (setting w n t index J command) J R) :
    (c.perform command).2.Stands (setting w n t index J command) R := by
  have hC : ∀ react, Conduct.Records react → ∀ state notice,
      (react state notice).2.Calls fun _ => False := fun react hreact state notice => by
    rw [hreact state notice]
    trivial
  exact stands_perform hC no_calls hR hstep (fun _ hj _ _ => hj) hfits c h

section
variable {H : Progress → Prop} {E : TraceEntry → Prop} (hH : Progress.Vouches w n t H E)
include hH

/-- A call that steps the program adds only such entries to its trace as are vouched for; any other
call adds nothing. -/
theorem vouched_perform (hn : 0 < n) (h : c.Reachable w n t Conduct.Records)
    (hp : c.programs[index]? = some p) (htrace : ∀ e ∈ p.trace, E e) {command : Command}
    (halong : c.Steps index command → c.Finds H index) :
    ∃ q, (c.perform command).2.programs[index]? = some q ∧ ∀ e ∈ q.trace, E e := by
  have hsound := h.sound hn
  have hstepping := (h.atRest hn).steps p (List.mem_of_getElem? hp)
  have hcall : ∀ command, Keeps (Computer.Sound w n t Conduct.Records)
      (performWithin c.bound command) := Sound.invariant.keeps_performWithin c.bound
  -- If the call steps the program it steps no other, and each step keeps it that the program and
  -- its machine are as `H` says. If it does not, the program keeps its trace.
  by_cases hsteps : c.Steps index command
  · let S := setting w n t index (· = index) command
    have hstands : c.Stands S (Progress.Standing false (Progress.Honest w n t H E)) := by
      refine ⟨hsound, fun k l hl htick => ?_, p, hp, hstepping, hsound.machine, ?_, htrace⟩
      · subst htick
        simpa [Steps, hl] using hsteps
      · exact halong hsteps p hp
    have hafter := hstands.perform (Progress.honest_steady hH) (honest_step (S := S) rfl hcall hH)
      <| by
      cases command with
      | step j => exact hsteps
      | run j => exact hsteps
      | tick k => exact fun j hj => hj rfl
      | _ => exact hsteps.elim
    obtain ⟨q, hq, -, hhonest⟩ := hafter.program
    exact ⟨q, hq, hhonest.entries⟩
  · let S := setting w n t index (· ≠ index) command
    have hstands : c.Stands S (Progress.Standing false fun s => s.trace = p.trace) := by
      refine ⟨hsound, fun k l hl htick hprogram => ?_, p, hp, hstepping, rfl⟩
      subst htick
      exact hsteps (by simp [Steps, hl, hprogram])
    have hafter := hstands.perform (Progress.traced_steady p.trace)
      (traced_step (S := S) rfl hcall _) <| by
      cases command with
      | step j => exact hsteps
      | run j => exact hsteps
      | play j delay => exact fun k htick => nomatch htick
      | tick k => exact fun j hj => hj rfl
      | decode v => exact fun _ _ _ hR => hR
      | execute => exact fun _ _ _ hR => hR
      | _ => trivial
    obtain ⟨q, hq, -, hsame⟩ := hafter.program
    have hsame' : q.trace = p.trace := hsame
    exact ⟨q, hq, hsame' ▸ htrace⟩

theorem vouched_performAll (hn : 0 < n) (h : c.Reachable w n t Conduct.Records)
    (hp : c.programs[index]? = some p) (htrace : ∀ e ∈ p.trace, E e)
    {commands : List Command} (halong : c.FindsAlong H index commands) :
    ∃ q, (c.performAll commands).programs[index]? = some q ∧ ∀ e ∈ q.trace, E e := by
  induction commands generalizing c p with
  | nil => exact ⟨p, hp, htrace⟩
  | cons command commands ih =>
    obtain ⟨q, hq, hq'⟩ := vouched_perform hH hn h hp htrace halong.1
    exact ih (h.call command) hq hq' halong.2

end

/-- A step that is refused changes nothing, if something is pending that the program has decoded. If
that is so whenever the program is stepped, its trace tells only of what was pending and was
applied, whoever else works on the machine; and if what is pending then is the instruction that the
program has decoded, that is the one its trace states. -/
theorem refused_step (hn : 0 < n) (h : c.Reachable w n t Conduct.Records)
    (hp : c.programs[index]? = some p) :
    (∀ f, (c.perform (.step index)).1 = .error f →
      StepRefused t index c p f (c.perform (.step index)).2) ∧
    ((∀ e ∈ p.trace, e.Applied t) → ∀ commands, c.FindsAlong Progress.Pending index commands →
      ∃ q, (c.performAll commands).programs[index]? = some q ∧ ∀ e ∈ q.trace, e.Applied t) ∧
    ((∀ e ∈ p.trace, e.Faithful t) → ∀ commands, c.FindsAlong Progress.Holding index commands →
      ∃ q, (c.performAll commands).programs[index]? = some q ∧ ∀ e ∈ q.trace, e.Faithful t) :=
  ⟨fun _ hf => step_refusal hn h hp hf,
    fun htrace _ halong => vouched_performAll Progress.pending_vouches hn h hp htrace halong,
    fun htrace _ halong => vouched_performAll Progress.holding_vouches hn h hp htrace halong⟩

/-- The table has no complement. Two programs and direct calls work on the machine, and the first
program has shifted when its complement is refused. -/
theorem refused_step_unsupported :
    let t : Dispatch := ⟨[(.lshift, .lshift)], true⟩
    let p : Program := { instructions := [⟨.lshift, none⟩, ⟨.not, none⟩], stepDelay := .none }
    let q : Program := { instructions := [⟨.lshift, none⟩], stepDelay := .none }
    let c := (({ idle (.zeros 4 2) t with subscribers := [.recorder] }).addProgram p).addProgram q
    let commands : List Command := [.observe (.program 0) 0, .step 0, .operate .not, .step 0,
      .step 1, .execute]
    let d := c.performAll commands
    d.perform (.step 0) = (.error (.unsupported .not), d) ∧
      d.programs[0]?.map (fun r : Program => r.trace.length) = some 1 ∧
      ∃ r : Program, d.programs[0]? = some r ∧ ∀ e ∈ r.trace, e.Faithful t := by
  intro t p q c commands d
  have hrecords : ∀ s ∈ [Subscriber.recorder], Conduct.Records s.react :=
    List.forall_mem_singleton.mpr fun _ _ => rfl
  have hp : Program.ofEntries (.zeros 4 2)
      (.list [.instruction ⟨.lshift, none⟩, .instruction ⟨.not, none⟩]) .none = .ok p := rfl
  have hq : Program.ofEntries (.zeros 4 2) (.list [.instruction ⟨.lshift, none⟩]) .none =
      .ok q := rfl
  have hc : c.Reachable 4 2 t Conduct.Records :=
    .build _ _ (.build _ _ (.idle [.recorder] 0 hrecords) hp) hq
  have hd : d.Reachable 4 2 t Conduct.Records := hc.performAll commands
  have hprogram : c.programs[0]? = some p := rfl
  have halong : c.FindsAlong Progress.Holding 0 commands := by decide +kernel
  obtain ⟨r, hr, hfaithful⟩ : ∃ r : Program, d.programs[0]? = some r ∧ _ :=
    (refused_step (by decide) hc hprogram).2.2 (by simp [p]) commands halong
  have hlength : d.programs[0]?.map (fun r : Program => r.trace.length) = some 1 := by
    decide +kernel
  have hshown : d.programs[0]?.map (fun r : Program => (r.current?, r.phase)) =
      some (some ⟨.not, none⟩, .fetch) := by decide +kernel
  clear_value d
  rw [hr, Option.map_some, Option.some.injEq, Prod.mk.injEq] at hshown
  have hf : (d.perform (.step 0)).1 = .error (.unsupported .not) := by
    rw [perform_step, step_unsupported (hd.sound (by decide)) hr
      ((hd.atRest (by decide)).steps r (List.mem_of_getElem? hr)) hshown.1 hshown.2 rfl]
    rfl
  have hrefused := (refused_step (by decide) hd hr).1 _ hf
  have hpending : (r.progress d.machine).Pending := fun hdecoded => by
    cases hshown.2.symm.trans hdecoded
  exact ⟨Prod.ext hf (hrefused.unchanged hpending), hlength, r, hr, hfaithful⟩

/-- Somebody else executes what the program has decoded. The step that then finds nothing pending is
refused, and still the program enters the instruction and moves past it. -/
theorem refused_step_executed :
    let p : Program := { instructions := [⟨.not, none⟩], stepDelay := .none }
    let c := (idle (.zeros 4 2) .standard).addProgram p
    let d := c.performAll [.step 0, .execute]
    c.Reachable 4 2 .standard Conduct.Records ∧
      (d.perform (.step 0)).1 = .error .nothingDecoded ∧
      d.programs[0]?.map (fun q : Program => (q.counter, q.phase, q.trace.length)) =
        some (0, .decoded, 0) ∧
      (d.perform (.step 0)).2.programs[0]?.map (fun q : Program =>
        (q.counter, q.phase, q.trace.length)) = some (1, .fetch, 1) := by
  intro p c d
  have hp : Program.ofEntries (.zeros 4 2) (.list [.instruction ⟨.not, none⟩]) .none = .ok p := rfl
  refine ⟨.build _ _ (.idle [] 0 nofun) hp, rfl, ?_, ?_⟩
  · decide +kernel
  · decide +kernel

end Computer

end Accumulator
