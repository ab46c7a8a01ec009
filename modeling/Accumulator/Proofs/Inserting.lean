import Accumulator.Proofs.Ledger
import Accumulator.Proofs.Standing
import Mathlib

/-! Programs that their subscribers edit, from inside any notice. An insertion that is made while a
phase is gone through comes to the same as one before or after it, with one exception: between the
moment at which the machine has decoded an instruction and the moment at which its program knows, an
insertion takes the place of that instruction. -/

namespace Accumulator

/-- On a notice a subscriber makes no calls but insertions. It may fail. -/
def Conduct.Edits (react : Conduct) : Prop :=
  ∀ state notice, (react state notice).2.Calls fun command => ∃ j, command.Edits j

theorem Reaction.calls_once {C : Command → Prop} {command : Command} (h : C command) :
    (Reaction.once command).Calls C := by
  refine ⟨h, fun outcome => ?_⟩
  cases outcome <;> trivial

/-- A call has the machine decode and execute nothing but for one program, whose loops are those
from `first` on. -/
def Command.Serves (index first : Nat) : Command → Prop
  | .step i | .run i | .play i _ => i = index
  | .tick k => first ≤ k
  | .decode _ | .execute => False
  | _ => True

theorem Command.Serves.fits {S : Setting} {R : Bool → Progress → Prop} {first : Nat}
    {command : Command} (h : command.Serves S.index first)
    (hfirst : ∀ k j, S.owner k j → first ≤ k → j = S.index) (howner : ∀ k, S.owner k S.index) :
    command.Fits S (· = S.index) R := by
  cases command with
  | step j => exact h
  | run j => exact h
  | play j delay => exact fun k => (show j = S.index from h) ▸ howner k
  | tick k => exact fun j hj => hfirst k j hj h
  | decode v => exact h.elim
  | execute => exact h.elim
  | _ => trivial

/-- What is executed is the instruction that the entry states. -/
structure TraceEntry.Faithful (t : Dispatch) (e : TraceEntry) : Prop where
  held : e.pre.registers.instruction = some e.instruction
  pending : e.pre.registers.pending = some e.instruction.operation
  applied : e.post = e.pre.executed t

/-- Where phases, insertions and work on the machine take a program, one after the other, and what
becomes of its ledger. Work on the machine touches nothing that is decoded. -/
inductive Ledger.Leads (w n : Nat) (t : Dispatch) (L : Ledger) (s : Progress) :
    Ledger → Progress → Prop
  | refl : Leads w n t L s L s
  | phase {L' : Ledger} {s' : Progress} : Leads w n t L s L' s' →
      Leads w n t L s (L'.execute ((s'.next t).trace.drop s'.trace.length)) (s'.next t)
  | insert {L' : Ledger} {s' : Progress} (k : Nat) (i : Instruction) : Leads w n t L s L' s' →
      k ≤ s'.instructions.length →
      Leads w n t L s (L'.add k i (s'.passed k)) (s'.insertAt k i)
  | work {L' : Ledger} {s' : Progress} (m : Machine) : Leads w n t L s L' s' → m.Sound w n t →
      m.registers.instruction = s'.machine.registers.instruction →
      m.registers.pending = s'.machine.registers.pending →
      Leads w n t L s L' { s' with machine := m }

namespace Progress

variable {w n : Nat} {t : Dispatch} {s : Progress} {i : Instruction}

theorem Consistent.work (h : s.Consistent) {m : Machine}
    (hinstruction : m.registers.instruction = s.machine.registers.instruction)
    (hpending : m.registers.pending = s.machine.registers.pending) :
    Consistent { s with machine := m } := by
  have hdecoded : m.isDecoded = s.machine.isDecoded := congrArg Option.isSome hpending
  refine ⟨hdecoded ▸ h.decoded, fun hphase => ?_⟩
  obtain ⟨i, hi, hholds⟩ := h.held hphase
  exact ⟨i, hi, by rwa [Machine.holds_congr hinstruction hpending]⟩

/-- A program that is new is consistent with a machine that has nothing pending. -/
theorem Consistent.of_new {p : Program} {m : Machine} {is : List Instruction} {delay : Value}
    (hp : p = { instructions := is, stepDelay := delay }) (hidle : m.isDecoded = false) :
    (p.progress m).Consistent := by
  have hfetch : ¬ (p.progress m).phase = .decoded := by
    rw [hp]
    exact nofun
  have hmachine : ¬ (p.progress m).machine.isDecoded = true := by
    simpa [Program.progress] using hidle
  exact ⟨⟨fun h => absurd h hfetch, fun h => absurd h hmachine⟩, fun h => absurd h hfetch⟩

/-- The machine holds the instruction at the counter if the program has decoded it. -/
def Holding (s : Progress) : Prop := s.phase = .decoded → s.current?.any s.machine.holds = true

instance : DecidablePred Holding := fun s =>
  inferInstanceAs (Decidable (s.phase = .decoded → s.current?.any s.machine.holds = true))

/-- What holds of a program and its machine if `H` does vouches for the entries that steps add. It
lasts through steps and insertions, and as long as nobody else touches what is decoded. -/
structure Vouches (w n : Nat) (t : Dispatch) (H : Progress → Prop) (E : TraceEntry → Prop) :
    Prop where
  next : ∀ {s : Progress}, s.machine.Sound w n t → H s → H (s.next t)
  insertAt : ∀ {s : Progress} (k : Nat) (i : Instruction), H s → H (s.insertAt k i)
  work : ∀ {s : Progress} {m : Machine}, H s →
    m.registers.instruction = s.machine.registers.instruction →
    m.registers.pending = s.machine.registers.pending → H { s with machine := m }
  entry : ∀ {s : Progress} {e : TraceEntry}, s.machine.Sound w n t → H s → s.phase = .decoded →
    s.current? = some e.instruction → e.pre = s.machine → e.post = s.machine.executed t → E e

theorem Holding.next (h : s.Holding) (t : Dispatch) : (s.next t).Holding := by
  cases hi : s.current? with
  | none => rwa [next_complete hi]
  | some i =>
    cases hphase : s.phase with
    | fetch =>
      by_cases haccepts : s.machine.Accepts t i
      · rw [next_accepted hi hphase haccepts]
        intro _
        show s.current?.any (s.machine.decoded i).holds = true
        rw [hi]
        exact s.machine.decoded_holds i
      · rw [next_refused hi hphase haccepts, fetched]
        split
        · rename_i hholds
          intro _
          show s.current?.any s.machine.holds = true
          rwa [hi]
        · exact h
    | decoded =>
      rw [next_decoded hi hphase]
      intro hdecoded
      cases hdecoded

/-- What the machine holds vouches for it that the instruction was applied that is stated. -/
theorem holding_vouches : Vouches w n t Holding (TraceEntry.Faithful t) where
  next _ h := h.next t
  insertAt {s} k i h hphase := by
    have hdecoded : s.phase = .decoded := hphase
    rw [current?_insertAt (.inl hdecoded)]
    exact h hdecoded
  work h hinstruction hpending hphase := by
    rw [Machine.holds_congr hinstruction hpending]
    exact h hphase
  entry hs h hphase hi hpre hpost := by
    have hholds := h hphase
    rw [hi] at hholds
    obtain ⟨hheld, hpending⟩ := hs.pending_of_holds hholds
    exact ⟨hpre ▸ hheld, hpre ▸ hpending, hpre ▸ hpost⟩

/-- The condition holds, and the entries are as it vouches for. -/
structure Honest (w n : Nat) (t : Dispatch) (H : Progress → Prop) (E : TraceEntry → Prop)
    (s : Progress) : Prop where
  sound : s.machine.Sound w n t
  held : H s
  entries : ∀ e ∈ s.trace, E e

section
variable {H : Progress → Prop} {E : TraceEntry → Prop} (hH : Vouches w n t H E)
include hH

theorem Honest.next (h : s.Honest w n t H E) : (s.next t).Honest w n t H E := by
  refine ⟨next_sound h.sound, hH.next h.sound h.held, ?_⟩
  rcases next_trace t s with hsame | ⟨i, hi, hphase, hnext⟩
  · rw [hsame]
    exact h.entries
  · rw [hnext]
    intro e he
    rcases List.mem_append.mp he with he | he
    · exact h.entries e he
    · obtain rfl := List.mem_singleton.mp he
      exact hH.entry h.sound h.held hphase hi rfl rfl

theorem honest_steady : Steady w n t (Standing false (Honest w n t H E)) where
  insertAt _ _ k i hs _ := ⟨hs.1, hs.2.sound, hH.insertAt k i hs.2.held, hs.2.entries⟩
  work _ _ _ hs hm hinstruction hpending :=
    ⟨hs.1, hm, hH.work hs.2.held hinstruction hpending, hs.2.entries⟩

end

theorem Consistent.holding (h : s.Consistent) : s.Holding := by
  intro hphase
  obtain ⟨i, hi, hholds⟩ := h.held hphase
  rwa [hi]

/-- An insertion is not in the place of an instruction that the machine has decoded and the program
has not fetched yet, unless the program is complete. -/
def Misses (s : Progress) (k : Nat) : Prop :=
  s.phase = .fetch → s.machine.isDecoded = true → k = s.counter → k = s.instructions.length

/-- Phases, insertions and work on the machine keep the property. -/
structure Preserved (w n : Nat) (t : Dispatch) (Q : Progress → Prop) : Prop where
  consistent : ∀ {s : Progress}, Q s → s.Consistent
  next : ∀ {s : Progress}, Q s → Q (s.next t)
  insertAt : ∀ {s : Progress} {k : Nat} (i : Instruction), Q s → k ≤ s.instructions.length →
    Q (s.insertAt k i)
  work : ∀ {s : Progress} {m : Machine}, Q s → m.Sound w n t →
    m.registers.instruction = s.machine.registers.instruction →
    m.registers.pending = s.machine.registers.pending → Q { s with machine := m }

/-- Insertions keep it that the program is in a step, or not, and has come as far as it has. -/
def Editable (R : Bool → Progress → Prop) : Prop :=
  ∀ b s k i, R b s → k ≤ s.instructions.length → s.Misses k → R b (s.insertAt k i)

/-- The machine has decoded the instruction at the counter, and the program does not know it. -/
def Fetching (Q : Progress → Prop) (m : Machine) (i : Instruction) (b : Bool) (s : Progress) :
    Prop :=
  Standing true (fun s => s.phase = .fetch ∧ s.machine = m ∧ s.current? = some i ∧
    Q { s with phase := .decoded }) b s

/-- The machine `pre` has executed the instruction at the counter, and the program does not know
it. -/
def Executing (Q : Progress → Prop) (pre post : Machine) (i : Instruction) (b : Bool)
    (s : Progress) : Prop :=
  Standing true (fun s => s.phase = .decoded ∧ s.machine = post ∧ s.current? = some i ∧
    Q { s with machine := pre }) b s

namespace Preserved

variable {Q : Progress → Prop} (hQ : Preserved w n t Q)
include hQ

theorem standing (stepping : Bool) : Editable (Standing stepping Q) :=
  fun _ _ _ i hs hk _ => ⟨hs.1, hQ.insertAt i hs.2 hk⟩

theorem steady (stepping : Bool) : Steady w n t (Standing stepping Q) where
  insertAt _ _ _ i hs hk := ⟨hs.1, hQ.insertAt i hs.2 hk⟩
  work _ _ _ hs hm hinstruction hpending := ⟨hs.1, hQ.work hs.2 hm hinstruction hpending⟩

theorem executing (pre post : Machine) (i : Instruction) : Editable (Executing Q pre post i) := by
  rintro b s k j ⟨hb, hphase, hm, hi, hs⟩ hk -
  refine ⟨hb, hphase, hm, ?_, hQ.insertAt j hs hk⟩
  rw [current?_insertAt (.inl hphase), hi]

/-- As long as nothing takes the place of the instruction at the counter, an insertion moves the
counter as it will when the program knows what is decoded. -/
theorem fetching {m : Machine} (hm : m.isDecoded = true) (i : Instruction) :
    Editable (Fetching Q m i) := by
  rintro b s k j ⟨hb, hphase, rfl, hi, hs⟩ hk hmisses
  have hlt : s.counter < s.instructions.length := (List.getElem?_eq_some_iff.mp hi).1
  have hcounter : k ≠ s.counter := fun h => by
    have := hmisses hphase hm h
    omega
  have hsame : { s.insertAt k j with phase := .decoded } =
      Progress.insertAt { s with phase := .decoded } k j := by
    simp only [Progress.insertAt, passed, hcounter, decide_false, Bool.false_and, Bool.or_false]
  refine ⟨hb, hphase, rfl, ?_, ?_⟩
  · rw [current?_insertAt (.inr hcounter), hi]
  · rw [hsame]
    exact hQ.insertAt j hs hk

end Preserved

end Progress

namespace Computer

/-- The call is an insertion that is accepted, in the place of an instruction that the machine has
decoded and its program has not fetched yet. -/
def displaces (index : Nat) (c : Computer) : Command → Bool
  | .insert j name args position =>
    j = index && c.programs[index]?.any fun p => p.phase = .fetch && c.machine.isDecoded &&
      (Routine.insertion c p name args position).toOption.map Prod.fst = some p.counter
  | _ => false

end Computer

/-- How a subscriber makes a call if it is refused to displace an instruction. -/
def Routine.sparing (index : Nat) : Nat → Caller
  | 0, _ => throw .nestedTooDeep
  | depth + 1, command => do
    if (← get).displaces index command then throw .stepInProgress
    else perform (sparing index depth) command

/-- In the course of the calls no subscriber displaces an instruction: each call comes to the same
if that is refused. -/
def Computer.Undisturbed (index : Nat) : Computer → List Command → Prop
  | _, [] => True
  | c, command :: commands =>
    (Routine.perform (Routine.sparing index c.bound) command).on c = c.perform command ∧
      Undisturbed index (c.perform command).2 commands

namespace Routine

open Computer Progress

variable {S : Setting} {Q : Progress → Prop} {c : Computer} {call : Caller} {i : Instruction}

/-- An accepted insertion keeps what insertions keep. -/
theorem stands_insertAt {R : Bool → Progress → Prop} (hR : Editable R) (hc : c.Stands S R) {j : Nat}
    {p : Program} {name args position : Value} {k : Nat} (hp : c.programs[j]? = some p)
    (h : insertion c p name args position = .ok (k, i))
    (hmisses : j = S.index → (p.progress c.machine).Misses k) :
    Stands S R { c with programs := c.programs.modify j (·.insertAt k i) } := by
  refine hc.modifyProgram j (fun q hq hj hprogress => ?_) fun _ _ _ hR => hR
  obtain rfl : p = q := Option.some.inj (hp.symm.trans hq)
  exact hR _ _ k i hprogress (Program.position_le (insertion_position h)) (hmisses hj)

variable (hC : ∀ react, S.conduct react → Conduct.Edits react)
include hC

/-- The insertions of subscribers keep what insertions keep, if none displaces an instruction. -/
theorem sparing_keeps {R : Bool → Progress → Prop} (hR : Editable R) (depth : Nat)
    {command : Command} (h : ∃ j, command.Edits j) :
    Keeps (Stands S R) (sparing S.index depth command) := by
  induction depth generalizing command with
  | zero => exact Keeps.throw _
  | succ depth ih =>
    refine Keeps.get_bind fun c hc => ?_
    split
    · exact hc
    · rename_i hspares
      obtain ⟨j, hedits⟩ := h
      cases command with
      | insert j name args position =>
        have hon : ((perform (sparing S.index depth) (.insert j name args position)).on c).2 =
            ((insert (sparing S.index depth) j name args position).on c).2 :=
          congrArg Prod.snd (on_bind_pure Answer.instruction _ c)
        rw [hon]
        refine stands_insert hC (fun _ h => ih h) hc fun p k i hp hinsertion => ?_
        refine stands_insertAt hR hc hp hinsertion fun hj hphase hdecoded hcounter => ?_
        subst hj
        have hphase' : p.phase = .fetch := hphase
        have hdecoded' : c.machine.isDecoded = true := hdecoded
        have hcounter' : k = p.counter := hcounter
        simp [displaces, hp, hphase', hdecoded', hinsertion, hcounter', Except.toOption] at hspares
      | append j name args =>
        refine Keeps.bind (Keeps.program_bind fun c p hc hp => ?_) (fun _ => Keeps.pure _) c hc
        refine stands_insert hC (fun _ h => ih h) hc fun q k i hq hinsertion => ?_
        obtain rfl : p = q := Option.some.inj (hp.symm.trans hq)
        refine stands_insertAt hR hc hp hinsertion fun _ _ _ _ => ?_
        have hk := (Program.position_eq_ok (insertion_position hinsertion)).1
        exact (Int.ofNat.inj (Value.int.inj hk)).symm
      | _ => exact hedits.elim

omit hC in
/-- What closes a phase decides how the program stands after it. -/
theorem stands_phase {R : Bool → Progress → Prop} {routine closing : Routine Unit} {index : Nat}
    {record : Program → Record} (h : (closing.on (routine.on c).2).2.Stands S R) :
    ((ensuring routine closing >>= fun _ => program index >>= fun p => log (record p)).on
      c).2.Stands S R := by
  have hclosed : ((ensuring routine closing).on c).2.Stands S R := by rwa [on_ensuring_snd]
  rw [on_bind]
  rcases hout : (ensuring routine closing).on c with ⟨_ | _, d⟩ <;> rw [hout] at hclosed
  · exact hclosed
  · exact Keeps.program_bind (fun e _ he _ => stands_log _ e he) d hclosed

section
variable (hQ : Preserved S.wordSize S.size S.table Q)
  (hcall : ∀ R, Editable R → ∀ command, (∃ j, command.Edits j) → Keeps (Stands S R) (call command))
include hQ hcall

/-- The machine has decoded the instruction before anybody is told, and the program learns of it
when all have been told, whatever they have inserted. -/
theorem stands_fetchPhase {p : Program} (hc : c.Stands S (Standing true Q))
    (hp : c.programs[S.index]? = some p) (hi : p.current? = some i) (hphase : p.phase = .fetch) :
    ((fetchPhase call S.index i).on c).2.Stands S (Standing true Q) := by
  obtain ⟨p', hp', hstepping, hprogress⟩ := hc.program
  obtain rfl : p = p' := Option.some.inj (hp.symm.trans hp')
  have hcurrent : (p.progress c.machine).current? = some i := hi
  refine stands_phase ?_
  -- Insertions that are made when the machine tells of it keep what `Fetching` says, so that the
  -- change of phase at the end brings the program to its next progress.
  by_cases haccepts : c.machine.Accepts c.table i
  · have hfetching : Stands S (Fetching Q (c.machine.decoded i) i)
        { c with machine := c.machine.decoded i } := by
      have hs := hc.sound
      have hsound := Sound.invariant.change hs (.machine (.decode i haccepts))
      refine ⟨hsound, hc.loops, p, hp, hstepping, hphase, rfl, hi, ?_⟩
      have hnext := hQ.next hprogress
      rwa [next_accepted hcurrent hphase (hs.table ▸ haccepts)] at hnext
    have hdecoded := stands_decode hC (hcall _ (hQ.fetching rfl i)) haccepts hfetching
    generalize ((decode call (.instruction i)).on c).2 = d at hdecoded ⊢
    have hholds : d.machine.holds i = true := by
      obtain ⟨q, -, -, -, hm, -⟩ := hdecoded.program
      have hmachine : d.machine = c.machine.decoded i := hm
      rw [hmachine]
      exact c.machine.decoded_holds i
    rw [on_get_bind, if_pos hholds]
    exact hdecoded.modifyProgram S.index (fun q _ _ hq => ⟨hq.1, hq.2.2.2.2⟩)
      fun h => absurd rfl h
  · -- The machine holds nothing, as the program has decoded nothing.
    obtain ⟨fault, hon⟩ : ∃ fault, (decode call (.instruction i)).on c = (.error fault, c) :=
      decode_refused haccepts
    have hidle : ¬ c.machine.holds i = true := fun hholds => by
      have hdecoded := (hQ.consistent hprogress).decoded.mpr (Machine.holds_iff.mp hholds).1
      exact absurd (hphase.symm.trans hdecoded) (by decide)
    rw [hon, on_get_bind, if_neg hidle]
    exact hc

/-- The machine has executed the instruction before anybody is told, and the program moves past it
when all have been told. -/
theorem stands_executePhase {p : Program} (hc : c.Stands S (Standing true Q))
    (hp : c.programs[S.index]? = some p) (hi : p.current? = some i) (hphase : p.phase = .decoded) :
    ((executePhase call S.index i).on c).2.Stands S (Standing true Q) := by
  obtain ⟨p', hp', hstepping, hprogress⟩ := hc.program
  obtain rfl : p = p' := Option.some.inj (hp.symm.trans hp')
  have hs := hc.sound
  have hdecoded : c.machine.isDecoded = true := (hQ.consistent hprogress).decoded.mp hphase
  have hexecuting : Stands S (Executing Q c.machine (c.machine.executed S.table) i)
      { c with machine := c.machine.executed S.table } :=
    ⟨⟨hs.machine.executed, hs.events, hs.table, hs.watched, hs.conduct⟩, hc.loops, p, hp,
      hstepping, hphase, rfl, hi, hprogress⟩
  have hexecuted := stands_execute hC (hcall _ (hQ.executing _ _ i)) hs hdecoded hexecuting
  rw [executePhase, on_get_bind]
  refine stands_phase ?_
  generalize ((execute call).on c).2 = d at hexecuted ⊢
  have hmachine : d.machine = c.machine.executed S.table := by
    obtain ⟨q, -, -, -, hm, -⟩ := hexecuted.program
    exact hm
  have hidle : (!d.machine.isDecoded) = true := by
    rw [hmachine, Machine.executed_isDecoded]
    rfl
  rw [on_get_bind, if_pos hidle, hmachine]
  refine hexecuted.modifyProgram S.index (fun q _ _ hq => ?_) fun h => absurd rfl h
  obtain ⟨hb, hqphase, -, hqi, hbefore⟩ := hq
  have hnext : Q ((q.progress c.machine).next S.table) := hQ.next hbefore
  have hafter : (q.progress c.machine).next S.table = (q.progress c.machine).finished S.table i :=
    next_decoded hqi hqphase
  refine ⟨hb, ?_⟩
  rw [hmachine]
  rw [hafter] at hnext
  exact hnext

theorem stands_step : Keeps (Stands S (Standing false Q)) (step call S.index) := by
  intro c hc
  obtain ⟨p, hp, hstepping, hprogress⟩ := hc.program
  cases hi : p.current? with
  | none =>
    rw [step_complete hp hstepping hi]
    exact hc
  | some i =>
    have hbegun : Stands S (Standing true Q) { c with
        programs := c.programs.modify S.index fun p => { p with stepping := true } } :=
      hc.modifyProgram S.index (fun q _ _ hq => ⟨rfl, hq.2⟩) fun h => absurd rfl h
    rw [on_step hp hstepping hi]
    have hq : ({ c with programs := c.programs.modify S.index fun p =>
        { p with stepping := true } } : Computer).programs[S.index]? =
          some { p with stepping := true } := modify_getElem? hp _
    generalize { c with programs := c.programs.modify S.index fun p =>
      { p with stepping := true } } = b at hbegun hq ⊢
    have hphase : ((doPhase call S.index i p.phase).on b).2.Stands S (Standing true Q) := by
      cases hphase : p.phase with
      | fetch => exact stands_fetchPhase hC hQ hcall hbegun hq hi hphase
      | decoded => exact stands_executePhase hC hQ hcall hbegun hq hi hphase
    have hended : ((ensuring (doPhase call S.index i p.phase) (setStepping S.index false)).on
        b).2.Stands S (Standing false Q) := by
      rw [on_ensuring_snd]
      exact hphase.modifyProgram S.index (fun q _ _ hq => ⟨rfl, hq.2⟩) fun h => absurd rfl h
    rw [on_bind]
    rcases hout : (ensuring (doPhase call S.index i p.phase) (setStepping S.index false)).on b with
      ⟨_ | _, d⟩ <;> rw [hout] at hended
    · exact hended
    · exact Keeps.bind (stands_notifyProgram hC (hcall _ (hQ.standing false)) S.index)
        (fun _ => Keeps.pure true) d hended

end

end Routine

namespace Ledger

variable {w n : Nat} {t : Dispatch} {L L' : Ledger} {s s' : Progress}

namespace Leads

theorem consistent (h : Leads w n t L s L' s') (hs : s.Consistent) : s'.Consistent := by
  induction h with
  | refl => exact hs
  | phase _ ih => exact ih.next t
  | insert k i _ _ ih => exact ih.insertAt k i
  | work m _ _ hinstruction hpending ih => exact ih.work hinstruction hpending

/-- The entries state what was executed all the way. -/
theorem honest (h : Leads w n t L s L' s')
    (hs : s.Honest w n t Progress.Holding (TraceEntry.Faithful t)) :
    s'.Honest w n t Progress.Holding (TraceEntry.Faithful t) := by
  have hH := Progress.holding_vouches (w := w) (n := n) (t := t)
  induction h with
  | refl => exact hs
  | phase _ ih => exact ih.next hH
  | insert k i _ _ ih => exact ⟨ih.sound, hH.insertAt k i ih.held, ih.entries⟩
  | work m _ hm hinstruction hpending ih =>
    exact ⟨hm, hH.work ih.held hinstruction hpending, ih.entries⟩

/-- The ledger goes on knowing the program. -/
theorem agrees (h : Leads w n t L s L' s') (hL : L.Agrees s) : L'.Agrees s' := by
  induction h with
  | refl => exact hL
  | @phase _ s' _ ih =>
    obtain ⟨es, htrace, hes⟩ := ih.next t
    rwa [htrace, List.drop_left]
  | insert k i _ hk ih => exact ih.add hk i
  | work m _ _ _ _ ih => exact ih.of_eq rfl rfl rfl

theorem preserved (hs : s.Consistent) :
    Progress.Preserved w n t fun s' => ∃ L', Leads w n t L s L' s' where
  consistent := fun ⟨_, h⟩ => h.consistent hs
  next := fun ⟨_, h⟩ => ⟨_, h.phase⟩
  insertAt i := fun ⟨_, h⟩ hk => ⟨_, h.insert _ i hk⟩
  work := fun ⟨_, h⟩ hm hinstruction hpending => ⟨_, h.work _ hm hinstruction hpending⟩

end Leads

/-- Phases, insertions and work on the machine have taken the program `p` on the machine `start` to
the program `q` on the machine `m`, one after the other; the counter is at the instruction that is
decoded, and every entry of the trace states the instruction that was executed. -/
structure Follows (w n : Nat) (t : Dispatch) (p : Program) (start : Machine) (q : Program)
    (m : Machine) : Prop where
  held : q.phase = .decoded → ∃ i, q.current? = some i ∧ m.holds i = true
  faithful : ∀ e ∈ q.trace, e.Faithful t
  ledger : ∃ L, (Ledger.start p).Leads w n t (p.progress start) L (q.progress m) ∧ L.Accounts m q

end Ledger

namespace Computer

variable {w n : Nat} {t : Dispatch} {S : Setting} {Q : Progress → Prop} {c : Computer}

theorem Stands.performAll (h : c.Stands S (Progress.Standing false Q))
    (hC : ∀ react, S.conduct react → Conduct.Edits react)
    (hQ : Progress.Preserved S.wordSize S.size S.table Q) (howner : ∀ k, S.owner k S.index)
    {first : Nat} (hfirst : ∀ k j, S.owner k j → first ≤ k → j = S.index) {commands : List Command}
    (hserves : ∀ command ∈ commands, command.Serves S.index first)
    (hundisturbed : c.Undisturbed S.index commands) :
    (c.performAll commands).Stands S (Progress.Standing false Q) := by
  induction commands generalizing c with
  | nil => exact h
  | cons command commands ih =>
    obtain ⟨hcommand, hrest⟩ := List.forall_mem_cons.mp hserves
    obtain ⟨hsame, hundisturbed⟩ := hundisturbed
    -- The call comes to the same if insertions are refused that displace an instruction.
    have hcall : ∀ R, Progress.Editable R → ∀ command, (∃ j, command.Edits j) →
        Routine.Keeps (Stands S R) (Routine.sparing S.index c.bound command) :=
      fun R hR _ h => Routine.sparing_keeps hC hR c.bound h
    have hstep : ∀ j, j = S.index → Routine.Keeps (Stands S (Progress.Standing false Q))
        (Routine.step (Routine.sparing S.index c.bound) j) := by
      rintro j rfl
      exact Routine.stands_step hC hQ hcall
    have hkeeps : Routine.Keeps (Stands S (Progress.Standing false Q))
        (Routine.perform (Routine.sparing S.index c.bound) command) :=
      Routine.stands_perform hC (hcall _ (hQ.standing false)) (hQ.steady false) hstep
        (fun j hj => hj ▸ howner) (hcommand.fits hfirst howner)
    have hperform := hkeeps c h
    rw [hsame] at hperform
    exact ih hperform hrest hundisturbed

/-- The counter follows the instruction that is decoded. Of a program that alone makes its machine
decode and execute, whatever its subscribers insert on whatever notices, every instruction is
executed as it was decoded, once and in its place, unless one is displaced. -/
theorem counter_follows (hn : 0 < n) (h : c.Reachable w n t Conduct.Edits)
    (hidle : c.machine.isDecoded = false) {entries delay : Value} {p : Program}
    (hp : Program.ofEntries c.machine.memory entries delay = .ok p) {commands : List Command}
    (hserves : ∀ command ∈ commands, command.Serves c.programs.length c.loops.length)
    (hundisturbed : (c.addProgram p).Undisturbed c.programs.length commands) :
    let d := (c.addProgram p).performAll commands
    ∃ q, d.programs[c.programs.length]? = some q ∧
      Ledger.Follows w n t p c.machine q d.machine := by
  intro d
  obtain ⟨heq, -⟩ := Program.ofEntries_eq_ok hp
  have hsound := h.sound hn
  have hconsistent : (p.progress c.machine).Consistent := .of_new heq hidle
  let S : Setting :=
    { wordSize := w, size := n, table := t, conduct := Conduct.Edits, index := c.programs.length
      owner := fun k j => c.loops.length ≤ k → j = c.programs.length }
  have hstart : (c.addProgram p).Stands S (Progress.Standing false fun s' =>
      ∃ L', (Ledger.start p).Leads w n t (p.progress c.machine) L' s') := by
    refine ⟨hsound.addProgram p, fun k l hl hk => ?_, p, List.getElem?_concat_length, ?_, _, .refl⟩
    · have hlt : k < c.loops.length := (List.getElem?_eq_some_iff.mp hl).1
      omega
    · rw [heq]
  obtain ⟨q, hq, -, L, hL⟩ := (hstart.performAll (fun _ h => h) (Ledger.Leads.preserved hconsistent)
    (fun _ _ => rfl) (fun _ _ h hk => h hk) hserves hundisturbed).program
  have htrace : (p.progress c.machine).trace = [] := by
    show p.trace = []
    rw [heq]
  have hagrees : (Ledger.start p).Agrees (p.progress c.machine) := .start (by rw [heq]) htrace
  have hafter := hL.consistent hconsistent
  have hhonest := hL.honest ⟨hsound.machine, hconsistent.holding, by simp [htrace]⟩
  exact ⟨q, hq, hafter.held, hhonest.entries, L, hL, (hL.agrees hagrees).accounts hafter⟩

/-- A watcher of the machine inserts a shift behind a complement that is decoded, and another one in
its place while it is executed. -/
theorem counter_follows_watched :
    let watcher : Subscriber := { react := fun state notice =>
      (state, match notice with
        | .machine m => .once (.insert 0 (.instruction ⟨.lshift, none⟩) .none
            (.int (if m.isDecoded then 1 else 0)))
        | _ => .done) }
    let c := { idle (.zeros 4 2) .standard with subscribers := [watcher], bound := 9 }
    let p : Program := { instructions := [⟨.not, none⟩], stepDelay := .none }
    let commands : List Command := [.step 0, .observe .machine 0, .step 0]
    let d := (c.addProgram p).performAll commands
    d.programs[0]?.map (fun q : Program => q.instructions.map Instruction.operation) =
        some [.lshift, .not, .lshift] ∧
      d.programs[0]?.map (fun q : Program => q.trace.map TraceEntry.counter) = some [1] ∧
      ∃ q : Program, d.programs[0]? = some q ∧
        Ledger.Follows 4 2 .standard p c.machine q d.machine := by
  intro watcher c p commands d
  have hedits : Conduct.Edits watcher.react := by
    intro state notice
    cases notice with
    | machine m => exact Reaction.calls_once ⟨0, rfl⟩
    | _ => trivial
  have hreach : c.Reachable 4 2 .standard Conduct.Edits :=
    .idle [watcher] 9 (List.forall_mem_singleton.mpr hedits)
  have hserves : ∀ command ∈ commands, command.Serves 0 0 := by
    simp [commands, Command.Serves]
  have hundisturbed : (c.addProgram p).Undisturbed 0 commands :=
    ⟨by cbv, by cbv, by cbv, trivial⟩
  have hp : Program.ofEntries (.zeros 4 2) (.list [.instruction ⟨.not, none⟩]) .none = .ok p := rfl
  refine ⟨?_, ?_, counter_follows (by decide) hreach rfl hp hserves hundisturbed⟩
  · decide +kernel
  · decide +kernel

/-- A watcher of the machine puts a shift in the place of a complement that the machine has just
decoded: the counter stays, and what is executed is not what the program states. -/
theorem counter_displaced :
    let watcher : Subscriber := { react := fun state notice =>
      (state, match notice with
        | .machine m =>
          if m.isDecoded then .once (.insert 0 (.instruction ⟨.lshift, none⟩) .none (.int 0))
          else .done
        | _ => .done) }
    let c := { idle (.zeros 4 2) .standard with subscribers := [watcher], bound := 9 }
    let p : Program := { instructions := [⟨.not, none⟩], stepDelay := .none }
    let d := (c.addProgram p).performAll [.observe .machine 0, .step 0]
    c.Reachable 4 2 .standard Conduct.Edits ∧
      Program.ofEntries c.machine.memory (.list [.instruction ⟨.not, none⟩]) .none = .ok p ∧
      d.machine.registers.instruction = some ⟨.not, none⟩ ∧
      d.programs[0]?.map (fun q : Program => (q.phase, q.current?)) =
        some (.decoded, some ⟨.lshift, none⟩) ∧
      (d.perform (.step 0)).2.programs[0]?.map (fun q : Program =>
          q.trace.map fun e => (e.instruction, e.pre.registers.instruction)) =
        some [(⟨.lshift, none⟩, some ⟨.not, none⟩)] := by
  intro watcher c p d
  have hedits : Conduct.Edits watcher.react := by
    intro state notice
    cases notice with
    | machine m =>
      show Reaction.Calls _ (if m.isDecoded then _ else _)
      split
      · exact Reaction.calls_once ⟨0, rfl⟩
      · trivial
    | _ => trivial
  refine ⟨.idle [watcher] 9 (List.forall_mem_singleton.mpr hedits), rfl, ?_, ?_, ?_⟩
  · decide +kernel
  · decide +kernel
  · decide +kernel

end Computer

end Accumulator
