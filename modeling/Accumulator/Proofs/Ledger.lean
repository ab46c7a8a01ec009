import Accumulator.Proofs.Editing
import Mathlib

/-! What becomes of each instruction of a program that is edited while it is driven. A ledger gives
a number of its own to every instruction that a call asks to add and that can be added, and keeps a
record of what was executed. It learns of the first from the call alone, whatever the program makes
of it, and of the second from the trace. The program holds what the ledger holds: instructions are
executed in the order of their places, each of them once, and left out are only those that were
inserted behind the counter. -/

namespace Accumulator

/-- An instruction of a program, with a number of its own. It is late if it was inserted behind the
counter. -/
structure Slot where
  number : Nat
  instruction : Instruction
  late : Bool
deriving DecidableEq, Repr

/-- The instructions of a program in their places, the number of those that were ever added, and
those that were executed, in order. -/
structure Ledger where
  slots : List Slot
  added : Nat
  executed : List Slot
deriving DecidableEq, Repr

section

variable {α : Type} (l r : List α) (x : α) (n : Nat)

theorem insertIdx_append_left (h : n ≤ l.length) :
    (l ++ r).insertIdx n x = l.insertIdx n x ++ r := by
  induction l generalizing n with
  | nil =>
    obtain rfl : n = 0 := Nat.le_zero.mp h
    rfl
  | cons y l ih =>
    cases n with
    | zero => rfl
    | succ n => exact congrArg (y :: ·) (ih n (Nat.le_of_succ_le_succ h))

theorem insertIdx_append_right :
    (l ++ r).insertIdx (l.length + n) x = l ++ r.insertIdx n x := by
  induction l with
  | nil => simp
  | cons y l ih =>
    rw [List.length_cons, Nat.add_right_comm]
    exact congrArg (y :: ·) ih

theorem filter_insertIdx_of_neg {keep : α → Bool} (hx : keep x = false) :
    (l.insertIdx n x).filter keep = l.filter keep := by
  induction l generalizing n with
  | nil => cases n <;> simp [hx]
  | cons y l ih =>
    cases n with
    | zero => simp [hx]
    | succ n => rw [List.insertIdx_succ_cons, List.filter_cons, ih, List.filter_cons]

end

namespace Ledger

def start (p : Program) : Ledger where
  slots := p.instructions.zipIdx.map fun entry => ⟨entry.2, entry.1, false⟩
  added := p.length
  executed := []

def add (L : Ledger) (n : Nat) (i : Instruction) (late : Bool) : Ledger :=
  { L with slots := L.slots.insertIdx n ⟨L.added, i, late⟩, added := L.added + 1 }

/-- The ledger with the executions that entries of a trace tell of, each by its counter. -/
def execute (L : Ledger) (es : List TraceEntry) : Ledger :=
  { L with executed := L.executed ++ es.filterMap fun e => L.slots[e.counter]? }

/-- The ledger with what a call adds to a program, if it adds anything. -/
def adding (L : Ledger) (s : Progress) : Option (Nat × Instruction) → Ledger
  | some (n, i) => L.add n i (s.passed n)
  | none => L

/-- The ledger after a call. What the call asked for is added, if it can be, and the entries that
are new in the trace tell what was executed. -/
def note (index : Nat) (L : Ledger) (command : Command) (before after : Progress) : Ledger :=
  let asked := command.addition? index before.machine.memory before.instructions.length
  (L.adding before asked).execute (after.trace.drop before.trace.length)

/-- The ledger of a program after calls. -/
def follow (index : Nat) (L : Ledger) (c : Computer) : List Command → Ledger
  | [] => L
  | command :: commands =>
    let d := (c.perform command).2
    match c.programs[index]?, d.programs[index]? with
    | some p, some q =>
      follow index (L.note index command (p.progress c.machine) (q.progress d.machine)) d commands
    | _, _ => L

/-- The ledger knows the program: the instructions in their places, and as executed, in order, those
before the counter that are not late. -/
structure Agrees (L : Ledger) (s : Progress) : Prop where
  instructions : L.slots.map Slot.instruction = s.instructions
  numbers : (L.slots.map Slot.number).Nodup
  fresh : ∀ x ∈ L.slots, x.number < L.added
  split : ∃ past rest, L.slots = past ++ rest ∧ past.length = s.counter ∧
    L.executed = past.filter (fun x => !x.late) ∧ ∀ x ∈ rest, x.late = false
  traced : s.trace.map TraceEntry.instruction = L.executed.map Slot.instruction
  steps : ∀ (k : Nat) (e : TraceEntry), s.trace[k]? = some e → e.step = k

theorem execute_nil (L : Ledger) : L.execute [] = L := by
  simp [execute]

theorem execute_append (L : Ledger) (es fs : List TraceEntry) :
    L.execute (es ++ fs) = (L.execute es).execute fs := by
  simp [execute]

namespace Agrees

variable {L : Ledger} {s : Progress}

theorem of_eq {s' : Progress} (h : L.Agrees s) (hinstructions : s'.instructions = s.instructions)
    (hcounter : s'.counter = s.counter) (htrace : s'.trace = s.trace) : L.Agrees s' :=
  ⟨hinstructions ▸ h.instructions, h.numbers, h.fresh, hcounter ▸ h.split, htrace ▸ h.traced,
    htrace ▸ h.steps⟩

theorem start {p : Program} {m : Machine} (hcounter : p.counter = 0) (htrace : p.trace = []) :
    (Ledger.start p).Agrees (p.progress m) where
  instructions := by
    rw [Ledger.start, List.map_map]
    exact List.zipIdx_map_fst 0 p.instructions
  numbers := by
    rw [Ledger.start, List.map_map]
    show (p.instructions.zipIdx.map Prod.snd).Nodup
    rw [List.zipIdx_map_snd]
    exact List.nodup_range'
  fresh x hx := by
    obtain ⟨entry, hentry, rfl⟩ := List.mem_map.mp hx
    exact List.snd_lt_of_mem_zipIdx hentry
  split := by
    refine ⟨[], _, rfl, hcounter.symm, rfl, fun x hx => ?_⟩
    obtain ⟨entry, -, rfl⟩ := List.mem_map.mp hx
    rfl
  traced := by
    show p.trace.map TraceEntry.instruction = []
    rw [htrace]
    rfl
  steps k e he := by
    change p.trace[k]? = some e at he
    rw [htrace] at he
    cases he

/-- The instruction at the counter has a slot, which is the first that is not past. -/
theorem slot (h : L.Agrees s) {i : Instruction} (hi : s.current? = some i) :
    ∃ past x rest, L.slots = past ++ x :: rest ∧ past.length = s.counter ∧ x.instruction = i ∧
      L.executed = past.filter (fun x => !x.late) ∧ x.late = false ∧
      ∀ y ∈ rest, y.late = false := by
  obtain ⟨past, rest, hslots, hlength, hexecuted, hrest⟩ := h.split
  have hmap : (L.slots.map Slot.instruction)[past.length]? = some i := by
    rw [h.instructions, hlength]
    exact hi
  rw [hslots, List.getElem?_map, List.getElem?_append_right le_rfl, Nat.sub_self] at hmap
  cases rest with
  | nil => cases hmap
  | cons x rest =>
    obtain ⟨hlate, hothers⟩ := List.forall_mem_cons.mp hrest
    exact ⟨past, x, rest, hslots, hlength, Option.some.inj hmap, hexecuted, hlate, hothers⟩

/-- The execution of the instruction at the counter is entered, and its slot is past. -/
theorem finished (h : L.Agrees s) {i : Instruction} (hi : s.current? = some i) (t : Dispatch) :
    ∃ es, (s.finished t i).trace = s.trace ++ es ∧ (L.execute es).Agrees (s.finished t i) := by
  obtain ⟨past, x, rest, hslots, hlength, hx, hexecuted, hlate, hrest⟩ := h.slot hi
  have hlookup : L.slots[s.counter]? = some x := by
    rw [hslots, ← hlength, List.getElem?_append_right le_rfl, Nat.sub_self]
    rfl
  refine ⟨_, rfl, h.instructions, h.numbers, h.fresh, ?_, ?_, ?_⟩
  · refine ⟨past ++ [x], rest, ?_, ?_, ?_, hrest⟩
    · rw [List.append_assoc]
      exact hslots
    · rw [List.length_append, hlength]
      rfl
    · simp [execute, hlookup, hexecuted, hlate]
  · simp [execute, Progress.finished, hlookup, h.traced, hx]
  · intro k e he
    change (s.trace ++ [_])[k]? = some e at he
    rw [List.getElem?_append] at he
    split at he
    · exact h.steps k e he
    · obtain rfl := List.mem_singleton.mp (List.mem_of_getElem? he)
      have := (List.getElem?_eq_some_iff.mp he).1
      simp only [List.length_singleton] at this
      show s.trace.length = k
      omega

theorem next (h : L.Agrees s) (t : Dispatch) :
    ∃ es, (s.next t).trace = s.trace ++ es ∧ (L.execute es).Agrees (s.next t) := by
  cases hi : s.current? with
  | none =>
    rw [Progress.next_complete hi]
    exact ⟨[], (List.append_nil _).symm, L.execute_nil.symm ▸ h⟩
  | some i =>
    cases hphase : s.phase with
    | fetch =>
      have hsame : (s.next t).counter = s.counter ∧ (s.next t).trace = s.trace := by
        by_cases haccepts : s.machine.Accepts t i
        · rw [Progress.next_accepted hi hphase haccepts]
          exact ⟨rfl, rfl⟩
        · rw [Progress.next_refused hi hphase haccepts, Progress.fetched]
          split <;> exact ⟨rfl, rfl⟩
      refine ⟨[], by rw [hsame.2, List.append_nil], ?_⟩
      rw [execute_nil]
      exact h.of_eq (Progress.next_instructions t s) hsame.1 hsame.2
    | decoded =>
      rw [Progress.next_decoded hi hphase]
      exact h.finished hi t

theorem iterate (h : L.Agrees s) (t : Dispatch) (k : Nat) :
    ∃ es, ((Progress.next t)^[k] s).trace = s.trace ++ es ∧
      (L.execute es).Agrees ((Progress.next t)^[k] s) := by
  induction k with
  | zero => exact ⟨[], (List.append_nil _).symm, L.execute_nil.symm ▸ h⟩
  | succ k ih =>
    obtain ⟨es, htrace, hes⟩ := ih
    obtain ⟨fs, hnext, hfs⟩ := hes.next t
    rw [Function.iterate_succ_apply']
    refine ⟨es ++ fs, ?_, ?_⟩
    · rw [hnext, htrace, List.append_assoc]
    · rwa [execute_append]

/-- An instruction that is added gets a slot of its own. If it is inserted behind the counter it is
late and comes among the slots that are past; otherwise it is still to come. -/
theorem add (h : L.Agrees s) {n : Nat} (hn : n ≤ s.instructions.length) (i : Instruction) :
    (L.add n i (s.passed n)).Agrees (s.insertAt n i) where
  instructions := by
    rw [Ledger.add, List.map_insertIdx, h.instructions]
    rfl
  numbers := by
    have hlength : n ≤ (L.slots.map Slot.number).length := by
      rw [← h.instructions, List.length_map] at hn
      rwa [List.length_map]
    rw [Ledger.add, List.map_insertIdx, (List.perm_insertIdx _ _ hlength).nodup_iff,
      List.nodup_cons]
    refine ⟨fun hmem => ?_, h.numbers⟩
    obtain ⟨x, hx, hnumber⟩ := List.mem_map.mp hmem
    have hlt := h.fresh x hx
    rw [hnumber] at hlt
    exact Nat.lt_irrefl _ hlt
  fresh x hx := by
    rcases List.eq_or_mem_of_mem_insertIdx hx with rfl | hx
    · exact Nat.lt_succ_self _
    · exact Nat.lt_succ_of_lt (h.fresh x hx)
  split := by
    obtain ⟨past, rest, hslots, hlength, hexecuted, hrest⟩ := h.split
    simp only [Ledger.add, Progress.insertAt, hslots]
    -- Behind the counter the slot is among those that are past, and as it is late it does not count
    -- as executed; otherwise the slots that are past stay the same.
    by_cases hpassed : s.passed n = true
    · have hle : n ≤ past.length := by
        simp only [Progress.passed, Bool.or_eq_true, Bool.and_eq_true, decide_eq_true_eq] at hpassed
        omega
      rw [if_pos hpassed, hpassed]
      refine ⟨past.insertIdx n ⟨L.added, i, true⟩, rest, insertIdx_append_left past rest _ n hle,
        ?_, ?_, hrest⟩
      · rw [List.length_insertIdx_of_le_length hle, hlength]
      · rw [filter_insertIdx_of_neg _ _ _ rfl, hexecuted]
    · have hge : past.length ≤ n := by
        simp only [Progress.passed, Bool.or_eq_true, Bool.and_eq_true, decide_eq_true_eq,
          not_or] at hpassed
        omega
      obtain ⟨k, rfl⟩ := Nat.exists_eq_add_of_le hge
      rw [if_neg hpassed, Bool.eq_false_iff.mpr hpassed]
      refine ⟨past, rest.insertIdx k ⟨L.added, i, false⟩, insertIdx_append_right past rest _ k,
        hlength, hexecuted, fun x hx => ?_⟩
      rcases List.eq_or_mem_of_mem_insertIdx hx with rfl | hx
      · rfl
      · exact hrest x hx
  traced := h.traced
  steps := h.steps

theorem adding (h : L.Agrees s) {asked : Option (Nat × Instruction)}
    (hplace : ∀ n i, asked = some (n, i) → n ≤ s.instructions.length) :
    (L.adding s asked).Agrees (s.adding asked) := by
  cases asked with
  | none => exact h
  | some place => exact h.add (hplace _ _ rfl) place.2

end Agrees

theorem note_drives (L : Ledger) {index first : Nat} {command : Command}
    (hdrives : command.Drives index first) {before after : Progress} {es : List TraceEntry}
    (htrace : after.trace = before.trace ++ es) :
    L.note index command before after = L.execute es := by
  rw [note, htrace, List.drop_left]
  cases command with
  | append j name args => exact hdrives.elim
  | insert j name args position => exact hdrives.elim
  | _ => rfl

theorem note_edits (L : Ledger) (index : Nat) (command : Command) (s : Progress) :
    let asked := command.addition? index s.machine.memory s.instructions.length
    L.note index command s (s.adding asked) = L.adding s asked := by
  intro asked
  have htrace : (s.adding asked).trace = s.trace := by
    cases asked <;> rfl
  rw [note, htrace, List.drop_length, execute_nil]

/-- What the ledger of a program says of it and of its machine between calls. The program has
decoded an instruction exactly when the machine has, which is then the one at the counter; the trace
is numbered; and what was executed, in order, is what is before the counter now, but for what was
inserted behind it. -/
structure Accounts (L : Ledger) (m : Machine) (p : Program) : Prop where
  counter : p.counter ≤ p.length
  decoded : p.phase = .decoded ↔ m.isDecoded = true
  held : p.phase = .decoded → ∃ i, p.current? = some i ∧ m.registers.instruction = some i
  steps : ∀ (k : Nat) (e : TraceEntry), p.trace[k]? = some e → e.step = k
  instructions : L.slots.map Slot.instruction = p.instructions
  numbers : (L.slots.map Slot.number).Nodup
  executed : L.executed = (L.slots.take p.counter).filter (fun x => !x.late)
  traced : p.trace.map TraceEntry.instruction = L.executed.map Slot.instruction
  complete : p.isComplete = true → ∀ x ∈ L.slots, x.late = false → L.executed.count x = 1

theorem Agrees.accounts {L : Ledger} {p : Program} {m : Machine} (h : L.Agrees (p.progress m))
    (hs : (p.progress m).Consistent) : L.Accounts m p := by
  obtain ⟨past, rest, hslots, hlength, hexecuted, -⟩ := h.split
  have hcounter : past.length = p.counter := hlength
  have hall : L.slots.length = p.length := by
    rw [← List.length_map (f := Slot.instruction), h.instructions]
    rfl
  have htake : L.executed = (L.slots.take p.counter).filter fun x => !x.late := by
    rw [hslots, ← hcounter, List.take_left, hexecuted]
  refine ⟨?_, hs.decoded, fun hdecoded => ?_, h.steps, h.instructions, h.numbers, htake, h.traced,
    fun hcomplete x hx hlate => ?_⟩
  · rw [← hall, hslots, List.length_append]
    omega
  · obtain ⟨i, hi, hholds⟩ := hs.held hdecoded
    exact ⟨i, hi, (Machine.holds_iff.mp hholds).2⟩
  · have hle : L.slots.length ≤ p.counter := by
      rw [hall]
      exact of_decide_eq_true hcomplete
    rw [htake, List.take_of_length_le hle]
    have hnodup : (L.slots.filter fun x => !x.late).Nodup :=
      (List.Nodup.of_map _ h.numbers).filter _
    exact List.count_eq_one_of_mem hnodup (List.mem_filter.mpr ⟨hx, by simp [hlate]⟩)

variable {w n : Nat} {t : Dispatch} {index first : Nat} {s : Progress} {c : Computer} {L : Ledger}

theorem Agrees.follow (h : L.Agrees s) (hs : s.Consistent)
    (hc : c.Driven w n t index first (· = s)) {commands : List Command}
    (hcommands : ∀ command ∈ commands, command.Drives index first ∨ command.Edits index) :
    ∃ s', (c.performAll commands).Driven w n t index first (· = s') ∧ s'.Consistent ∧
      (L.follow index c commands).Agrees s' := by
  induction commands generalizing c s L with
  | nil => exact ⟨s, hc, hs, h⟩
  | cons command commands ih =>
    obtain ⟨hcommand, hrest⟩ := List.forall_mem_cons.mp hcommands
    obtain ⟨s', hd, hs', hL⟩ : ∃ s', (c.perform command).2.Driven w n t index first (· = s') ∧
        s'.Consistent ∧ (L.note index command s s').Agrees s' := by
      rcases hcommand with hdrives | hedits
      · obtain ⟨k, hk⟩ := hc.perform hdrives
        obtain ⟨es, htrace, hes⟩ := h.iterate t k
        refine ⟨_, hk, hs.iterate t k, ?_⟩
        rwa [L.note_drives hdrives htrace]
      · refine ⟨_, hc.edit hedits, hs.adding _, ?_⟩
        rw [L.note_edits index command s]
        exact h.adding fun k i hasked => Computer.addition?_le hasked
    obtain ⟨p, hp, -, hprogress⟩ := hc.program
    obtain ⟨q, hq, -, hprogress'⟩ := hd.program
    obtain ⟨s'', hd', hs'', hL'⟩ := ih hL hs' hd hrest
    refine ⟨s'', hd', hs'', ?_⟩
    rw [Ledger.follow]
    simp only [hp, hq, hprogress, hprogress']
    exact hL'

/-- Build a program on any machine at rest, whose subscribers at most fail, and drive and edit it by
any calls in any order, refused or not: the ledger of what they ask for accounts for it. So it does
whatever the answers are; and a call that edits the program then is answered just if it asks for
what can be added, as long as no subscriber fails. -/
theorem accounts_of_calls (hn : 0 < n) (h : c.Reachable w n t Conduct.Quiet)
    (hidle : c.machine.isDecoded = false) {entries delay : Value} {p : Program}
    (hp : Program.ofEntries c.machine.memory entries delay = .ok p) {commands : List Command}
    (hcommands : ∀ command ∈ commands,
      command.Drives c.programs.length c.loops.length ∨ command.Edits c.programs.length) :
    let d := (c.addProgram p).performAll commands
    ∃ q, d.programs[c.programs.length]? = some q ∧
      ((start p).follow c.programs.length (c.addProgram p) commands).Accounts d.machine q ∧
      ∀ command : Command, command.Edits c.programs.length →
        d.Replies c.programs.length q command := by
  obtain ⟨heq, -⟩ := Program.ofEntries_eq_ok hp
  have hphase : p.phase = .fetch := by rw [heq]
  have hconsistent : (p.progress c.machine).Consistent := by
    have hfetch : ¬ (p.progress c.machine).phase = .decoded := by
      show ¬ p.phase = .decoded
      rw [hphase]
      decide
    have hmachine : ¬ (p.progress c.machine).machine.isDecoded = true := by
      show ¬ c.machine.isDecoded = true
      rw [hidle]
      decide
    exact ⟨⟨fun hd => absurd hd hfetch, fun hd => absurd hd hmachine⟩, fun hd => absurd hd hfetch⟩
  have hagrees : (start p).Agrees (p.progress c.machine) :=
    Agrees.start (by rw [heq]) (by rw [heq])
  obtain ⟨s', hd, hs', hL⟩ :=
    hagrees.follow hconsistent ((h.sound hn).driven (p := p) (by rw [heq])) hcommands
  obtain ⟨q, hq, -, rfl⟩ := hd.program
  exact ⟨q, hq, hL.accounts hs', fun command hedits => Computer.replies hd.sound.conduct hq hedits⟩

/-- A watcher of the program always fails. In place of the complement, which is decoded, a shift is
inserted, which is late, and another complement is appended; both calls fail, and two more are
refused. The steps that follow execute the complement, the store and the complement. -/
theorem accounts_of_calls_late :
    let watcher : Subscriber := { react := fun state _ => (state, .fail .runTooLong) }
    let c := { Computer.idle (.zeros 4 2) .standard with subscribers := [watcher] }
    let p : Program :=
      { instructions := [⟨.not, none⟩, ⟨.store, some 1⟩], stepDelay := .none }
    let commands : List Command := [.step 0, .observe (.program 0) 0,
      .insert 0 (.instruction ⟨.lshift, none⟩) .none (.int 0), .append 0 (.text "not") (.list []),
      .append 0 (.text "load") (.list [.int 7]),
      .insert 0 (.instruction ⟨.not, none⟩) .none (.int 9),
      .step 0, .step 0, .step 0, .step 0, .step 0]
    let L := (start p).follow 0 (c.addProgram p) commands
    let d := (c.addProgram p).performAll commands
    L.slots.map (fun x => (x.number, x.instruction.operation)) =
        [(2, .lshift), (0, .not), (1, .store), (3, .not)] ∧
      L.executed.map Slot.number = [0, 1, 3] ∧
      ∃ q, d.programs[0]? = some q ∧ L.Accounts d.machine q ∧
        ∀ command : Command, command.Edits 0 → d.Replies 0 q command := by
  have hp : Program.ofEntries (.zeros 4 2)
      (.list [.instruction ⟨.not, none⟩, .instruction ⟨.store, some 1⟩]) .none =
      .ok { instructions := [⟨.not, none⟩, ⟨.store, some 1⟩], stepDelay := .none } := rfl
  refine ⟨by cbv, by cbv, accounts_of_calls (by decide) (.idle [_] 0 ?_) rfl hp ?_⟩
  · exact List.forall_mem_singleton.mpr fun _ _ => .inr ⟨_, rfl⟩
  · intro command hcommand
    simp only [List.mem_cons, List.not_mem_nil, or_false] at hcommand
    rcases hcommand with rfl | rfl | rfl | rfl | rfl | rfl | rfl | rfl | rfl | rfl | rfl
    · exact .inl rfl
    · exact .inl trivial
    all_goals first | exact .inl rfl | exact .inr rfl

end Ledger

end Accumulator
