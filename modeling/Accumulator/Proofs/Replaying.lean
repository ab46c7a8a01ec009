import Accumulator.Proofs.Editing
import Accumulator.Proofs.Interrupting
import Accumulator.Proofs.Recounting

/-! The trace of a program that is driven and edited. For each execution it tells, with the place of
the instruction at that time, what the instruction set says the execution has changed; so from the
contents that the program began with, the changes lead to those of the machine now. -/

namespace Accumulator

/-- Entries recount how instructions, each at its place, were executed one after the other from
here. -/
inductive Core.Recounts (w : Nat) (s : Core) :
    List (Instruction × Nat) → List TraceEntry → Core → Prop
  | start : Recounts w s [] [] s
  | executed {is : List (Instruction × Nat)} {es : List TraceEntry} {t : Core} {e : TraceEntry} :
      Recounts w s is es t → e.step = es.length → e.before = t.contents →
      e.after = (t.step w e.instruction).contents →
      Recounts w s (is ++ [(e.instruction, e.counter)]) (es ++ [e]) (t.step w e.instruction)

/-- What is printed of executions, each at its place, can be replayed. There is an entry for each of
them in order, with one change at most; the changes of the first entries fit one another and lead
from the contents at the start to what as many instructions make of them; and there is none just if
the instruction leaves the contents as they are. -/
structure Replays (w : Nat) (s : Core) (executed : List (Instruction × Nat))
    (entries : List PrintedEntry) (now : Contents) : Prop where
  headings : entries.map (fun e => (e.position, e.counter, e.instruction)) =
    executed.zipIdx.map fun ((i, counter), k) => (k, counter, i.text)
  single : ∀ e ∈ entries, e.changes.length ≤ 1
  chained : ∀ k ≤ entries.length,
    replay s.contents ((entries.take k).flatMap PrintedEntry.changes) =
      some (s.exec w ((executed.take k).map Prod.fst)).contents
  absent : ∀ (k : Nat) (e : PrintedEntry), entries[k]? = some e → (e.changes = [] ↔
    (s.exec w ((executed.take (k + 1)).map Prod.fst)).contents =
      (s.exec w ((executed.take k).map Prod.fst)).contents)
  current : replay s.contents (entries.flatMap PrintedEntry.changes) = some now

namespace Core.Recounts

variable {w : Nat} {s t : Core} {is : List (Instruction × Nat)} {es : List TraceEntry}

theorem length_eq (h : s.Recounts w is es t) : is.length = es.length := by
  induction h with
  | start => rfl
  | executed _ _ _ _ ih => simp [ih]

theorem exec_eq (h : s.Recounts w is es t) : s.exec w (is.map Prod.fst) = t := by
  induction h with
  | start => rfl
  | executed _ _ _ _ ih =>
    rw [List.map_append, exec, List.foldl_append]
    show (s.exec w _).exec w _ = _
    rw [ih]
    rfl

theorem told (h : s.Recounts w is es t) : ∀ e ∈ es, e.Told := by
  induction h with
  | start => simp
  | executed _ _ before after ih =>
    refine List.forall_mem_append.mpr ⟨ih, List.forall_mem_singleton.mpr ?_⟩
    exact TraceEntry.told_of_step before after

theorem headings (h : s.Recounts w is es t) :
    es.map (fun e => (e.step, e.counter, e.instruction.text)) =
      is.zipIdx.map fun ((i, counter), k) => (k, counter, i.text) := by
  induction h with
  | start => rfl
  | executed h position _ _ ih => simp [List.zipIdx_append, ih, position, h.length_eq]

/-- The changes lead from the contents at the start to those at the end. -/
theorem replay_eq (h : s.Recounts w is es t) :
    replay s.contents (es.flatMap TraceEntry.changes) = some t.contents := by
  induction h with
  | start => rfl
  | @executed is es t e h _ before after ih =>
    have told := (TraceEntry.told_of_step before after).replay
    rw [before, after] at told
    rw [List.flatMap_append, replay_append, ih]
    simpa using told

/-- The first entries recount the first executions. -/
theorem take (h : s.Recounts w is es t) {k : Nat} (hk : k ≤ es.length) :
    s.Recounts w (is.take k) (es.take k) (s.exec w ((is.take k).map Prod.fst)) := by
  induction h with
  | start =>
    rw [List.take_nil, List.take_nil]
    exact .start
  | @executed is es t e h position before after ih =>
    -- The first entries are those of the executions before the last one, or all of them.
    rw [List.length_append, List.length_singleton] at hk
    rcases Nat.lt_or_eq_of_le hk with less | rfl
    · have few : k ≤ es.length := by omega
      rw [List.take_append_of_le_length (h.length_eq ▸ few), List.take_append_of_le_length few]
      exact ih few
    · have all := h.executed position before after
      rw [List.take_of_length_le (by simp [h.length_eq]), List.take_of_length_le (by simp),
        all.exec_eq]
      exact all

/-- Each entry shows the contents that as many executions lead to as there are entries before it,
and those that one more leads to. -/
theorem shown (h : s.Recounts w is es t) {k : Nat} {e : TraceEntry} (he : es[k]? = some e) :
    e.before = (s.exec w ((is.take k).map Prod.fst)).contents ∧
      e.after = (s.exec w ((is.take (k + 1)).map Prod.fst)).contents := by
  induction h with
  | start => cases he
  | @executed is es t e' h position before after ih =>
    have hlength := h.length_eq
    rw [List.getElem?_append] at he
    split at he
    · rename_i less
      rw [List.take_append_of_le_length (by omega), List.take_append_of_le_length (by omega)]
      exact ih he
    · have last := (List.getElem?_eq_some_iff.mp he).1
      simp only [List.length_singleton] at last
      obtain rfl : k = es.length := by omega
      obtain rfl : e' = e := by simpa using he
      have all := (h.executed position before after).exec_eq
      rw [List.take_append_of_le_length (by omega), List.take_of_length_le (by omega), h.exec_eq,
        List.take_of_length_le (by simp; omega), all]
      exact ⟨before, after⟩

theorem replays (h : s.Recounts w is es t) :
    Replays w s is (es.map TraceEntry.printed) t.contents where
  headings := by
    rw [List.map_map]
    exact h.headings
  single := by
    intro entry hentry
    obtain ⟨e, he, rfl⟩ := List.mem_map.mp hentry
    exact (h.told e he).single
  chained := by
    intro k hk
    rw [List.length_map] at hk
    rw [← List.map_take, List.flatMap_map]
    exact (h.take hk).replay_eq
  absent := by
    intro k entry hentry
    rw [List.getElem?_map, Option.map_eq_some_iff] at hentry
    obtain ⟨e, he, rfl⟩ := hentry
    obtain ⟨before, after⟩ := h.shown he
    rw [← before, ← after]
    exact (h.told e (List.mem_of_getElem? he)).absent
  current := by
    rw [List.flatMap_map]
    exact h.replay_eq

end Core.Recounts

namespace Progress

variable {w n : Nat} {s : Core} {is : List (Instruction × Nat)} {q r : Progress}

/-- The instructions that a program has gone through from one progress to another, each with its
place. Between the two there are executions, or there is one insertion, which moves the counter
without any. -/
def executions (before after : Progress) : List (Instruction × Nat) :=
  if before.instructions.length < after.instructions.length then []
  else
    (List.range' before.counter (after.counter - before.counter)).filterMap fun c =>
      after.instructions[c]?.map (·, c)

/-- The trace recounts what was executed, and the machine stands where the executions lead; if the
instruction at the counter is decoded, its address is selected already. -/
def Recounted (w : Nat) (s : Core) (is : List (Instruction × Nat)) (q : Progress) : Prop :=
  ∃ t, s.Recounts w is q.trace t ∧
    match q.phase with
    | .fetch => q.machine.core = t
    | .decoded => ∀ i ∈ q.current?, q.machine.core = t.select i.address

theorem executions_self (q : Progress) : q.executions q = [] := by
  simp [executions]

theorem executions_trans {a b c : Progress} (hab : a.instructions = b.instructions)
    (hbc : b.instructions = c.instructions) (h : a.counter ≤ b.counter)
    (h' : b.counter ≤ c.counter) : a.executions c = a.executions b ++ b.executions c := by
  have range : List.range' a.counter (c.counter - a.counter) =
      List.range' a.counter (b.counter - a.counter) ++
        List.range' b.counter (c.counter - b.counter) := by
    obtain ⟨m, hm⟩ := Nat.exists_eq_add_of_le h
    obtain ⟨k, hk⟩ := Nat.exists_eq_add_of_le h'
    have lengths : c.counter - a.counter = m + k ∧ b.counter - a.counter = m ∧
        c.counter - b.counter = k := by omega
    rw [lengths.1, lengths.2.1, lengths.2.2, hm, List.range'_append_1]
  simp only [executions, hab, hbc, Nat.lt_irrefl, if_false, range, List.filterMap_append]

theorem executions_insertAt {k : Nat} (hk : k ≤ q.instructions.length) (i : Instruction) :
    q.executions (q.insertAt k i) = [] := by
  refine if_pos ?_
  rw [insertAt, List.length_insertIdx_of_le_length hk]
  exact Nat.lt_succ_self _

/-- A step executes nothing, or the instruction at the counter. -/
theorem Recounted.next (h : q.Recounted w s is) (hq : q.Regular w n) :
    (q.next .standard).Recounted w s (is ++ q.executions (q.next .standard)) ∧
      q.counter ≤ (q.next .standard).counter := by
  have unmoved (r : Progress) (hr : r.counter = q.counter) : q.executions r = [] := by
    simp [executions, hr]
  obtain ⟨t, recounts, stands⟩ := h
  cases hi : q.current? with
  | none =>
    rw [next_complete hi, executions_self, List.append_nil]
    exact ⟨⟨t, recounts, stands⟩, le_rfl⟩
  | some i =>
    cases hphase : q.phase with
    | fetch =>
      have still := unmoved { q with machine := q.machine.decoded i, phase := .decoded } rfl
      rw [next_accepted hi hphase (hq.sited.accepts hi), still, List.append_nil]
      rw [hphase] at stands
      refine ⟨⟨t, recounts, fun j hj => ?_⟩, le_rfl⟩
      obtain rfl : i = j := Option.some.inj (hi.symm.trans hj)
      exact congrArg (Core.select · i.address) stands
    | decoded =>
      -- The address is selected already, and to select it once more makes no difference.
      have holds := hq.holds hi hphase
      rw [hphase] at stands
      have selected : q.machine.core = t.select i.address := stands i hi
      have stepped : (q.machine.executed .standard).core = t.step w i := by
        rw [hq.machine.core_executed holds, selected, Core.step_select]
      have moved : q.executions (q.finished .standard i) = [(i, q.counter)] := by
        have here : q.instructions[q.counter]? = some i := hi
        simp [executions, finished, here]
      rw [next_decoded hi hphase, moved]
      refine ⟨⟨t.step w i, ?_, stepped⟩, Nat.le_succ _⟩
      refine recounts.executed (e := ⟨_, _, i, _, _⟩) rfl ?_ ?_
      · show q.machine.core.contents = _
        rw [selected]
        rfl
      · exact congrArg Core.contents stepped

theorem Recounted.iterate (h : q.Recounted w s is) (hq : q.Regular w n) (k : Nat) :
    ((Progress.next .standard)^[k] q).Recounted w s
        (is ++ q.executions ((Progress.next .standard)^[k] q)) ∧
      q.counter ≤ ((Progress.next .standard)^[k] q).counter := by
  induction k with
  | zero =>
    show q.Recounted w s (is ++ q.executions q) ∧ _
    rw [executions_self, List.append_nil]
    exact ⟨h, le_rfl⟩
  | succ k ih =>
    obtain ⟨recounted, onward⟩ := ih
    obtain ⟨recounted', onward'⟩ := recounted.next (hq.iterate k)
    have same := instructions_iterate .standard q k
    have trans := executions_trans same.symm (next_instructions .standard _).symm onward onward'
    rw [Function.iterate_succ_apply', trans, ← List.append_assoc]
    exact ⟨recounted', onward.trans onward'⟩

/-- To select an address leaves the contents as they are. -/
theorem Recounted.contents (h : q.Recounted w s is) (hq : q.Regular w n) :
    ∃ t, s.Recounts w is q.trace t ∧ q.machine.core.contents = t.contents := by
  obtain ⟨t, recounts, stands⟩ := h
  refine ⟨t, recounts, ?_⟩
  cases hphase : q.phase with
  | fetch =>
    rw [hphase] at stands
    exact congrArg Core.contents stands
  | decoded =>
    rw [hphase] at stands
    obtain ⟨i, hi, -⟩ := hq.held hphase
    rw [stands i hi]
    rfl

theorem Recounted.insertAt (h : q.Recounted w s is) {k : Nat} (hk : k ≤ q.instructions.length)
    (i : Instruction) : (q.insertAt k i).Recounted w s (is ++ q.executions (q.insertAt k i)) := by
  obtain ⟨t, recounts, stands⟩ := h
  rw [executions_insertAt hk, List.append_nil]
  refine ⟨t, recounts, ?_⟩
  show match q.phase with
    | .fetch => q.machine.core = t
    | .decoded => ∀ j ∈ (q.insertAt k i).current?, q.machine.core = t.select j.address
  cases hphase : q.phase with
  | fetch => rwa [hphase] at stands
  | decoded =>
    rw [hphase] at stands
    rwa [current?_insertAt (.inl hphase)]

theorem Regular.insertAt (h : q.Regular w n) {k : Nat} (hk : k ≤ q.instructions.length)
    (i : Instruction)
    (haddresses : ∀ j ∈ (q.insertAt k i).instructions, ∀ a, j.address = some a → a < n) :
    (q.insertAt k i).Regular w n where
  machine := h.machine
  addresses := haddresses
  counter := by
    have within := h.counter
    simp only [Progress.insertAt, List.length_insertIdx_of_le_length hk]
    split <;> omega
  held hdecoded := by
    have hphase : q.phase = .decoded := hdecoded
    obtain ⟨j, hj, hholds⟩ := h.held hphase
    exact ⟨j, (current?_insertAt (.inl hphase) i).trans hj, hholds⟩

theorem Traced.insertAt (h : q.Traced w n) {k : Nat} (hk : k ≤ q.instructions.length)
    (i : Instruction) : (q.insertAt k i).Traced w n := fun e he =>
  have ⟨before, after, inside⟩ := h e he
  ⟨before, after, (List.mem_insertIdx hk).mpr (.inr inside)⟩

end Progress

namespace Computer

variable {w n index first : Nat} {s : Core} {is : List (Instruction × Nat)} {q : Progress}
  {c : Computer}

/-- The instructions of a program that are executed in the course of calls, in order, each with its
place at that time. -/
def executionsAlong (index : Nat) (c : Computer) : List Command → List (Instruction × Nat)
  | [] => []
  | command :: commands =>
    let d := (c.perform command).2
    match c.programs[index]?, d.programs[index]? with
    | some p, some q =>
      (p.progress c.machine).executions (q.progress d.machine) ++ executionsAlong index d commands
    | _, _ => []

/-- What holds of a program between the calls that drive and edit it. -/
structure Recalls (w n index first : Nat) (s : Core) (is : List (Instruction × Nat))
    (c : Computer) (q : Progress) : Prop where
  driven : c.Driven w n .standard index first (· = q)
  regular : q.Regular w n
  traced : q.Traced w n
  recounted : q.Recounted w s is

/-- A call drives the program, which takes it some steps further, or edits it without a step. -/
theorem Recalls.perform (h : Recalls w n index first s is c q) (hn : 0 < n)
    (hc : c.Reachable w n .standard Conduct.Quiet) {command : Command}
    (hcommand : command.Drives index first ∨ command.Edits index) :
    ∃ r, Recalls w n index first s (is ++ q.executions r) (c.perform command).2 r := by
  rcases hcommand with hdrives | hedits
  · obtain ⟨k, driven⟩ := h.driven.perform hdrives
    exact ⟨_, driven, h.regular.iterate k, h.traced.iterate h.regular.sited k,
      (h.recounted.iterate h.regular k).1⟩
  · have driven := h.driven.edit hedits
    cases hasked : command.addition? index q.machine.memory q.instructions.length with
    | none =>
      rw [hasked] at driven
      refine ⟨q, driven, h.regular, h.traced, ?_⟩
      rw [Progress.executions_self, List.append_nil]
      exact h.recounted
    | some place =>
      obtain ⟨k, i⟩ := place
      rw [hasked] at driven
      have hplace : k ≤ q.instructions.length := Computer.addition?_le hasked
      obtain ⟨p, hp, -, hprogress⟩ := driven.program
      have sited := (hc.call command).sited hn hp
      rw [hprogress] at sited
      exact ⟨_, driven, h.regular.insertAt hplace i sited.addresses, h.traced.insertAt hplace i,
        h.recounted.insertAt hplace i⟩

theorem Recalls.along (h : Recalls w n index first s is c q) (hn : 0 < n)
    (hc : c.Reachable w n .standard Conduct.Quiet) {commands : List Command}
    (hcommands : ∀ command ∈ commands, command.Drives index first ∨ command.Edits index) :
    ∃ r, Recalls w n index first s (is ++ executionsAlong index c commands)
      (c.performAll commands) r := by
  induction commands generalizing c q is with
  | nil =>
    rw [executionsAlong, List.append_nil]
    exact ⟨q, h⟩
  | cons command commands ih =>
    obtain ⟨hcommand, hrest⟩ := List.forall_mem_cons.mp hcommands
    obtain ⟨r, hr⟩ := h.perform hn hc hcommand
    obtain ⟨p, hp, -, hprogress⟩ := h.driven.program
    obtain ⟨p', hp', -, hprogress'⟩ := hr.driven.program
    obtain ⟨r', hr'⟩ := ih hr (hc.call command) hrest
    rw [executionsAlong]
    simp only [hp, hp', hprogress, hprogress']
    rw [← List.append_assoc]
    exact ⟨r', hr'⟩

/-- Build a program on any machine with the standard table, whose subscribers at most fail, and
drive and edit it by any calls in any order, refused or not, up to any point in its run: its trace
as it is printed tells of what has been executed so far, and leads from the contents that the
machine had to those that it has. It is printed as long as its numbers can be written. -/
theorem trace_replays (hn : 0 < n) (h : c.Reachable w n .standard Conduct.Quiet)
    {entries delay : Value} {p : Program}
    (hp : Program.ofEntries c.machine.memory entries delay = .ok p) {commands : List Command}
    (hcommands : ∀ command ∈ commands,
      command.Drives c.programs.length c.loops.length ∨ command.Edits c.programs.length) :
    let index := c.programs.length
    let d := (c.addProgram p).performAll commands
    ∃ q printed, d.programs[index]? = some q ∧ PrintedEntry.readTrace q.traceText = some printed ∧
      Replays w c.machine.core (executionsAlong index (c.addProgram p) commands) printed
        d.machine.core.contents ∧
      (2 ^ w ≤ Number.decimalBound → n ≤ Number.decimalBound →
        q.writtenTrace = .ok q.traceText) := by
  obtain ⟨heq, -⟩ := Program.ofEntries_eq_ok hp
  have sound := h.sound hn
  have phase : p.phase = .fetch := by rw [heq]
  have trace : p.trace = [] := by rw [heq]
  have begun : Recalls w n c.programs.length c.loops.length c.machine.core [] (c.addProgram p)
      (p.progress c.machine) := by
    refine ⟨sound.driven (by rw [heq]), sound.regular hp, ?_, c.machine.core, ?_, ?_⟩
    · simp [Progress.Traced, Program.progress, trace]
    · show c.machine.core.Recounts w [] p.trace _
      rw [trace]
      exact .start
    · show match p.phase with
        | .fetch => c.machine.core = c.machine.core
        | .decoded => _
      rw [phase]
  obtain ⟨r, recalls⟩ := begun.along hn (h.build entries delay hp) hcommands
  obtain ⟨q, hq, -, rfl⟩ := recalls.driven.program
  obtain ⟨t, recounts, contents⟩ := recalls.recounted.contents recalls.regular
  refine ⟨q, _, hq, PrintedEntry.readTrace_traceText fun e he => (recounts.told e he).single, ?_,
    fun hw hm => CommandLine.written_eq_ok (fun k hk => ?_) _⟩
  · show Replays w _ _ _ (q.progress _).machine.core.contents
    rw [contents]
    exact recounts.replays
  · obtain ⟨e, he, hk⟩ := List.mem_flatMap.mp hk
    obtain ⟨before, after, inside⟩ := recalls.traced e he
    exact CommandLine.written_entry hw hm before after (recalls.regular.addresses _ inside) k hk

/-- While the complement is decoded a shift is inserted in its place, which moves it, and at the end
another shift is appended and the store is over: the trace tells of the complement and the store. -/
theorem trace_replays_moved :
    let watcher : Subscriber := { react := fun state _ => (state, .fail .runTooLong) }
    let c := { idle (.zeros 4 2) .standard with subscribers := [watcher] }
    let p : Program := { instructions := [⟨.not, none⟩, ⟨.store, some 1⟩], stepDelay := .none }
    let commands : List Command := [.step 0, .observe (.program 0) 0,
      .insert 0 (.instruction ⟨.lshift, none⟩) .none (.int 0), .step 0, .step 0, .step 0,
      .append 0 (.instruction ⟨.rshift, none⟩) .none, .step 0]
    let executed : List (Instruction × Nat) := [(⟨.not, none⟩, 1), (⟨.store, some 1⟩, 2)]
    let d := (c.addProgram p).performAll commands
    executionsAlong 0 (c.addProgram p) commands = executed ∧
      ∃ q printed, d.programs[0]? = some q ∧ PrintedEntry.readTrace q.traceText = some printed ∧
        Replays 4 c.machine.core executed printed d.machine.core.contents ∧
        q.writtenTrace = .ok q.traceText := by
  intro watcher c p commands executed d
  have hp : Program.ofEntries (.zeros 4 2)
      (.list [.instruction ⟨.not, none⟩, .instruction ⟨.store, some 1⟩]) .none = .ok p := rfl
  have along : executionsAlong 0 (c.addProgram p) commands = executed := by decide +kernel
  have reachable : c.Reachable 4 2 .standard Conduct.Quiet :=
    .idle [watcher] 0 (List.forall_mem_singleton.mpr fun _ _ => .inr ⟨_, rfl⟩)
  have drives : ∀ command ∈ commands, command.Drives 0 0 ∨ command.Edits 0 := by
    intro command hcommand
    simp only [commands, List.mem_cons, List.not_mem_nil, or_false] at hcommand
    rcases hcommand with rfl | rfl | rfl | rfl | rfl | rfl | rfl | rfl
    · exact .inl rfl
    · exact .inl trivial
    · exact .inr rfl
    · exact .inl rfl
    · exact .inl rfl
    · exact .inl rfl
    · exact .inr rfl
    · exact .inl rfl
  obtain ⟨q, printed, hq, read, replays, written⟩ := trace_replays (by decide) reachable hp drives
  exact ⟨along, q, printed, hq, read, along ▸ replays,
    written (by decide +kernel) (by decide +kernel)⟩

/-- Words of so many bits that the complement of zero has more digits than can be written: the trace
is not printed. -/
theorem trace_replays_unwritable :
    let c := idle (.zeros 14285 1) .standard
    let p : Program := { instructions := [⟨.not, none⟩], stepDelay := .none }
    Program.ofEntries c.machine.memory (.list [.instruction ⟨.not, none⟩]) .none = .ok p ∧
      ∃ q fault, ((c.addProgram p).performAll [.run 0]).programs[0]? = some q ∧
        q.writtenTrace = .error fault ∧ fault.kind = .invalidValue := by
  intro c p
  let d := (c.addProgram p).performAll [.run 0]
  obtain ⟨q, hq⟩ : ∃ q, d.programs[0]? = some q :=
    Option.isSome_iff_exists.mp (by decide +kernel)
  have written : d.programs[0]?.map Program.writtenTrace = some q.writtenTrace := by rw [hq]; rfl
  have refused : ∃ fault, (d.programs[0]?.map Program.writtenTrace).getD (.ok "") = .error fault ∧
      fault.kind = .invalidValue := exists_of_kind (by decide +kernel)
  rw [written] at refused
  obtain ⟨fault, refusal, kind⟩ := refused
  exact ⟨rfl, q, fault, hq, refusal, kind⟩

end Computer

end Accumulator
