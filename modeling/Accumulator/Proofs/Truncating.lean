import Accumulator.Proofs.Completion

/-! Machines of different sizes. A machine with shorter words and fewer cells goes through a program
as a larger one does, and holds the low bits of what the larger one holds: every operation but the
shift to the right determines the low bits of its result by the low bits of what it works on. -/

namespace Accumulator

variable {w n : Nat}

/-! ### Low bits -/

namespace Word

/-- The word of the lowest `w` bits of a word. -/
def low (w : Nat) (a : Word) : Word := truncate w a.value

@[simp] theorem low_value (a : Word) : (a.low w).value = a.value % 2 ^ w := truncate_value w _

theorem mod_mod_two_pow {width : Nat} (h : w ≤ width) (k : Nat) :
    k % 2 ^ width % 2 ^ w = k % 2 ^ w :=
  Nat.mod_mod_of_dvd k (pow_dvd_pow 2 h)

theorem low_truncate {width : Nat} (h : w ≤ width) (k : Nat) :
    (truncate width k).low w = truncate w k :=
  truncate_congr (by rw [truncate_value, mod_mod_two_pow h])

variable {a : Word} (h : w ≤ a.width)
include h

theorem low_and (b : Word) : (a.and b).low w = (a.low w).and (b.low w) := by
  rw [and, low_truncate h]
  exact truncate_congr (by simp [Nat.and_mod_two_pow])

theorem low_or (b : Word) : (a.or b).low w = (a.low w).or (b.low w) := by
  rw [or, low_truncate h]
  exact truncate_congr (by simp [Nat.or_mod_two_pow])

theorem low_xor (b : Word) : (a.xor b).low w = (a.low w).xor (b.low w) := by
  rw [xor, low_truncate h]
  exact truncate_congr (by simp [Nat.xor_mod_two_pow])

omit h in
theorem mask_mod {width : Nat} (h : w ≤ width) : mask width % 2 ^ w = mask w := by
  rw [mask_eq, mask_eq]
  apply Nat.eq_of_testBit_eq
  intro i
  simp only [Nat.testBit_mod_two_pow, Nat.testBit_two_pow_sub_one]
  by_cases hi : i < w
  · simp [hi, hi.trans_le h]
  · simp [hi]

theorem low_complement : a.complement.low w = (a.low w).complement := by
  rw [complement, low_truncate h]
  refine truncate_congr ?_
  show (a.value ^^^ mask a.width) % 2 ^ w = ((a.low w).value ^^^ mask w) % 2 ^ w
  rw [Nat.xor_mod_two_pow, mask_mod h, low_value, Nat.xor_mod_two_pow, Nat.mod_mod,
    ← mask_mod le_rfl, Nat.mod_mod]

theorem low_shiftLeft (k : Nat) : (a.shiftLeft k).low w = (a.low w).shiftLeft k := by
  rw [shiftLeft_eq, shiftLeft_eq, low_truncate h]
  exact truncate_congr (by simp)

omit h in
/-- The low bits of an integer determine its lower ones, also in two's complement. -/
theorem lowBits_mod {width : Nat} (h : w ≤ width) (k : Int) :
    lowBits width k % 2 ^ w = lowBits w k := by
  have hdvd : ((2 ^ w : Nat) : Int) ∣ ((2 ^ width : Nat) : Int) :=
    Int.natCast_dvd_natCast.mpr (pow_dvd_pow 2 h)
  apply Int.natCast_inj.mp
  rw [Int.natCast_emod, natCast_lowBits, natCast_lowBits, Int.emod_emod_of_dvd k hdvd]

end Word

/-! ### The low part of a machine -/

/-- The lowest `w` bits of each of the first `n` cells. -/
def Memory.low (w n : Nat) (m : Memory) : Memory where
  wordSize := w
  cells := (m.cells.take n).map (· % 2 ^ w)

/-- The machine with the first `n` cells only, and with the lowest `w` bits of everything. -/
def Machine.low (w n : Nat) (m : Machine) : Machine where
  memory := m.memory.low w n
  registers := { m.registers with
    accumulator := m.registers.accumulator % 2 ^ w
    data := m.registers.data % 2 ^ w }

/-- The entry with the low parts of its machines. -/
def TraceEntry.low (w n : Nat) (e : TraceEntry) : TraceEntry :=
  { e with pre := e.pre.low w n, post := e.post.low w n }

/-- The same progress on the low part of the machine. -/
def Progress.low (w n : Nat) (s : Progress) : Progress :=
  { s with machine := s.machine.low w n, trace := s.trace.map (·.low w n) }

namespace Memory

variable {m : Memory}

theorem low_size (h : n ≤ m.size) : (m.low w n).size = n := by
  simpa [size, low] using h

theorem low_cell {a : Nat} (ha : a < n) : (m.low w n).cell a = m.cell a % 2 ^ w := by
  simp only [cell, low, List.getD_eq_getElem?_getD, List.getElem?_map, List.getElem?_take, ha,
    if_true]
  cases m.cells[a]? <;> simp

/-- What is written loses the bits that do not fit, so that it is no matter where they are lost. -/
theorem low_set (h : w ≤ m.wordSize) (a : Nat) (k : Int) :
    (m.set a k).low w n = (m.low w n).set a k := by
  simp only [low, set, List.take_set, List.map_set, Word.lowBits_mod h]

theorem low_zeros {width size : Nat} (h : n ≤ size) : (zeros width size).low w n = zeros w n := by
  simp [low, zeros, h]

theorem set_mod (m : Memory) (a k : Nat) :
    m.set a ((k % 2 ^ m.wordSize : Nat) : Int) = m.set a (k : Int) := by
  simp only [set, Word.lowBits_natCast, Nat.mod_mod]

end Memory

/-- The words of the machine have at least `w` bits, and it works with its first `n` cells: the
others are zero. It is not about to shift to the right. -/
structure Machine.Within (w n : Nat) (m : Machine) : Prop where
  wordSize : w ≤ m.wordSize
  size : n ≤ m.memory.size
  address : m.registers.address < n
  beyond : ∀ a, n ≤ a → m.memory.cell a = 0
  pending : m.registers.pending ≠ some .rshift

/-- An instruction that shifts nothing to the right and works with the first `n` cells. -/
def Instruction.Within (n : Nat) (i : Instruction) : Prop :=
  i.operation ≠ .rshift ∧ ∀ a, i.address = some a → a < n

namespace Machine

variable {m : Machine}

/-- What an operation leaves in the accumulator has the low bits that it leaves there when it works
on the low part. -/
theorem low_result (h : w ≤ m.wordSize) {op : Operation} (hop : op ≠ .rshift) :
    (m.low w n).result op = m.result op % 2 ^ w := by
  have hacc : (m.low w n).accumulatorWord = m.accumulatorWord.low w := by
    rw [accumulatorWord, accumulatorWord, Word.low_truncate h]
    exact Word.truncate_congr (Nat.mod_mod _ _)
  have hdata : (m.low w n).dataWord = m.dataWord.low w := by
    rw [dataWord, dataWord, Word.low_truncate h]
    exact Word.truncate_congr (Nat.mod_mod _ _)
  cases op with
  | or => rw [result, result, hacc, hdata, ← Word.low_or h, Word.low_value]
  | and => rw [result, result, hacc, hdata, ← Word.low_and h, Word.low_value]
  | xor => rw [result, result, hacc, hdata, ← Word.low_xor h, Word.low_value]
  | not => rw [result, result, hacc, ← Word.low_complement h, Word.low_value]
  | lshift => rw [result, result, hacc, ← Word.low_shiftLeft h, Word.low_value]
  | rshift => exact absurd rfl hop
  | load => rfl
  | store => rfl

theorem low_setAccumulator (h : w ≤ m.wordSize) (k : Nat) :
    (m.setAccumulator k).low w n = (m.low w n).setAccumulator (k % 2 ^ w) := by
  have hmod : k % 2 ^ m.memory.wordSize % 2 ^ w = k % 2 ^ w := Word.mod_mod_two_pow h k
  simp only [low, setAccumulator, Memory.wordMask, Memory.low, Word.and_mask, Nat.mod_mod, hmod]

/-- To decode an instruction that works with the first `n` cells. -/
theorem low_decoded (haddress : m.registers.address < n) {i : Instruction}
    (hi : ∀ a, i.address = some a → a < n) :
    (m.decoded i).low w n = (m.low w n).decoded i := by
  have hlt : i.address.getD m.registers.address < n := by
    cases ha : i.address with
    | none => exact haddress
    | some a => exact hi a ha
  simp only [low, decoded, Memory.low_cell hlt]

theorem low_stored (h : w ≤ m.wordSize) (haddress : m.registers.address < n) (a : Nat) (k : Int) :
    ((m.setMemory (m.memory.set a k)).refresh).low w n =
      ((m.low w n).setMemory ((m.low w n).memory.set a k)).refresh := by
  simp only [low, setMemory, refresh, ← Memory.low_set h, Memory.low_cell haddress]

theorem low_operated (h : w ≤ m.wordSize) (haddress : m.registers.address < n) {op : Operation}
    (hop : op ≠ .rshift) : (m.operated op).low w n = (m.low w n).operated op := by
  have hresult : (m.setAccumulator (m.result op)).low w n =
      (m.low w n).setAccumulator ((m.low w n).result op) := by
    rw [low_result h hop, low_setAccumulator h]
  cases op with
  | store =>
    rw [operated, low_stored h haddress]
    exact congrArg (fun memory => ((m.low w n).setMemory memory).refresh)
      (Memory.set_mod (m.low w n).memory _ _).symm
  | _ => exact hresult

namespace Within

theorem decoded (h : m.Within w n) {i : Instruction} (hi : i.Within n) :
    (m.decoded i).Within w n where
  wordSize := h.wordSize
  size := h.size
  address := by
    cases ha : i.address with
    | none =>
      simp only [Machine.decoded, ha, Option.getD_none]
      exact h.address
    | some a =>
      simp only [Machine.decoded, ha, Option.getD_some]
      exact hi.2 a ha
  beyond := h.beyond
  pending := by simpa [Machine.decoded] using hi.1

theorem stored (h : m.Within w n) {a : Nat} (ha : a < n) (k : Int) :
    ((m.setMemory (m.memory.set a k)).refresh).Within w n where
  wordSize := h.wordSize
  size := h.size.trans_eq (Memory.set_size _ a k).symm
  address := h.address
  beyond b hb := (Memory.cell_set_of_ne (by omega) k).trans (h.beyond b hb)
  pending := h.pending

theorem operated (h : m.Within w n) (op : Operation) : (m.operated op).Within w n := by
  cases op with
  | store => exact h.stored h.address _
  | _ => exact ⟨h.wordSize, h.size, h.address, h.beyond, h.pending⟩

theorem consume (h : m.Within w n) : m.consume.Within w n :=
  ⟨h.wordSize, h.size, h.address, h.beyond, nofun⟩

theorem executed (h : m.Within w n) : (m.executed .standard).Within w n := by
  unfold Machine.executed
  split
  · exact h
  · rw [lookup_standard]
    exact h.consume.operated _

theorem low_executed (h : m.Within w n) :
    (m.executed .standard).low w n = (m.low w n).executed .standard := by
  have hpending : (m.low w n).registers.pending = m.registers.pending := rfl
  unfold Machine.executed
  rw [hpending]
  cases hop : m.registers.pending with
  | none => rfl
  | some op =>
    have hne : op ≠ .rshift := by
      rintro rfl
      exact h.pending hop
    simp only [lookup_standard]
    exact low_operated h.consume.wordSize h.consume.address hne

end Within

end Machine

/-! ### Steps -/

namespace Progress

/-- The program shifts nothing to the right, and it and its machine work with the first `n`
cells. -/
structure Within (w n : Nat) (s : Progress) : Prop where
  machine : s.machine.Within w n
  instructions : ∀ i ∈ s.instructions, i.Within n

variable {s : Progress}

/-- An instruction that works with the first `n` cells is accepted by a machine that has them. -/
theorem Within.accepts (h : s.Within w n) {i : Instruction} (hi : s.current? = some i) :
    s.machine.Accepts .standard i ∧ (s.machine.low w n).Accepts .standard i := by
  have haddress := (h.instructions i (List.mem_of_getElem? hi)).2
  refine ⟨⟨Machine.contains_standard _, fun a ha => ?_⟩, Machine.contains_standard _,
    fun a ha => ?_⟩
  · exact (haddress a ha).trans_le h.machine.size
  · exact (haddress a ha).trans_eq (Memory.low_size h.machine.size).symm

theorem Within.next (h : s.Within w n) : (s.next .standard).Within w n := by
  refine ⟨?_, by rw [next_instructions]; exact h.instructions⟩
  cases hi : s.current? with
  | none =>
    rw [next_complete hi]
    exact h.machine
  | some i =>
    cases hphase : s.phase with
    | fetch =>
      rw [next_accepted hi hphase (h.accepts hi).1]
      exact h.machine.decoded (h.instructions i (List.mem_of_getElem? hi))
    | decoded =>
      rw [next_decoded hi hphase]
      exact h.machine.executed

/-- The low part of a step is the step of the low part. -/
theorem Within.low_next (h : s.Within w n) :
    (s.next .standard).low w n = (s.low w n).next .standard := by
  cases hi : s.current? with
  | none =>
    have hlow : (s.low w n).current? = none := hi
    rw [next_complete hi, next_complete hlow]
  | some i =>
    have hlow : (s.low w n).current? = some i := hi
    have hwithin := h.instructions i (List.mem_of_getElem? hi)
    cases hphase : s.phase with
    | fetch =>
      have hphase' : (s.low w n).phase = .fetch := hphase
      obtain ⟨hwide, hnarrow⟩ := h.accepts hi
      rw [next_accepted hi hphase hwide, next_accepted hlow hphase' hnarrow]
      simp only [low, Machine.low_decoded h.machine.address hwithin.2]
    | decoded =>
      have hphase' : (s.low w n).phase = .decoded := hphase
      rw [next_decoded hi hphase, next_decoded hlow hphase']
      simp [low, finished, TraceEntry.low, h.machine.low_executed]

theorem Within.iterate (h : s.Within w n) (k : Nat) :
    ((Progress.next .standard)^[k] s).Within w n :=
  Function.Iterate.rec (Within w n) h (fun _ h => h.next) k

theorem Within.low_iterate (h : s.Within w n) (k : Nat) :
    ((Progress.next .standard)^[k] s).low w n = (Progress.next .standard)^[k] (s.low w n) := by
  induction k with
  | zero => rfl
  | succ k ih =>
    rw [Function.iterate_succ_apply', Function.iterate_succ_apply', (h.iterate k).low_next, ih]

end Progress

/-! ### Computers -/

/-- The progress `s` with `n` cells of `w` bits is the truncation of `s'`, which has `n'` cells of
`w'` bits. -/
structure Progress.Truncates (w n w' n' : Nat) (s s' : Progress) : Prop where
  narrow : s.machine.memory.wordSize = w ∧ s.machine.memory.size = n
  wide : s'.machine.memory.wordSize = w' ∧ s'.machine.memory.size = n'
  counter : s.counter = s'.counter
  phase : s.phase = s'.phase
  instruction : s.machine.registers.instruction = s'.machine.registers.instruction
  pending : s.machine.registers.pending = s'.machine.registers.pending
  address : s.machine.registers.address = s'.machine.registers.address
  trace : s.trace.length = s'.trace.length
  accumulator : s.machine.registers.accumulator = s'.machine.registers.accumulator % 2 ^ w
  data : s.machine.registers.data = s'.machine.registers.data % 2 ^ w
  cells : ∀ a < n, s.machine.memory.cell a = s'.machine.memory.cell a % 2 ^ w
  beyond : ∀ a, n ≤ a → s'.machine.memory.cell a = 0

theorem Progress.Within.truncates {w n w' n' : Nat} {s : Progress} (h : s.Within w n)
    (hs : s.machine.Sound w' n' .standard) : (s.low w n).Truncates w n w' n' s where
  narrow := ⟨rfl, Memory.low_size h.machine.size⟩
  wide := ⟨hs.memory.wordSize, hs.memory.size⟩
  counter := rfl
  phase := rfl
  instruction := rfl
  pending := rfl
  address := rfl
  trace := List.length_map _
  accumulator := rfl
  data := rfl
  cells _ ha := Memory.low_cell ha
  beyond := h.machine.beyond

/-- The machine after writing integers to cells. -/
def Machine.stored (m : Machine) (writes : List (Int × Nat)) : Machine :=
  writes.foldl (fun m x => (m.setMemory (m.memory.set x.2 x.1)).refresh) m

theorem Machine.Within.low_writes {m : Machine} (h : m.Within w n) {writes : List (Int × Nat)}
    (hwrites : ∀ x ∈ writes, x.2 < n) :
    (m.stored writes).Within w n ∧ (m.stored writes).low w n = (m.low w n).stored writes := by
  induction writes generalizing m with
  | nil => exact ⟨h, rfl⟩
  | cons x writes ih =>
    have hx := h.stored (hwrites x List.mem_cons_self) x.1
    obtain ⟨hwithin, hlow⟩ := ih hx fun y hy => hwrites y (List.mem_cons_of_mem x hy)
    rw [low_stored h.wordSize h.address] at hlow
    exact ⟨hwithin, hlow⟩

/-- A program that has not begun, on a machine of zeros that has been written to. -/
def Progress.begun (w n : Nat) (writes : List (Int × Nat)) (is : List Instruction) : Progress where
  machine := ({ memory := .zeros w n } : Machine).stored writes
  instructions := is
  counter := 0
  phase := .fetch
  trace := []

theorem Progress.low_begun {w' n' : Nat} (hw : w ≤ w') (hn : 0 < n) (hn' : n ≤ n')
    {writes : List (Int × Nat)} (hwrites : ∀ x ∈ writes, x.2 < n) {is : List Instruction}
    (his : ∀ i ∈ is, i.Within n) :
    (begun w' n' writes is).Within w n ∧ (begun w' n' writes is).low w n = begun w n writes is := by
  have hzeros : ({ memory := .zeros w' n' } : Machine).Within w n :=
    { wordSize := hw
      size := hn'.trans_eq (Memory.Sound.zeros w' n').size.symm
      address := hn
      beyond := fun a _ => Memory.cell_zeros w' n' a
      pending := nofun }
  obtain ⟨hwithin, hlow⟩ := hzeros.low_writes hwrites
  refine ⟨⟨hwithin, his⟩, ?_⟩
  have hcut : ({ memory := .zeros w' n' } : Machine).low w n = { memory := .zeros w n } := by
    simp [Machine.low, Memory.low_zeros hn']
  rw [hcut] at hlow
  simp only [begun, low, hlow, List.map_nil]

namespace Computer

variable {c : Computer}

/-- A machine at rest with `n` cells of `w` bits, after integers are written to its cells, and a
program on it. -/
def loaded (w n : Nat) (writes : List (Int × Nat)) (entries delay : Value) :
    Except Fault Computer := do
  let c ← (idle (.zeros w n) .standard).writeAll (writes.map fun x => (.int x.1, .int x.2))
  return c.addProgram (← Program.ofEntries c.machine.memory entries delay)

theorem Sound.perform_write (h : c.Sound w n .standard Conduct.Records) {a : Nat} (ha : a < n)
    (k : Int) : ∃ d, c.perform (.write (.int k) (.int a)) = (.ok .nothing, d) ∧
      Noted { c with machine := (c.machine.setMemory (c.machine.memory.set a k)).refresh } d := by
  have hquiet : c.Quiet := fun s hs => (h.conduct s hs).quiet
  have hmemory : c.machine.memory.write (.int k) (.int a) = .ok (c.machine.memory.set a k) := by
    have hsize : a < c.machine.memory.size := ha.trans_eq h.machine.memory.size.symm
    simp [Memory.write, Memory.address_natCast, hsize, Quantity.integer, bind, Except.bind, pure,
      Except.pure]
  have harrives :
      (Routine.write (Routine.performWithin c.bound) (.int k) (.int a)).Arrives c () _ :=
    Routine.write_arrives hquiet h.watched hmemory
  have hperform := Routine.on_bind_pure (fun _ => Answer.nothing)
    (Routine.write (Routine.performWithin c.bound) (.int k) (.int a)) c
  rw [harrives.recorded h.conduct] at hperform
  exact ⟨_, hperform, harrives.state⟩

/-- Integers can be written to any cells. -/
theorem Sound.writeAll (h : c.Sound w n .standard Conduct.Records) {writes : List (Int × Nat)}
    (hwrites : ∀ x ∈ writes, x.2 < n) :
    ∃ d, c.writeAll (writes.map fun x => (.int x.1, .int x.2)) = .ok d ∧
      d.Sound w n .standard Conduct.Records ∧
      Noted { c with machine := c.machine.stored writes } d := by
  induction writes generalizing c with
  | nil => exact ⟨c, rfl, h, .refl c⟩
  | cons x writes ih =>
    obtain ⟨e, he, hnoted⟩ := h.perform_write (hwrites x List.mem_cons_self) x.1
    have hsound := h.perform (.write (.int x.1) (.int x.2))
    rw [he] at hsound
    obtain ⟨d, hd, hsound, hlast⟩ := ih hsound fun y hy => hwrites y (List.mem_cons_of_mem x hy)
    refine ⟨d, ?_, hsound, ?_⟩
    · rw [Computer.writeAll, List.map_cons, List.foldlM_cons, he]
      exact hd
    · obtain ⟨_, _, _, rfl, hreact⟩ := hnoted
      obtain ⟨_, _, _, rfl, hreact'⟩ := hlast
      exact ⟨_, _, _, rfl, hreact'.trans hreact⟩

/-- What is loaded and then stepped is what the program makes of the machine that was written to. -/
theorem loaded_stepped (hn : 0 < n) {writes : List (Int × Nat)} (hwrites : ∀ x ∈ writes, x.2 < n)
    {entries : Value} {is : List Instruction} (his : Instruction.ofEntries entries = .ok is)
    (haddresses : ∀ i ∈ is, ∀ a, i.address = some a → a < n) (delay : Value) :
    ∃ c, loaded w n writes entries delay = .ok c ∧ ∀ k, ∃ p,
      (c.stepped 0 k).programs[0]? = some p ∧
      p.progress (c.stepped 0 k).machine =
        (Progress.next .standard)^[k] (.begun w n writes is) ∧
      ((Progress.next .standard)^[k] (.begun w n writes is)).Sited w n ∧
      ((c.stepped 0 k).perform (.step 0)).1 = .ok (.flag (decide (k < 2 * is.length))) := by
  have hidle : (idle (.zeros w n) .standard).Sound w n .standard Conduct.Records :=
    Sound.idle hn [] 0 (by simp)
  obtain ⟨d, hd, hsound, hnoted⟩ := hidle.writeAll hwrites
  let p : Program := { instructions := is, stepDelay := delay }
  have hp : Program.ofEntries d.machine.memory entries delay = .ok p :=
    Program.ofEntries_of_instructions his (by rwa [hsound.machine.memory.size]) delay
  have hbegun : p.progress d.machine = .begun w n writes is := by
    rw [hnoted.machine]
    rfl
  have hdriven := (hsound.imp fun _ => Conduct.Records.quiet).driven (p := p) rfl
  have hregular := hsound.regular hp
  rw [hbegun] at hdriven hregular
  rw [hnoted.programs, show (idle (.zeros w n) .standard).programs.length = 0 from rfl] at hdriven
  refine ⟨d.addProgram p, ?_, fun k => ?_⟩
  · rw [loaded, hd]
    simp only [bind, Except.bind, hp]
    rfl
  · have hk := hdriven.performAll_step k
    have hs := hregular.iterate k
    have hrecording := ((hsound.addProgram p).performAll (List.replicate k (.step 0))).conduct
    have hflag := hk.step_flag hrecording hs.sited hs.pending
      (Routine.performWithin ((d.addProgram p).stepped 0 k).bound)
    obtain ⟨q, hq, -, hprogress⟩ := hk.program
    refine ⟨q, hq, hprogress, hs.sited, ?_⟩
    have hremaining : (Progress.begun w n writes is).remaining = 2 * is.length := rfl
    rw [hs.sited.isSome_current?, hregular.sited.remaining_iterate, hremaining] at hflag
    rw [perform_step]
    refine (congrArg (Except.map Answer.flag) hflag).trans ?_
    exact congrArg (fun b => Except.ok (Answer.flag b)) (decide_eq_decide.mpr Nat.sub_pos_iff_lt)

/-- A machine with shorter words and fewer cells is the truncation of a larger one: whatever is
written to cells that both have, and whatever program without a shift to the right works with them,
after any number of steps both are at the same place, the smaller holds the low bits of what the
larger holds, and the further cells of the larger are zero. -/
theorem narrow_truncates_wide {w n w' n' : Nat} (hw : w ≤ w') (hn : 0 < n) (hn' : n ≤ n')
    {writes : List (Int × Nat)} (hwrites : ∀ x ∈ writes, x.2 < n) {entries : Value}
    {is : List Instruction} (his : Instruction.ofEntries entries = .ok is)
    (hwithin : ∀ i ∈ is, i.Within n) (delay : Value) :
    ∃ c c', loaded w n writes entries delay = .ok c ∧ loaded w' n' writes entries delay = .ok c' ∧
      ∀ k, ∃ p p', (c.stepped 0 k).programs[0]? = some p ∧
        (c'.stepped 0 k).programs[0]? = some p' ∧
        Progress.Truncates w n w' n' (p.progress (c.stepped 0 k).machine)
          (p'.progress (c'.stepped 0 k).machine) ∧
        ((c.stepped 0 k).perform (.step 0)).1 = .ok (.flag (decide (k < 2 * is.length))) ∧
        ((c'.stepped 0 k).perform (.step 0)).1 = .ok (.flag (decide (k < 2 * is.length))) := by
  obtain ⟨c, hc, hnarrow⟩ := loaded_stepped (w := w) hn hwrites his
    (fun i hi => (hwithin i hi).2) delay
  obtain ⟨c', hc', hwide⟩ := loaded_stepped (w := w') (n := n') (by omega)
    (fun x hx => (hwrites x hx).trans_le hn') his
    (fun i hi a ha => ((hwithin i hi).2 a ha).trans_le hn') delay
  obtain ⟨hbegun, hlow⟩ := Progress.low_begun hw hn hn' hwrites hwithin
  refine ⟨c, c', hc, hc', fun k => ?_⟩
  obtain ⟨p, hp, hprogress, -, hanswer⟩ := hnarrow k
  obtain ⟨p', hp', hprogress', hsited, hanswer'⟩ := hwide k
  refine ⟨p, p', hp, hp', ?_, hanswer, hanswer'⟩
  rw [hprogress, hprogress', ← hlow, ← hbegun.low_iterate]
  exact (hbegun.iterate k).truncates hsited.machine

/-- Words of three bits and of five, two cells and four, and a negative number in a cell. -/
theorem narrow_truncates_wide_complement :
    let writes : List (Int × Nat) := [(-3, 0), (21, 1)]
    let entries : Value := .list [.tuple [.text "load", .list [.int 0]],
      .tuple [.text "not", .list []], .tuple [.text "lshift", .list []],
      .tuple [.text "xor", .list [.int 1]], .tuple [.text "store", .list []]]
    ∃ c c', loaded 3 2 writes entries .none = .ok c ∧ loaded 5 4 writes entries .none = .ok c' ∧
      ∀ k, ∃ p p', (c.stepped 0 k).programs[0]? = some p ∧
        (c'.stepped 0 k).programs[0]? = some p' ∧
        Progress.Truncates 3 2 5 4 (p.progress (c.stepped 0 k).machine)
          (p'.progress (c'.stepped 0 k).machine) ∧
        ((c.stepped 0 k).perform (.step 0)).1 = .ok (.flag (decide (k < 10))) ∧
        ((c'.stepped 0 k).perform (.step 0)).1 = .ok (.flag (decide (k < 10))) := by
  intro writes entries
  have his : Instruction.ofEntries entries =
    .ok [⟨.load, some 0⟩, ⟨.not, none⟩, ⟨.lshift, none⟩, ⟨.xor, some 1⟩, ⟨.store, none⟩] := by rfl
  exact narrow_truncates_wide (by decide) (by decide) (by decide) (by decide) his
    (by simp [Instruction.Within]) .none

end Computer

end Accumulator
