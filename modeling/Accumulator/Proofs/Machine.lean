import Accumulator.Dispatch
import Accumulator.Program
import Accumulator.Proofs.Outcome
import Accumulator.Proofs.Word

/-! What always holds of a machine. Its accumulator and its cells are words, the address register
selects a cell and the data register shows that cell, and what is pending is the operation of the
instruction register. Each change that the machine makes in one go keeps this. -/

namespace Accumulator

/-- The cells are words of `w` bits, and there are `n` of them. -/
structure Memory.Sound (w n : Nat) (m : Memory) : Prop where
  wordSize : m.wordSize = w
  size : m.size = n
  cells : ∀ v ∈ m.cells, v < 2 ^ w

/-- The memory is sound and the registers agree with it, with each other and with the table. -/
structure Machine.Sound (w n : Nat) (t : Dispatch) (m : Machine) : Prop where
  memory : m.memory.Sound w n
  accumulator : m.registers.accumulator < 2 ^ w
  address : m.registers.address < n
  data : m.registers.data = m.memory.cell m.registers.address
  pending : ∀ op, m.registers.pending = some op →
    m.registers.instruction.map Instruction.operation = some op ∧ t.contains op = true
  selected : ∀ i a, m.registers.instruction = some i → i.address = some a →
    m.registers.address = a

namespace Memory

variable {m : Memory} {w n : Nat}

theorem address_natCast (m : Memory) (a : Nat) :
    m.address (.int a) = if a < m.size then .ok a else .error (.badAddress (.int a) m.size) := rfl

@[simp] theorem set_size (m : Memory) (a : Nat) (k : Int) : (m.set a k).size = m.size := by
  simp [size, set]

/-- What is written is an integer, and it is written to a cell. -/
theorem write_eq_ok {value a : Value} {after : Memory} :
    m.write value a = .ok after ↔
      ∃ (x : Nat) (k : Int), value = .int k ∧ a = .int x ∧ x < m.size ∧ after = m.set x k := by
  constructor
  · intro h
    obtain ⟨x, address, valued⟩ := bind_eq_ok h
    obtain ⟨k, integer, written⟩ := bind_eq_ok valued
    obtain ⟨rfl, inside⟩ : a = .int x ∧ x < m.size := by
      unfold Memory.address at address
      split at address
      · split at address
        · cases address
          exact ⟨rfl, ‹_›⟩
        · cases address
      · cases address
    obtain rfl : value = .int k := by
      unfold Quantity.integer at integer
      split at integer <;> cases integer
      rfl
    cases written
    exact ⟨x, k, rfl, rfl, inside, rfl⟩
  · rintro ⟨x, k, rfl, rfl, inside, rfl⟩
    simp [write, address_natCast, inside, Quantity.integer, bind, Except.bind, pure, Except.pure]

theorem write_natCast {a : Nat} (h : a < m.size) (k : Nat) :
    m.write (.int k) (.int a) = .ok (m.set a k) :=
  write_eq_ok.mpr ⟨a, k, rfl, rfl, h, rfl⟩

theorem cell_zeros (width size a : Nat) : (zeros width size).cell a = 0 := by
  rw [cell, zeros, List.getD_eq_getElem?_getD, List.getElem?_replicate]
  split <;> rfl

theorem cell_set_of_ne {a b : Nat} (h : a ≠ b) (k : Int) : (m.set a k).cell b = m.cell b := by
  simp [cell, set, List.getD_eq_getElem?_getD, h]

theorem cell_set_self {a : Nat} (h : a < m.size) (k : Int) :
    (m.set a k).cell a = Word.lowBits m.wordSize k := by
  have inside : a < m.cells.length := h
  simp [cell, set, List.getD_eq_getElem?_getD, inside]

theorem Sound.zeros (w n : Nat) : (zeros w n).Sound w n where
  wordSize := rfl
  size := List.length_replicate
  cells v hv := by
    rw [List.eq_of_mem_replicate hv]
    exact Nat.two_pow_pos w

theorem Sound.cell_lt (h : m.Sound w n) (a : Nat) : m.cell a < 2 ^ w := by
  rw [cell, List.getD_eq_getElem?_getD]
  rcases hv : m.cells[a]? with _ | v
  · exact Nat.two_pow_pos w
  · exact h.cells v (List.mem_of_getElem? hv)

theorem Sound.set (h : m.Sound w n) (a : Nat) (k : Int) : (m.set a k).Sound w n where
  wordSize := h.wordSize
  size := by rw [set_size, h.size]
  cells v hv := by
    rcases List.mem_or_eq_of_mem_set hv with hv | rfl
    · exact h.cells v hv
    · rw [h.wordSize]
      exact Word.lowBits_lt w k

end Memory

/-- The addresses of the instructions that pass the check are those of cells. -/
theorem Program.checkAddress_eq_ok {m : Memory} {i : Instruction} :
    Program.checkAddress m i = .ok () ↔ ∀ a, i.address = some a → a < m.size := by
  unfold Program.checkAddress
  split
  · rename_i h
    simp [h]
  · rename_i a h
    rw [Memory.address_natCast]
    by_cases ha : a < m.size <;> simp [h, Except.map, ha]

theorem Program.ofEntries_eq_ok {m : Memory} {entries delay : Value} {p : Program}
    (h : Program.ofEntries m entries delay = .ok p) :
    p = { instructions := p.instructions, stepDelay := delay } ∧
      ∀ i ∈ p.instructions, ∀ a, i.address = some a → a < m.size := by
  simp only [Program.ofEntries, bind, Except.bind, pure, Except.pure] at h
  split at h
  · cases h
  · rename_i instructions _
    split at h
    · cases h
    · rename_i hcheck
      cases h
      exact ⟨rfl, fun i hi => Program.checkAddress_eq_ok.mp (forM_eq_ok.mp hcheck i hi)⟩

theorem Instruction.ofEntries_instructions (is : List Instruction) :
    Instruction.ofEntries (.list (is.map .instruction)) = .ok is := by
  show List.mapM Instruction.ofEntry (is.map .instruction) = .ok is
  induction is with
  | nil => rfl
  | cons i is ih =>
    rw [List.map_cons, List.mapM_cons, ih]
    rfl

theorem Program.ofEntries_of_instructions {m : Memory} {entries : Value} {is : List Instruction}
    (his : Instruction.ofEntries entries = .ok is)
    (h : ∀ i ∈ is, ∀ a, i.address = some a → a < m.size) (delay : Value) :
    Program.ofEntries m entries delay = .ok { instructions := is, stepDelay := delay } := by
  have hcheck : is.forM (Program.checkAddress m) = .ok ⟨⟩ :=
    forM_eq_ok.mpr fun i hi => Program.checkAddress_eq_ok.mpr (h i hi)
  simp only [Program.ofEntries, his, bind, Except.bind, hcheck]
  rfl

theorem Program.ofEntries_instructions {m : Memory} {is : List Instruction}
    (h : ∀ i ∈ is, ∀ a, i.address = some a → a < m.size) (delay : Value) :
    Program.ofEntries m (.list (is.map .instruction)) delay =
      .ok { instructions := is, stepDelay := delay } :=
  ofEntries_of_instructions (Instruction.ofEntries_instructions is) h delay

theorem Program.position_le {p : Program} {v : Value} {n : Nat} (h : p.position v = .ok n) :
    n ≤ p.length := by
  unfold Program.position at h
  split at h
  · split at h
    · cases h
      assumption
    · cases h
  · cases h

namespace Machine

variable {m : Machine} {w n : Nat} {t : Dispatch}

/-- The machine after its circuits have performed an operation. -/
def operated (m : Machine) : Operation → Machine
  | .store => (m.setMemory (m.memory.set m.registers.address m.registers.accumulator)).refresh
  | circuit => m.setAccumulator (m.result circuit)

/-- The machine after what is pending has been executed as a table has it. -/
def executed (t : Dispatch) (m : Machine) : Machine :=
  match m.registers.pending with
  | none => m
  | some op =>
    match t.lookup op with
    | some circuit => m.consume.operated circuit
    | none => m.consume

/-- The machine can decode an instruction: the table has an entry for its operation, and its address
is that of a cell. -/
def Accepts (t : Dispatch) (m : Machine) (i : Instruction) : Prop :=
  t.contains i.operation = true ∧ ∀ a, i.address = some a → a < m.memory.size

instance (t : Dispatch) (m : Machine) (i : Instruction) : Decidable (m.Accepts t i) :=
  inferInstanceAs (Decidable (_ ∧ ∀ a ∈ i.address, a < m.memory.size))

@[simp] theorem setAccumulator_accumulator (m : Machine) (k : Nat) :
    (m.setAccumulator k).registers.accumulator = k % 2 ^ m.memory.wordSize := Word.and_mask _ k

@[simp] theorem operated_pending (m : Machine) (circuit : Operation) :
    (m.operated circuit).registers.pending = m.registers.pending := by
  cases circuit <;> rfl

@[simp] theorem operated_instruction (m : Machine) (circuit : Operation) :
    (m.operated circuit).registers.instruction = m.registers.instruction := by
  cases circuit <;> rfl

theorem holds_iff {i : Instruction} :
    m.holds i = true ↔ m.isDecoded = true ∧ m.registers.instruction = some i := by
  simp [holds]

theorem decoded_holds (m : Machine) (i : Instruction) : (m.decoded i).holds i = true :=
  holds_iff.mpr ⟨rfl, rfl⟩

/-- What a machine holds depends on nothing but the instruction register and what is pending. -/
theorem holds_congr {m' : Machine} (hinstruction : m'.registers.instruction =
    m.registers.instruction) (hpending : m'.registers.pending = m.registers.pending) :
    m'.holds = m.holds := by
  funext i
  rw [holds, holds, isDecoded, isDecoded, hinstruction, hpending]

/-- The address register selects one of the cells. -/
theorem Sound.address_lt (h : m.Sound w n t) : m.registers.address < m.memory.size := by
  rw [h.memory.size]
  exact h.address

/-- What a sound machine holds is pending. -/
theorem Sound.pending_of_holds (h : m.Sound w n t) {i : Instruction} (hi : m.holds i = true) :
    m.registers.instruction = some i ∧ m.registers.pending = some i.operation := by
  obtain ⟨hdecoded, hheld⟩ := holds_iff.mp hi
  obtain ⟨op, hop⟩ := Option.isSome_iff_exists.mp hdecoded
  obtain ⟨hoperation, -⟩ := h.pending op hop
  rw [hheld] at hoperation
  exact ⟨hheld, hop.trans hoperation.symm⟩

theorem executed_idle (h : m.isDecoded = false) : m.executed t = m := by
  have hnone : m.registers.pending = none := by simpa [isDecoded] using h
  rw [executed, hnone]

theorem executed_isDecoded (t : Dispatch) (m : Machine) : (m.executed t).isDecoded = false := by
  unfold executed
  split
  · rename_i h
    simp [isDecoded, h]
  · split <;> simp [isDecoded, consume]

theorem Sound.idle (h : 0 < n) : Sound w n t { memory := .zeros w n } where
  memory := .zeros w n
  accumulator := Nat.two_pow_pos w
  address := h
  data := by simp [Memory.cell, Memory.zeros, h]
  pending _ hop := nomatch hop
  selected _ _ hi := nomatch hi

theorem Sound.setAccumulator (h : m.Sound w n t) (k : Nat) : (m.setAccumulator k).Sound w n t where
  memory := h.memory
  accumulator := by
    rw [setAccumulator_accumulator, h.memory.wordSize]
    exact Nat.mod_lt _ (Nat.two_pow_pos w)
  address := h.address
  data := h.data
  pending := h.pending
  selected := h.selected

/-- A cell may change if the data register is refreshed before anyone looks. -/
theorem Sound.stored (h : m.Sound w n t) (a : Nat) (k : Int) :
    ((m.setMemory (m.memory.set a k)).refresh).Sound w n t where
  memory := h.memory.set a k
  accumulator := h.accumulator
  address := h.address
  data := rfl
  pending := h.pending
  selected := h.selected

theorem Sound.refresh (h : m.Sound w n t) : m.refresh = m := by
  rw [Machine.refresh, ← h.data]

theorem Sound.consume (h : m.Sound w n t) : m.consume.Sound w n t where
  memory := h.memory
  accumulator := h.accumulator
  address := h.address
  data := h.data
  pending _ hop := nomatch hop
  selected := h.selected

theorem Sound.decoded (h : m.Sound w n t) {i : Instruction} (hi : m.Accepts t i) :
    (m.decoded i).Sound w n t where
  memory := h.memory
  accumulator := h.accumulator
  address := by
    have hsize := h.memory.size
    cases ha : i.address with
    | none =>
      simp only [Machine.decoded, ha, Option.getD_none]
      exact h.address
    | some a =>
      have := hi.2 a ha
      simp only [Machine.decoded, ha, Option.getD_some]
      omega
  data := rfl
  pending op hop := by
    obtain rfl : i.operation = op := Option.some.inj hop
    exact ⟨rfl, hi.1⟩
  selected j a hj ha := by
    obtain rfl : i = j := Option.some.inj hj
    simp [Machine.decoded, ha]

/-- What a sound machine holds it has accepted. -/
theorem Sound.accepts (h : m.Sound w n t) {i : Instruction} (hholds : m.holds i = true) :
    m.Accepts t i := by
  obtain ⟨hdecoded, hinstruction⟩ := holds_iff.mp hholds
  obtain ⟨op, hop⟩ := Option.isSome_iff_exists.mp hdecoded
  obtain ⟨hoperation, hcontains⟩ := h.pending op hop
  rw [hinstruction] at hoperation
  refine ⟨?_, fun a ha => ?_⟩
  · rw [Option.some.inj hoperation]
    exact hcontains
  · rw [h.memory.size, ← h.selected i a hinstruction ha]
    exact h.address

theorem Sound.operated (h : m.Sound w n t) (circuit : Operation) :
    (m.operated circuit).Sound w n t := by
  cases circuit with
  | store => exact h.stored _ _
  | _ => exact h.setAccumulator _

theorem Sound.executed (h : m.Sound w n t) : (m.executed t).Sound w n t := by
  unfold Machine.executed
  split
  · exact h
  · split
    · exact h.consume.operated _
    · exact h.consume

end Machine

end Accumulator
