import Accumulator.Proofs.Machine
import Accumulator.Proofs.Stepping

/-! The instruction set by itself. Its semantics knows the accumulator, the selected address and the
cells, and goes through a list of instructions from left to right. Decoding and executing an
instruction on a sound machine is one step of it, and a program that makes progress leaves its
outcome as it is. -/

namespace Accumulator

/-- What the instructions work on: the accumulator, the selected address and the cells. -/
structure Core where
  accumulator : Nat
  address : Nat
  cells : List Nat
deriving DecidableEq, Repr

namespace Core

def data (s : Core) : Nat := s.cells.getD s.address 0

/-- Selects an address, if there is one to select. -/
def select (s : Core) (address : Option Nat) : Core := { s with address := address.getD s.address }

/-- The effect of an operation where words have `w` bits. -/
def apply (w : Nat) (s : Core) : Operation → Core
  | .or => { s with accumulator := s.accumulator ||| s.data }
  | .and => { s with accumulator := s.accumulator &&& s.data }
  | .xor => { s with accumulator := s.accumulator ^^^ s.data }
  | .not => { s with accumulator := 2 ^ w - 1 - s.accumulator }
  | .lshift => { s with accumulator := 2 * s.accumulator % 2 ^ w }
  | .rshift => { s with accumulator := s.accumulator / 2 }
  | .load => { s with accumulator := s.data }
  | .store => { s with cells := s.cells.set s.address s.accumulator }

def step (w : Nat) (s : Core) (i : Instruction) : Core := (s.select i.address).apply w i.operation

def exec (w : Nat) (s : Core) (is : List Instruction) : Core := is.foldl (step w) s

theorem exec_cons (w : Nat) (s : Core) (i : Instruction) (is : List Instruction) :
    s.exec w (i :: is) = (s.step w i).exec w is := rfl

theorem select_select (s : Core) (address : Option Nat) :
    (s.select address).select address = s.select address := by
  cases address <;> rfl

theorem step_select (w : Nat) (s : Core) (i : Instruction) :
    (s.select i.address).step w i = s.step w i := by
  rw [step, select_select, step]

end Core

namespace Machine

variable {m : Machine} {w n : Nat} {t : Dispatch} {i : Instruction}

def core (m : Machine) : Core where
  accumulator := m.registers.accumulator
  address := m.registers.address
  cells := m.memory.cells

theorem core_setAccumulator (hw : m.memory.wordSize = w) {k : Nat} (hk : k < 2 ^ w) :
    (m.setAccumulator k).core = { m.core with accumulator := k } := by
  have haccumulator : (m.setAccumulator k).registers.accumulator = k := by
    rw [setAccumulator_accumulator, hw, Nat.mod_eq_of_lt hk]
  rw [core, haccumulator]
  rfl

theorem Sound.core_data (h : m.Sound w n t) : m.core.data = m.registers.data := h.data.symm

theorem Sound.data_lt (h : m.Sound w n t) : m.registers.data < 2 ^ w := by
  rw [h.data]
  exact h.memory.cell_lt _

theorem Sound.accumulatorWord_value (h : m.Sound w n t) :
    m.accumulatorWord.value = m.registers.accumulator := by
  rw [accumulatorWord, Word.truncate_value, wordSize, h.memory.wordSize,
    Nat.mod_eq_of_lt h.accumulator]

theorem Sound.dataWord_value (h : m.Sound w n t) : m.dataWord.value = m.registers.data := by
  rw [dataWord, Word.truncate_value, wordSize, h.memory.wordSize, Nat.mod_eq_of_lt h.data_lt]

theorem Sound.apply_lt (h : m.Sound w n t) (op : Operation) :
    (m.core.apply w op).accumulator < 2 ^ w := by
  have haccumulator : m.core.accumulator < 2 ^ w := h.accumulator
  have hdata : m.core.data < 2 ^ w := h.core_data ▸ h.data_lt
  have hpos := Nat.two_pow_pos w
  cases op with
  | or => exact Nat.or_lt_two_pow haccumulator hdata
  | and => exact Nat.and_lt_two_pow _ hdata
  | xor => exact Nat.xor_lt_two_pow haccumulator hdata
  | not =>
    simp only [Core.apply]
    omega
  | lshift => exact Nat.mod_lt _ hpos
  | rshift =>
    simp only [Core.apply]
    omega
  | load => exact hdata
  | store => exact haccumulator

/-- The circuits compute what the operation says. -/
theorem Sound.result_eq (h : m.Sound w n t) (op : Operation) :
    m.result op = (m.core.apply w op).accumulator := by
  have hlt := h.apply_lt op
  have hacc := h.accumulatorWord_value
  have hwidth : m.accumulatorWord.width = w := h.memory.wordSize
  have hdata := h.dataWord_value.trans h.core_data.symm
  cases op with
  | or => rw [result, Word.or_value, hacc, hdata, hwidth]; exact Nat.mod_eq_of_lt hlt
  | and => rw [result, Word.and_value, hacc, hdata, hwidth]; exact Nat.mod_eq_of_lt hlt
  | xor => rw [result, Word.xor_value, hacc, hdata, hwidth]; exact Nat.mod_eq_of_lt hlt
  | not =>
    have haccumulator : m.accumulatorWord.value < 2 ^ m.accumulatorWord.width := by
      rw [hacc, hwidth]
      exact h.accumulator
    rw [result, Word.complement_value _ haccumulator, hacc, hwidth]
    rfl
  | lshift =>
    rw [result, Word.shiftLeft_value, hacc, hwidth, pow_one, Nat.mul_comm]
    rfl
  | rshift =>
    rw [result, Word.shiftRight_value, hacc, hwidth, pow_one]
    exact Nat.mod_eq_of_lt hlt
  | load => exact h.core_data.symm
  | store => rfl

theorem Sound.core_operated (h : m.Sound w n t) (op : Operation) :
    (m.operated op).core = m.core.apply w op := by
  cases op with
  | store =>
    have hbits : Word.lowBits m.memory.wordSize m.registers.accumulator =
        m.registers.accumulator := by
      rw [Word.lowBits_natCast, h.memory.wordSize, Nat.mod_eq_of_lt h.accumulator]
    show Core.mk _ _ (m.memory.cells.set m.registers.address (Word.lowBits _ _)) = _
    rw [hbits]
    rfl
  | _ =>
    exact (core_setAccumulator h.memory.wordSize (h.result_eq _ ▸ h.apply_lt _)).trans
      (congrArg (Core.mk · _ _) (h.result_eq _))

@[simp] theorem lookup_standard (op : Operation) : Dispatch.standard.lookup op = some op := by
  cases op <;> decide

theorem contains_standard (op : Operation) : Dispatch.standard.contains op = true := by
  rw [Dispatch.contains, lookup_standard]
  rfl

theorem Sound.core_select (h : m.Sound w n t) (hi : m.holds i = true) :
    m.core.select i.address = m.core := by
  obtain ⟨-, hinstruction⟩ := holds_iff.mp hi
  cases ha : i.address with
  | none => rfl
  | some a =>
    rw [← h.selected i a hinstruction ha]
    rfl

/-- To execute the instruction that a sound machine holds is a step. -/
theorem Sound.core_executed (h : m.Sound w n .standard) (hi : m.holds i = true) :
    (m.executed .standard).core = m.core.step w i := by
  have hstep : m.core.step w i = m.core.apply w i.operation := by
    rw [Core.step, h.core_select hi]
  obtain ⟨hdecoded, hinstruction⟩ := holds_iff.mp hi
  obtain ⟨op, hop⟩ := Option.isSome_iff_exists.mp hdecoded
  obtain ⟨hoperation, -⟩ := h.pending op hop
  rw [hinstruction] at hoperation
  obtain rfl : i.operation = op := Option.some.inj hoperation
  have hexecuted : m.executed .standard = m.consume.operated i.operation := by
    simp only [Machine.executed, hop, lookup_standard]
  rw [hexecuted, h.consume.core_operated, hstep]
  rfl

end Machine

/-- Entries of a trace tell how a list of instructions was gone through from here: they are numbered
from `k` on and their counters from `c` on, there is one for each instruction, and each shows the
machine first with the instruction decoded and then at rest after it. -/
def Core.Explains (w : Nat) (s : Core) (k c : Nat) : List Instruction → List TraceEntry → Prop
  | [], es => es = []
  | _ :: _, [] => False
  | i :: is, e :: es =>
    (e.step = k ∧ e.counter = c ∧ e.instruction = i ∧
      e.pre.holds i = true ∧ e.pre.core = s.select i.address ∧
      e.post.isDecoded = false ∧ e.post.core = s.step w i) ∧
    Explains w (s.step w i) (k + 1) (c + 1) is es

theorem Core.Explains.of_select {w k c : Nat} {s : Core} {i : Instruction} {is : List Instruction}
    {es : List TraceEntry} (h : Explains w (s.select i.address) k c (i :: is) es) :
    Explains w s k c (i :: is) es := by
  cases es with
  | nil => exact h
  | cons e es => simpa only [Explains, select_select, step_select] using h

end Accumulator
