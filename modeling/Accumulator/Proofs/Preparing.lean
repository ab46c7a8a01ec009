import Accumulator.CommandLine.Report
import Accumulator.Proofs.Quiet
import Accumulator.Workbench.Session

/-! What is set up before a program runs. On the command line and at the workbench a machine at rest
is written to and a program is built on it; nobody watches the machine until then, so that a write
changes nothing but the machine. -/

namespace Accumulator

theorem Quantity.positive_pos {q : Quantity} {v : Value} {k : Nat} (h : q.positive v = .ok k) :
    0 < k := by
  unfold Quantity.positive at h
  split at h
  · cases h
    omega
  · cases h

namespace Computer

/-- A machine that nobody watches. -/
def alone (m : Machine) : Computer := { machine := m }

/-- There is nothing but a sound machine yet, which has decoded nothing. -/
def Alone (w n : Nat) (c : Computer) : Prop :=
  ∃ m, m.Sound w n .standard ∧ m.isDecoded = false ∧ c = alone m

/-- A machine with a program, and a subscriber that takes note and is not registered yet. -/
def manned (m : Machine) (p : Program) : Computer :=
  { machine := m, programs := [p], subscribers := [.recorder] }

/-- The machine is sound and has decoded nothing, and the program has not begun. Its addresses are
those of cells, for which there is room. -/
structure Prepared (w n : Nat) (m : Machine) (is : List Instruction) : Prop where
  machine : m.Sound w n .standard
  idle : m.isDecoded = false
  addresses : ∀ i ∈ is, ∀ a, i.address = some a → a < n
  size : n ≤ Capacity.cells

variable {w n : Nat} {m : Machine} {c : Computer}

theorem perform_write_alone (m : Machine) (value address : Value) :
    (alone m).perform (.write value address) =
      match m.memory.write value address with
      | .error fault => (.error fault, alone m)
      | .ok memory => (.ok .nothing, alone (m.setMemory memory).refresh) := by
  have hwatched : (alone m).memoryWatchers = .dataRegister :: [] := rfl
  have hwrite : (Routine.write (Routine.performWithin (alone m).bound) value address).on (alone m) =
      _ := Routine.on_write hwatched value address
  have hmemory : (alone m).machine.memory = m.memory := rfl
  refine (Routine.on_bind_pure (fun _ => Answer.nothing) _ (alone m)).trans ?_
  rw [hwrite, hmemory]
  cases m.memory.write value address <;> rfl

theorem Alone.writeAll {d : Computer} (hc : c.Alone w n) {writes : List (Value × Value)}
    (h : c.writeAll writes = .ok d) : d.Alone w n := by
  refine foldlM_keeps (fun c x d hc h => ?_) hc h
  obtain ⟨m, hm, hidle, rfl⟩ := hc
  rw [perform_write_alone] at h
  cases hmemory : m.memory.write x.1 x.2 with
  | error fault =>
    rw [hmemory] at h
    cases h
  | ok memory =>
    rw [hmemory] at h
    obtain ⟨a, k, -, -, -, rfl⟩ := Memory.write_eq_ok.mp hmemory
    exact ⟨_, hm.stored a k, hidle, (Except.ok.inj h).symm⟩

theorem ofSizes_eq_ok {wordSize memorySize : Value}
    (h : ofSizes wordSize memorySize .standard = .ok c) :
    ∃ w n, n ≤ Capacity.cells ∧ c.Alone w n := by
  obtain ⟨memory, hmemory, hc⟩ := bind_eq_ok h
  obtain ⟨w, -, hmemory⟩ := bind_eq_ok hmemory
  obtain ⟨n, hn, hmemory⟩ := bind_eq_ok hmemory
  obtain ⟨_, -, hmemory⟩ := bind_eq_ok hmemory
  obtain ⟨_, hsize, hmemory⟩ := bind_eq_ok hmemory
  cases hmemory
  cases hc
  refine ⟨w, n, ?_, { memory := .zeros w n }, .idle (Quantity.positive_pos hn), rfl, rfl⟩
  by_contra hlarge
  simp [Memory.checkSize, hlarge] at hsize

/-- A program that is built on a machine is ready to begin. -/
theorem Prepared.ofEntries (hm : m.Sound w n .standard) (hidle : m.isDecoded = false)
    (hsize : n ≤ Capacity.cells) {entries delay : Value} {p : Program}
    (hp : Program.ofEntries m.memory entries delay = .ok p) :
    ∃ is, p = { instructions := is, stepDelay := delay } ∧ Prepared w n m is := by
  obtain ⟨heq, haddresses⟩ := Program.ofEntries_eq_ok hp
  rw [hm.memory.size] at haddresses
  exact ⟨p.instructions, heq, hm, hidle, haddresses, hsize⟩

theorem Prepared.sound {is : List Instruction} (h : Prepared w n m is) (p : Program) :
    (manned m p).Sound w n .standard Conduct.Records where
  machine := h.machine
  events _ he := nomatch he
  table := rfl
  watched := ⟨[], rfl⟩
  conduct := List.forall_mem_singleton.mpr fun _ _ => rfl

end Computer

open Computer

theorem Computer.Alone.write {w n : Nat} {c d : Computer} {entry : Option Assignment}
    (hc : c.Alone w n) (h : CommandLine.write c entry = .ok d) :
    d.Alone w n := by
  cases entry with
  | none => cases h
  | some assignment => exact hc.writeAll h

/-- What the command line sets up. -/
theorem CommandLine.setUp_eq_ok {o : Options} {c : Computer} (h : setUp o = .ok c) :
    ∃ w n m is, Prepared w n m is ∧
      c = manned m { instructions := is, stepDelay := valueOf .float o.delay } := by
  obtain ⟨c0, hc0, h⟩ := bind_eq_ok h
  obtain ⟨w, n, hsize, halone⟩ := ofSizes_eq_ok hc0
  obtain ⟨c1, hc1, h⟩ := bind_eq_ok h
  obtain ⟨m, hm, hidle, rfl⟩ := foldlM_keeps (fun _ _ _ hc => hc.write) halone hc1
  obtain ⟨source, -, h⟩ := bind_eq_ok h
  obtain ⟨_, -, h⟩ := bind_eq_ok h
  obtain ⟨p, hp, h⟩ := bind_eq_ok h
  obtain ⟨is, rfl, hprepared⟩ := Prepared.ofEntries hm hidle hsize hp
  cases h
  exact ⟨w, n, m, is, hprepared, rfl⟩

/-- What the workbench sets up: the panels watch the machine and the program. -/
theorem Workbench.Session.setUp_eq_ok {source memoryInit : String} {wordSize memorySize : Value}
    {s : Session} (h : setUp source memoryInit wordSize memorySize = .ok s) :
    ∃ w n m is, Prepared w n m is ∧
      s = watch (manned m { instructions := is, stepDelay := .float Program.defaultDelay }) := by
  obtain ⟨_, -, h⟩ := bind_eq_ok h
  obtain ⟨_, -, h⟩ := bind_eq_ok h
  obtain ⟨c0, hc0, h⟩ := bind_eq_ok h
  obtain ⟨w, n, hsize, halone⟩ := ofSizes_eq_ok hc0
  obtain ⟨_, -, h⟩ := bind_eq_ok h
  obtain ⟨c1, hc1, h⟩ := bind_eq_ok h
  obtain ⟨m, hm, hidle, rfl⟩ := halone.writeAll hc1
  obtain ⟨_, -, h⟩ := bind_eq_ok h
  obtain ⟨p, hp, h⟩ := bind_eq_ok h
  obtain ⟨is, rfl, hprepared⟩ := Prepared.ofEntries hm hidle hsize hp
  cases h
  exact ⟨w, n, m, is, hprepared, rfl⟩

end Accumulator
