import Accumulator.Assembler
import Accumulator.CommandLine.Options
import Accumulator.Proofs.Run
import Mathlib

/-! The adder pass, repeated until there are no carries, adds. A pass leaves the sum without carries
in cell 0 and the carries, each moved to its place, in cell 1; so the sum of the two cells stays the
same. With each pass the carries begin one place further to the left, and so they are gone when the
places are. -/

namespace Accumulator

theorem add_eq_xor_add_and (x y : Nat) : x + y = (x ^^^ y) + 2 * (x &&& y) := by
  induction x using Nat.strong_induction_on generalizing y with
  | _ x ih =>
    rcases Nat.eq_zero_or_pos x with rfl | hx
    · simp
    · have hhalf := ih (x / 2) (by omega) (y / 2)
      rw [← Nat.xor_div_two, ← Nat.and_div_two] at hhalf
      have hxor := @Nat.xor_mod_two_eq x y
      have hand := @Nat.and_mod_two_eq_one x y
      omega

/-- If `y` has no bit in its first `k` places, the carries have none in their first `k + 1`. -/
theorem two_pow_dvd_carries {k y : Nat} (h : 2 ^ k ∣ y) (w x : Nat) (hk : k < w) :
    2 ^ (k + 1) ∣ 2 * (x &&& y) % 2 ^ w := by
  have hand : 2 ^ k ∣ x &&& y := by
    rw [Nat.dvd_iff_mod_eq_zero] at h ⊢
    rw [Nat.and_mod_two_pow, h, Nat.and_zero]
  rw [Nat.dvd_mod_iff (pow_dvd_pow 2 hk), pow_succ']
  exact Nat.mul_dvd_mul_left 2 hand

/-- The instructions of the adder pass. -/
def adderInstructions : List Instruction :=
  [⟨.load, some 0⟩, ⟨.xor, some 1⟩, ⟨.store, some 2⟩, ⟨.load, some 0⟩, ⟨.and, some 1⟩,
    ⟨.lshift, none⟩, ⟨.store, some 1⟩, ⟨.load, some 2⟩, ⟨.store, some 0⟩]

/-- The adder pass as the command line reads it. -/
theorem parse_adderPass : Assembler.parseProgram
    (CommandLine.adderPass.map fun c => if c = ';' then '\n' else c) = .ok adderInstructions := by
  cbv

theorem Core.exec_adder (w : Nat) {s : Core} {x y z : Nat} {cells : List Nat}
    (h : s.cells = x :: y :: z :: cells) :
    (s.exec w adderInstructions).cells =
      (x ^^^ y) :: 2 * (x &&& y) % 2 ^ w :: (x ^^^ y) :: cells := by
  obtain ⟨accumulator, address, _⟩ := s
  subst h
  rfl

namespace Computer

/-- Builds a program of the adder pass on the machine, and runs it. -/
def addPass (c : Computer) : Except Fault Computer := do
  let instructions ← Assembler.parseProgram
    (CommandLine.adderPass.map fun c => if c = ';' then '\n' else c)
  let p ← Program.ofEntries c.machine.memory (.list (instructions.map .instruction))
    (.float Program.defaultDelay)
  match (c.addProgram p).perform (.run c.programs.length) with
  | (.ok _, d) => return d
  | (.error fault, _) => throw fault

/-- Makes passes while cell 1 is not zero, but no more than `limit`; answers how many it made, and
the computer after them. -/
def addUp (limit : Nat) (c : Computer) : Except Fault (Nat × Computer) :=
  if c.machine.memory.cell 1 = 0 then .ok (0, c)
  else
    match limit with
    | 0 => .error .runTooLong
    | limit + 1 => do
      let (passes, d) ← addUp limit (← c.addPass)
      return (passes + 1, d)

variable {w n : Nat} {c : Computer}

/-- A pass succeeds, and leaves the sum without carries, the carries and the cells behind cell 2. -/
theorem Sound.addPass (hn : 3 ≤ n) (h : c.Sound w n .standard Conduct.Records) :
    ∃ d, c.addPass = .ok d ∧ d.Sound w n .standard Conduct.Records ∧
      d.machine.memory.cell 0 = c.machine.memory.cell 0 ^^^ c.machine.memory.cell 1 ∧
      d.machine.memory.cell 1 =
        2 * (c.machine.memory.cell 0 &&& c.machine.memory.cell 1) % 2 ^ w ∧
      ∀ a, 3 ≤ a → d.machine.memory.cell a = c.machine.memory.cell a := by
  have hsize : c.machine.memory.size = n := h.machine.memory.size
  let p : Program := { instructions := adderInstructions, stepDelay := .float Program.defaultDelay }
  have hp : Program.ofEntries c.machine.memory (.list (adderInstructions.map .instruction))
      (.float Program.defaultDelay) = .ok p := by
    refine Program.ofEntries_instructions (fun i hi a ha => ?_) _
    have : a < 3 := by
      revert i a
      decide
    omega
  have hquiet := h.imp fun react => Conduct.Records.quiet
  obtain ⟨q, r, hq, -, -, hruns⟩ :=
    (hquiet.driven (p := p) rfl).runs (h.addProgram p) (h.regular hp)
  obtain rfl : p = q := Option.some.inj (List.getElem?_concat_length.symm.trans hq)
  have hpass : c.addPass = .ok ((c.addProgram p).perform (.run c.programs.length)).2 := by
    simp only [Computer.addPass, parse_adderPass, bind, Except.bind, hp]
    rw [← Prod.eta ((c.addProgram p).perform (.run c.programs.length)), hruns.answer]
    rfl
  have hlength : 3 ≤ c.machine.memory.cells.length := by
    show 3 ≤ c.machine.memory.size
    omega
  obtain ⟨x, y, z, cells, hcells⟩ :
      ∃ x y z cells, c.machine.memory.cells = x :: y :: z :: cells := by
    match c.machine.memory.cells, hlength with
    | x :: y :: z :: cells, _ => exact ⟨x, y, z, cells, rfl⟩
  have hafter := (congrArg Core.cells hruns.core).trans (Core.exec_adder w hcells)
  have hcell (a : Nat) := congrArg (fun cells => cells.getD a 0) hafter
  refine ⟨_, hpass, (h.addProgram p).perform _, (hcell 0).trans ?_, (hcell 1).trans ?_,
    fun a ha => (hcell a).trans ?_⟩
  · simp [Memory.cell, hcells]
  · simp [Memory.cell, hcells]
  · obtain ⟨b, rfl⟩ := Nat.exists_eq_add_of_le' ha
    simp [Memory.cell, hcells]

theorem sum_pass (w x y : Nat) :
    ((x ^^^ y) + 2 * (x &&& y) % 2 ^ w) % 2 ^ w = (x + y) % 2 ^ w := by
  rw [Nat.add_mod_mod, ← add_eq_xor_add_and]

/-- As long as there are carries, they begin further to the left with each pass: when they begin at
place `k`, the places that are left are passes enough. -/
theorem Sound.addUp (hn : 3 ≤ n) (h : c.Sound w n .standard Conduct.Records) {limit k : Nat}
    (hdvd : 2 ^ k ∣ c.machine.memory.cell 1) (hk : k + limit = w) :
    ∃ passes d, c.addUp limit = .ok (passes, d) ∧ passes ≤ limit ∧
      d.machine.memory.cell 0 =
        (c.machine.memory.cell 0 + c.machine.memory.cell 1) % 2 ^ w ∧
      d.machine.memory.cell 1 = 0 ∧
      ∀ a, 3 ≤ a → d.machine.memory.cell a = c.machine.memory.cell a := by
  have hlt := h.machine.memory.cell_lt
  induction limit generalizing c k with
  | zero =>
    -- The carries are a multiple of `2 ^ w` and smaller than that.
    obtain rfl : k = w := hk
    have hzero : c.machine.memory.cell 1 = 0 := Nat.eq_zero_of_dvd_of_lt hdvd (hlt 1)
    refine ⟨0, c, by rw [Computer.addUp, if_pos hzero], le_rfl, ?_, hzero, fun _ _ => rfl⟩
    rw [hzero, Nat.add_zero, Nat.mod_eq_of_lt (hlt 0)]
  | succ limit ih =>
    by_cases hzero : c.machine.memory.cell 1 = 0
    · refine ⟨0, c, by rw [Computer.addUp, if_pos hzero], Nat.zero_le _, ?_, hzero, fun _ _ => rfl⟩
      rw [hzero, Nat.add_zero, Nat.mod_eq_of_lt (hlt 0)]
    · obtain ⟨d, hpass, hd, hd0, hd1, hdcells⟩ := h.addPass hn
      have hnext : 2 ^ (k + 1) ∣ d.machine.memory.cell 1 := by
        rw [hd1]
        exact two_pow_dvd_carries hdvd w _ (by omega)
      obtain ⟨passes, e, hon, hle, he0, he1, hecells⟩ :=
        ih hd hnext (by omega) hd.machine.memory.cell_lt
      refine ⟨passes + 1, e, ?_, by omega, ?_, he1, fun a ha => (hecells a ha).trans (hdcells a ha)⟩
      · rw [Computer.addUp, if_neg hzero]
        simp only [hpass, bind, Except.bind, hon]
        rfl
      · rw [he0, hd0, hd1, sum_pass]

/-- On any sound machine with the standard table, and so on any that can be reached, passes made
until there are no carries leave the sum of the first two cells in cell 0, and there are no more of
them than a word has bits. Each pass keeps the sum, and no cell behind cell 2 changes. -/
theorem addUp_adds (hn : 3 ≤ n) (h : c.Sound w n .standard Conduct.Records) :
    (∃ passes d, c.addUp w = .ok (passes, d) ∧ passes ≤ w ∧
      d.machine.memory.cell 0 = (c.machine.memory.cell 0 + c.machine.memory.cell 1) % 2 ^ w ∧
      d.machine.memory.cell 1 = 0 ∧
      ∀ a, 3 ≤ a → d.machine.memory.cell a = c.machine.memory.cell a) ∧
    ∃ d, c.addPass = .ok d ∧
      (d.machine.memory.cell 0 + d.machine.memory.cell 1) % 2 ^ w =
        (c.machine.memory.cell 0 + c.machine.memory.cell 1) % 2 ^ w ∧
      ∀ a, 3 ≤ a → d.machine.memory.cell a = c.machine.memory.cell a := by
  obtain ⟨d, hpass, -, hd0, hd1, hdcells⟩ := h.addPass hn
  refine ⟨h.addUp hn (one_dvd _) (Nat.zero_add w), d, hpass, ?_, hdcells⟩
  rw [hd0, hd1, sum_pass]

/-- Four bits: eleven and seven, where the sum is cut to a word. -/
theorem addUp_adds_wrapped :
    let c := (idle (.zeros 4 4) .standard).performAll
      [.write (.int 11) (.int 0), .write (.int 7) (.int 1), .write (.int 5) (.int 3)]
    ∃ passes d, c.addUp 4 = .ok (passes, d) ∧ passes ≤ 4 ∧ d.machine.memory.cell 0 = 2 ∧
      d.machine.memory.cell 1 = 0 ∧ d.machine.memory.cell 3 = 5 := by
  have hsound : (idle (.zeros 4 4) .standard).Sound 4 4 .standard Conduct.Records :=
    Sound.idle (by decide) [] 0 fun _ hs => nomatch hs
  obtain ⟨⟨passes, d, hon, hle, h0, h1, hcells⟩, -⟩ :=
    addUp_adds (by decide) (hsound.performAll [.write (.int 11) (.int 0),
      .write (.int 7) (.int 1), .write (.int 5) (.int 3)])
  exact ⟨passes, d, hon, hle, h0, h1, hcells 3 le_rfl⟩

end Computer

end Accumulator
