import Accumulator.Word
import Mathlib.Data.Nat.Bitwise

/-! Words as numbers. Truncation is the remainder modulo a power of two, and every operation on
words is an operation on numbers followed by that remainder. -/

namespace Accumulator.Word

variable (a b : Word) (width n : Nat)

theorem mask_eq : mask width = 2 ^ width - 1 := by
  rw [mask, Nat.one_shiftLeft]

theorem and_mask : n &&& mask width = n % 2 ^ width := by
  rw [mask_eq, Nat.and_two_pow_sub_one_eq_mod]

@[simp] theorem truncate_value : (truncate width n).value = n % 2 ^ width := and_mask width n

@[simp] theorem truncate_width : (truncate width n).width = width := rfl

theorem truncate_congr {width j k : Nat} (h : j % 2 ^ width = k % 2 ^ width) :
    truncate width j = truncate width k := by
  rw [truncate, truncate, and_mask, and_mask, h]

@[simp] theorem and_value : (a.and b).value = (a.value &&& b.value) % 2 ^ a.width :=
  truncate_value _ _

@[simp] theorem or_value : (a.or b).value = (a.value ||| b.value) % 2 ^ a.width :=
  truncate_value _ _

@[simp] theorem xor_value : (a.xor b).value = (a.value ^^^ b.value) % 2 ^ a.width :=
  truncate_value _ _

/-- Moving a word beyond its width leaves nothing, as the remainder does. -/
@[simp] theorem shiftLeft_value : (a.shiftLeft n).value = a.value * 2 ^ n % 2 ^ a.width := by
  unfold shiftLeft
  split
  · rename_i h
    have hdvd : 2 ^ a.width ∣ a.value * 2 ^ n := Dvd.dvd.mul_left (pow_dvd_pow 2 h) _
    rw [truncate_value, Nat.zero_mod, Nat.mod_eq_zero_of_dvd hdvd]
  · rw [truncate_value, Nat.shiftLeft_eq]

theorem shiftLeft_eq : a.shiftLeft n = truncate a.width (a.value * 2 ^ n) := by
  have hvalue := a.shiftLeft_value n
  have hwidth : (a.shiftLeft n).width = a.width := by
    unfold shiftLeft
    split <;> rfl
  rw [← truncate_value] at hvalue
  exact congrArg₂ Word.mk hvalue hwidth

@[simp] theorem shiftRight_value : (a.shiftRight n).value = a.value / 2 ^ n % 2 ^ a.width := by
  rw [shiftRight, truncate_value, Nat.shiftRight_eq_div_pow]

theorem complement_value (h : a.value < 2 ^ a.width) :
    a.complement.value = 2 ^ a.width - 1 - a.value := by
  have hsub : 2 ^ a.width - 1 - a.value = 2 ^ a.width - (a.value + 1) := by omega
  rw [complement, truncate_value, mask_eq, hsub]
  apply Nat.eq_of_testBit_eq
  intro i
  rw [Nat.testBit_mod_two_pow, Nat.testBit_xor, Nat.testBit_two_pow_sub_one,
    Nat.testBit_two_pow_sub_succ h]
  by_cases hi : i < a.width <;> simp [hi]

/-- The low bits of an integer are its remainder that is not negative. -/
theorem natCast_lowBits (k : Int) : (lowBits width k : Int) = k % (2 ^ width : Nat) := by
  have hpos : ((2 ^ width : Nat) : Int) ≠ 0 :=
    Int.natCast_ne_zero.mpr (Nat.two_pow_pos width).ne'
  rw [lowBits, Nat.one_shiftLeft, Int.toNat_of_nonneg (Int.emod_nonneg k hpos)]

theorem lowBits_lt (k : Int) : lowBits width k < 2 ^ width := by
  rw [← Int.ofNat_lt, natCast_lowBits]
  exact Int.emod_lt_of_pos k (Int.natCast_pos.mpr (Nat.two_pow_pos width))

@[simp] theorem lowBits_natCast : lowBits width (n : Int) = n % 2 ^ width := by
  rw [lowBits, Nat.one_shiftLeft, ← Int.natCast_emod, Int.toNat_natCast]

end Accumulator.Word
