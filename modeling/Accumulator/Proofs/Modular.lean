import Accumulator.Proofs.Word
import Accumulator.Word.Operand
import Mathlib

/-! Words as remainders. A word of `w` bits holds the remainder of a number modulo `2 ^ w`, and to
work on words comes to the same as to work on the numbers and to take the remainder at the end. The
laws of logic and of shifting hold of words for the same reason. -/

namespace Accumulator.Word

/-- The word holds no bit beyond its width. -/
def Fits (a : Word) : Prop := a.value < 2 ^ a.width

theorem fits_truncate (w u : Nat) : (truncate w u).Fits := by
  rw [Fits, truncate_value]
  exact Nat.mod_lt _ (Nat.two_pow_pos w)

/-- Words of one width are the same if their bits are. -/
theorem eq_of_testBit {a b : Word} (hwidth : a.width = b.width)
    (h : ∀ i, a.value.testBit i = b.value.testBit i) : a = b :=
  congrArg₂ Word.mk (Nat.eq_of_testBit_eq h) hwidth

/-! ### Logic -/

variable (w u v : Nat)

theorem and_truncate : (truncate w u).and (truncate w v) = truncate w (u &&& v) :=
  truncate_congr (by simp [Nat.and_mod_two_pow])

theorem or_truncate : (truncate w u).or (truncate w v) = truncate w (u ||| v) :=
  truncate_congr (by simp [Nat.or_mod_two_pow])

theorem xor_truncate : (truncate w u).xor (truncate w v) = truncate w (u ^^^ v) :=
  truncate_congr (by simp [Nat.xor_mod_two_pow])

variable {a b : Word}

/-- The complement is what is left of the complement of an integer, which has no end on the left. -/
theorem Fits.complement_eq_lowBits (h : a.Fits) :
    a.complement.value = lowBits a.width (~~~(a.value : Int)) := by
  have hnot : ~~~(a.value : Int) = Int.negSucc a.value := rfl
  have hlt : (a.value : Int) < (2 ^ a.width : Nat) := Int.ofNat_lt.mpr h
  rw [complement_value a h, lowBits, hnot, Nat.one_shiftLeft,
    Int.negSucc_emod _ (Int.natCast_pos.mpr (Nat.two_pow_pos _)), Int.emod_eq_of_lt (by omega) hlt]
  omega

theorem testBit_complement (i : Nat) :
    a.complement.value.testBit i = (decide (i < a.width) && !a.value.testBit i) := by
  rw [complement, truncate_value, mask_eq, Nat.testBit_mod_two_pow, Nat.testBit_xor,
    Nat.testBit_two_pow_sub_one]
  by_cases hi : i < a.width <;> simp [hi]

theorem Fits.complement_complement (h : a.Fits) : a.complement.complement = a := by
  refine eq_of_testBit rfl fun i => ?_
  rw [testBit_complement, testBit_complement]
  show (decide (i < a.width) && !(decide (i < a.width) && !a.value.testBit i)) = a.value.testBit i
  by_cases hi : i < a.width
  · simp [hi]
  · simp [hi, Nat.testBit_lt_two_pow (h.trans_le (Nat.pow_le_pow_right (by decide)
      (Nat.le_of_not_lt hi)))]

theorem complement_and (h : a.width = b.width) :
    (a.and b).complement = a.complement.or b.complement := by
  refine eq_of_testBit rfl fun i => ?_
  have hand : (a.and b).width = a.width := rfl
  have hor : a.complement.width = a.width := rfl
  rw [testBit_complement, and_value, or_value, Nat.testBit_mod_two_pow, Nat.testBit_mod_two_pow,
    Nat.testBit_and, Nat.testBit_or, testBit_complement, testBit_complement, hand, hor, ← h]
  by_cases hi : i < a.width <;> simp [hi]

theorem Fits.complement_or (ha : a.Fits) (hb : b.Fits) (h : a.width = b.width) :
    (a.or b).complement = a.complement.and b.complement := by
  have hfits : (a.complement.and b.complement).Fits := fits_truncate _ _
  -- The first law, of the complements.
  have hand : (a.complement.and b.complement).complement = a.or b := by
    rw [complement_and (a := a.complement) (b := b.complement) h, ha.complement_complement,
      hb.complement_complement]
  rw [← hand, hfits.complement_complement]

/-! ### Shifts -/

theorem shiftLeft_shiftLeft (n k : Nat) : (a.shiftLeft n).shiftLeft k = a.shiftLeft (n + k) := by
  rw [shiftLeft_eq, shiftLeft_eq, shiftLeft_eq]
  refine truncate_congr ?_
  show (truncate a.width (a.value * 2 ^ n)).value * 2 ^ k % 2 ^ a.width = _
  rw [truncate_value, Nat.mod_mul_mod, pow_add, mul_assoc]
  rfl

/-- To shift to the right needs no truncation. -/
theorem Fits.shiftRight_eq (h : a.Fits) (n : Nat) :
    a.shiftRight n = ⟨a.value / 2 ^ n, a.width⟩ := by
  refine congrArg₂ Word.mk ?_ rfl
  exact (shiftRight_value a n).trans (Nat.mod_eq_of_lt ((Nat.div_le_self _ _).trans_lt h))

theorem Fits.shiftRight_shiftRight (h : a.Fits) (n k : Nat) :
    (a.shiftRight n).shiftRight k = a.shiftRight (n + k) := by
  have hfits : (a.shiftRight n).Fits := fits_truncate _ _
  rw [hfits.shiftRight_eq, h.shiftRight_eq, h.shiftRight_eq, Nat.div_div_eq_div_mul, pow_add]

/-- There and back again, the bits that were pushed out are gone. -/
theorem shiftRight_shiftLeft (n : Nat) :
    ((a.shiftLeft n).shiftRight n).value = a.value % 2 ^ (a.width - n) := by
  have hfits : (a.shiftLeft n).Fits := by
    rw [shiftLeft_eq]
    exact fits_truncate _ _
  rw [hfits.shiftRight_eq, shiftLeft_value]
  rcases Nat.le_total n a.width with hn | hn
  · obtain ⟨k, hk⟩ := Nat.exists_eq_add_of_le hn
    rw [hk, Nat.add_sub_cancel_left, pow_add, mul_comm a.value, Nat.mul_mod_mul_left,
      Nat.mul_div_cancel_left _ (Nat.two_pow_pos n)]
  · have hdvd : 2 ^ a.width ∣ a.value * 2 ^ n := Dvd.dvd.mul_left (pow_dvd_pow 2 hn) _
    rw [Nat.sub_eq_zero_of_le hn, pow_zero, Nat.mod_one, Nat.mod_eq_zero_of_dvd hdvd, Nat.zero_div]

/-! ### Words and operations that are stated -/

/-- What a word is built from is checked, and then truncated if there is room for the width. -/
theorem ofValues_natCast {w : Nat} (hw : 0 < w) (u : Nat) :
    ofValues (.int u) (.int w) = (checkWidth w).map fun _ => truncate w u := by
  obtain ⟨k, rfl⟩ := Nat.exists_eq_add_of_lt hw
  rw [Nat.zero_add, ofValues, widthOf]
  show (checkWidth (k + 1) >>= fun _ => pure (k + 1)) >>= (fun width => pure (truncate width u)) = _
  cases checkWidth (k + 1) <;> rfl

/-- Whatever is done to a word, the result has its width and holds no bit beyond it. -/
theorem act_fits {action : Action} {r : Word} (h : a.act action = .ok r) :
    r.width = a.width ∧ r.Fits := by
  have hbind {α : Type} {outcome : Except Fault α} {f : α → Word}
      (hf : ∀ x, (f x).width = a.width ∧ (f x).Fits)
      (h : (outcome >>= fun x => pure (f x)) = .ok r) : r.width = a.width ∧ r.Fits := by
    cases outcome with
    | error fault => cases h
    | ok x =>
      cases h
      exact hf x
  cases action with
  | not =>
    cases h
    exact ⟨rfl, fits_truncate _ _⟩
  | shl v =>
    refine hbind (fun n => ?_) h
    rw [shiftLeft_eq]
    exact ⟨rfl, fits_truncate _ _⟩
  | and v | or v | xor v | shr v =>
    refine hbind (fun _ => ?_) h
    exact ⟨rfl, fits_truncate _ _⟩

/-- Arithmetic on words of `w` bits is arithmetic modulo `2 ^ w`. The word that is built from a
number is its truncation, if there is room for the width, and every result is a word of `w` bits;
truncation commutes with the operations, of which the complement and the shifts are stated as
numbers, a shift to the left in both ways to compute it; and the laws of logic and of shifting hold
as equations between words. -/
theorem arithmetic_modulo {w : Nat} (hw : 0 < w) (u v n k : Nat) {a b : Word}
    (ha : a = truncate w u) (hb : b = truncate w v) :
    ofValues (.int u) (.int w) = (checkWidth w).map (fun _ => a) ∧
    (∀ action r, a.act action = .ok r → r.width = w ∧ r.value < 2 ^ w) ∧
    (a.act (.and (.word b)) = .ok (a.and b) ∧ a.and b = truncate w (u &&& v)) ∧
    (a.act (.or (.word b)) = .ok (a.or b) ∧ a.or b = truncate w (u ||| v)) ∧
    (a.act (.xor (.word b)) = .ok (a.xor b) ∧ a.xor b = truncate w (u ^^^ v)) ∧
    (a.act .not = .ok a.complement ∧ a.complement.value = 2 ^ w - 1 - u % 2 ^ w ∧
      a.complement.value = lowBits w (~~~(a.value : Int))) ∧
    (a.act (.shl (.int n)) = .ok (a.shiftLeft n) ∧ (a.shiftLeft n).value = u * 2 ^ n % 2 ^ w ∧
      a.shiftLeft n = truncate w (a.value <<< n)) ∧
    (a.act (.shr (.int n)) = .ok (a.shiftRight n) ∧
      (a.shiftRight n).value = u % 2 ^ w / 2 ^ n) ∧
    a.complement.complement = a ∧
    (a.and b).complement = a.complement.or b.complement ∧
    (a.or b).complement = a.complement.and b.complement ∧
    (a.shiftLeft n).shiftLeft k = a.shiftLeft (n + k) ∧
    (a.shiftRight n).shiftRight k = a.shiftRight (n + k) ∧
    ((a.shiftLeft n).shiftRight n).value = a.value % 2 ^ (w - n) ∧
    (w ≤ n → ((a.shiftLeft n).shiftRight n).value = 0) := by
  subst ha hb
  have ha : (truncate w u).Fits := fits_truncate w u
  have hb : (truncate w v).Fits := fits_truncate w v
  have hvalue : (truncate w u).value = u % 2 ^ w := truncate_value w u
  have hoperand : (truncate w u).operand (.word (truncate w v)) = .ok (truncate w v) := if_pos rfl
  have hback := shiftRight_shiftLeft (a := truncate w u) n
  refine ⟨ofValues_natCast hw u, fun action r h => ?_, ⟨?_, and_truncate w u v⟩,
    ⟨?_, or_truncate w u v⟩, ⟨?_, xor_truncate w u v⟩, ⟨rfl, ?_, ha.complement_eq_lowBits⟩,
    ⟨rfl, ?_, ?_⟩, ⟨rfl, ?_⟩, ha.complement_complement, complement_and rfl,
    ha.complement_or hb rfl, shiftLeft_shiftLeft n k, ha.shiftRight_shiftRight n k, hback,
    fun hn => ?_⟩
  · obtain ⟨hwidth, hfits⟩ := act_fits h
    rw [Fits, hwidth] at hfits
    exact ⟨hwidth, hfits⟩
  · rw [act, hoperand]
    rfl
  · rw [act, hoperand]
    rfl
  · rw [act, hoperand]
    rfl
  · rw [complement_value (truncate w u) ha, hvalue]
    rfl
  · rw [shiftLeft_value, hvalue]
    exact Nat.mod_mul_mod _ _ _
  · rw [shiftLeft_eq, Nat.shiftLeft_eq]
    rfl
  · rw [ha.shiftRight_eq, hvalue]
  · have hwidth : (truncate w u).width = w := rfl
    rw [hback, hwidth, Nat.sub_eq_zero_of_le hn, pow_zero, Nat.mod_one]

/-- Three bits of 13 and of 6, moved there and back by two places, and by four. -/
theorem arithmetic_modulo_three :
    0 < 3 ∧ (3 ≤ Capacity.wordBits → ofValues (.int 13) (.int 3) = .ok ⟨5, 3⟩) ∧
    (truncate 3 13).act (.xor (.word (truncate 3 6))) = .ok (truncate 3 (13 ^^^ 6)) ∧
    (truncate 3 13).act .not = .ok ⟨2, 3⟩ ∧
    (truncate 3 13).act (.shl (.int 2)) = .ok ⟨4, 3⟩ ∧
    (((truncate 3 13).shiftLeft 2).shiftRight 2).value = 1 ∧
    3 ≤ 4 ∧ (((truncate 3 13).shiftLeft 4).shiftRight 4).value = 0 := by
  obtain ⟨hbuilt, -, -, -, ⟨hxor, htruncated⟩, ⟨hnot, -, -⟩, ⟨hshl, -, -⟩, -, -, -, -, -, -,
    hback, -⟩ := arithmetic_modulo (w := 3) (by decide) 13 6 2 1 rfl rfl
  obtain ⟨-, -, -, -, -, -, -, -, -, -, -, -, -, -, hgone⟩ :=
    arithmetic_modulo (w := 3) (by decide) 13 6 4 1 rfl rfl
  refine ⟨by decide, fun hroom => ?_, htruncated ▸ hxor, hnot, hshl, hback, by decide,
    hgone (by decide)⟩
  rw [checkWidth, if_pos hroom] at hbuilt
  exact hbuilt

end Accumulator.Word
