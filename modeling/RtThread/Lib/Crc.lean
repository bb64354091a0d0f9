import Mathlib.Tactic.Common

/-!
# Cyclic redundancy checks

The remainder of a reflected polynomial, bit by bit: a shift to the right, and the polynomial if a one
has gone out. Shifts are linear in exclusive or (`shifts_xor`), and a word whose low bits are zero is
only moved (`shifts_of_low_zero`). So the shifts of a word are those of its low bits, which a table can
hold, and the rest moved down (`shifts_split`). A change of one byte is always noticed
(`remainder_append_cons`).
-/

namespace RtThread.Lib.Crc

open BitVec

variable {w : ℕ} (poly : BitVec w)

/-- One shift of the remainder. -/
def shift (c : BitVec w) : BitVec w := if c.getLsbD 0 then (c >>> 1) ^^^ poly else c >>> 1

/-- `n` shifts. -/
def shifts : ℕ → BitVec w → BitVec w
  | 0, c => c
  | n + 1, c => shift poly (shifts n c)

/-- The remainder of a list of bytes, bit by bit. -/
def remainder (init : BitVec w) (bytes : List UInt8) : BitVec w :=
  bytes.foldl (fun c b => shifts poly 8 (c ^^^ b.toBitVec.setWidth w)) init

theorem shift_xor (a b : BitVec w) : shift poly (a ^^^ b) = shift poly a ^^^ shift poly b := by
  unfold shift
  rw [getLsbD_xor, ushiftRight_xor_distrib]
  cases ha : a.getLsbD 0 <;> cases hb : b.getLsbD 0
  · rfl
  · simp only [Bool.false_xor, if_true, Bool.false_eq_true, if_false]
    rw [xor_assoc]
  · simp only [Bool.true_xor, Bool.not_false, if_true, Bool.false_eq_true, if_false]
    rw [xor_assoc, xor_assoc, BitVec.xor_comm poly]
  · simp only [Bool.true_xor, Bool.not_true, if_true, Bool.false_eq_true, if_false]
    rw [BitVec.xor_assoc (a >>> 1), BitVec.xor_comm (b >>> 1), ← BitVec.xor_assoc poly,
      BitVec.xor_self, BitVec.zero_xor]

theorem shifts_xor (n : ℕ) (a b : BitVec w) :
    shifts poly n (a ^^^ b) = shifts poly n a ^^^ shifts poly n b := by
  induction n with
  | zero => rfl
  | succ n ih => rw [shifts, ih, shift_xor, shifts, shifts]

theorem shifts_of_low_zero {c : BitVec w} {n k : ℕ} (hlow : ∀ i < n, c.getLsbD i = false)
    (hk : k ≤ n) : shifts poly k c = c >>> k := by
  induction k with
  | zero => rw [shifts, ushiftRight_zero]
  | succ k ih =>
    have hbit : (c >>> k).getLsbD 0 = false := by
      rw [getLsbD_ushiftRight]
      exact hlow (k + 0) (by omega)
    rw [shifts, ih (by omega), shift, hbit, if_neg (by simp), shiftRight_add]

/-- The shifts of a word are those of its low bits and the rest moved down. -/
theorem shifts_split (n : ℕ) (c : BitVec w) :
    shifts poly n c = shifts poly n ((c.setWidth n).setWidth w) ^^^ (c >>> n) := by
  have hsplit : c = (c.setWidth n).setWidth w ^^^ ((c >>> n) <<< n) := by
    apply eq_of_getLsbD_eq
    intro i hi
    simp only [getLsbD_xor, getLsbD_setWidth, getLsbD_shiftLeft,
      getLsbD_ushiftRight, hi]
    by_cases hin : i < n
    · simp [hin]
    · simp [hin, Nat.add_sub_cancel' (Nat.le_of_not_lt hin)]
  have hlow : ∀ i < n, ((c >>> n) <<< n).getLsbD i = false := by
    intro i hi
    simp [getLsbD_shiftLeft, hi]
  have hmoved : ((c >>> n) <<< n) >>> n = c >>> n := by
    apply eq_of_getLsbD_eq
    intro i hi
    simp only [getLsbD_ushiftRight, getLsbD_shiftLeft, Nat.add_sub_cancel_left]
    by_cases hin : n + i < w
    · simp [hin]
    · simp [getLsbD_of_ge c (n + i) (by omega)]
  conv_lhs => rw [hsplit]
  rw [shifts_xor, shifts_of_low_zero poly hlow (Nat.le_refl n), hmoved]

/-- A polynomial with the coefficient that a shift has cleared loses no remainder. -/
theorem shift_injective (hpoly : poly.getLsbD (w - 1) = true) :
    Function.Injective (shift poly) := by
  intro a b h
  have hzero : shift poly (a ^^^ b) = 0#w := by rw [shift_xor, h, BitVec.xor_self]
  have hhigh : ((a ^^^ b) >>> 1).getLsbD (w - 1) = false := by
    rw [getLsbD_ushiftRight]
    exact getLsbD_of_ge _ _ (by omega)
  unfold shift at hzero
  split at hzero
  · rw [BitVec.xor_eq_zero_iff.mp hzero, hpoly] at hhigh
    cases hhigh
  · next hlow =>
    apply BitVec.xor_eq_zero_iff.mp
    apply eq_of_getLsbD_eq
    intro i hi
    cases i with
    | zero => simpa using hlow
    | succ i => simpa [Nat.add_comm] using congrArg (·.getLsbD i) hzero

theorem shifts_injective (hpoly : poly.getLsbD (w - 1) = true) (n : ℕ) :
    Function.Injective (shifts poly n) := by
  induction n with
  | zero => exact fun _ _ h => h
  | succ n ih => exact (shift_injective poly hpoly).comp ih

theorem remainder_injective (hpoly : poly.getLsbD (w - 1) = true) (bytes : List UInt8) :
    Function.Injective (remainder poly · bytes) := by
  induction bytes with
  | nil => exact fun _ _ h => h
  | cons b bytes ih =>
    intro x y h
    exact (xor_left_inj _).mp (shifts_injective poly hpoly 8 (ih h))

/-- One byte that is changed changes the remainder. -/
theorem remainder_append_cons (hpoly : poly.getLsbD (w - 1) = true) (hw : 8 ≤ w) {init : BitVec w}
    {l₁ l₂ : List UInt8} {a b : UInt8}
    (h : remainder poly init (l₁ ++ a :: l₂) = remainder poly init (l₁ ++ b :: l₂)) : a = b := by
  unfold remainder at h
  rw [List.foldl_append, List.foldl_append] at h
  have hxor := shifts_injective poly hpoly 8 (remainder_injective poly hpoly l₂ h)
  have hbyte := congrArg (setWidth 8) ((xor_right_inj _).mp hxor)
  rw [setWidth_setWidth_of_le _ hw, setWidth_setWidth_of_le _ hw, setWidth_eq, setWidth_eq] at hbyte
  exact UInt8.toBitVec_inj.mp hbyte

end RtThread.Lib.Crc
