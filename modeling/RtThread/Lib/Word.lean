import Mathlib.Data.Nat.Bitwise
import Mathlib.Tactic.Ring

/-!
# 32-bit words

Unsigned 32-bit arithmetic on natural numbers. A word is a natural number below `2^32`; `add32`,
`sub32`, and `mul32` are C's unsigned operators, which wrap modulo `2^32`. Each has an exactness
lemma, under the bound that keeps it from wrapping, so that a proof states its bounds once and then
works with plain sums and differences.
-/

namespace RtThread.Lib

variable (a b : ℕ)

/-- The sum of two words. -/
def add32 : ℕ := (a + b) % 2^32

/-- The difference of two words. -/
def sub32 : ℕ := (a + (2^32 - b % 2^32)) % 2^32

/-- The product of two words. -/
def mul32 : ℕ := (a * b) % 2^32

theorem add32_eq {a b : ℕ} (h : a + b < 2^32) : add32 a b = a + b := Nat.mod_eq_of_lt h

theorem sub32_eq {a b : ℕ} (hab : b ≤ a) (ha : a < 2^32) : sub32 a b = a - b := by
  unfold sub32
  omega

theorem mul32_eq {a b : ℕ} (h : a * b < 2^32) : mul32 a b = a * b := Nat.mod_eq_of_lt h

theorem add32_lt : add32 a b < 2^32 := Nat.mod_lt _ (by norm_num)

/-- Clearing the `k` low bits of a word rounds it down to a multiple of `2^k`. -/
theorem and_mask_eq {x k : ℕ} (hx : x < 2^32) (hk : k ≤ 32) :
    x &&& (2^32 - 2^k) = x / 2^k * 2^k := by
  have hmask : 2^32 - 2^k = (2^(32 - k) - 1) <<< k := by
    rw [Nat.shiftLeft_eq, Nat.sub_mul, ← pow_add, one_mul, Nat.sub_add_cancel hk]
  rw [hmask, ← Nat.shiftRight_eq_div_pow, ← Nat.shiftLeft_eq]
  apply Nat.eq_of_testBit_eq
  intro i
  rw [Nat.testBit_and, Nat.testBit_shiftLeft, Nat.testBit_shiftLeft, Nat.testBit_two_pow_sub_one,
    Nat.testBit_shiftRight]
  by_cases hi : k ≤ i
  · by_cases hlt : i - k < 32 - k
    · simp [hi, hlt]
    · have hzero : x.testBit i = false :=
        Nat.testBit_lt_two_pow (lt_of_lt_of_le hx (Nat.pow_le_pow_right (by norm_num) (by omega)))
      simp [hi, hzero, Nat.add_sub_cancel' hi]
  · simp [hi]

end RtThread.Lib
