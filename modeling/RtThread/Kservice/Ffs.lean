import Mathlib.Data.BitVec
import Mathlib.Tactic.NormNum

/-!
# The first set bit of a word

`__rt_ffs` of `src/kservice.c` finds the least significant bit set in a 32-bit word with a table of
the lowest bits of all bytes: it takes the lowest byte that is not zero and looks it up.
-/

namespace RtThread

open BitVec

/-- `i` is the position of the lowest bit set in `v`. -/
def IsLowestBit {w : ℕ} (v : BitVec w) (i : ℕ) : Prop :=
  v.getLsbD i = true ∧ ∀ j < i, v.getLsbD j = false

/-- A row of `__lowest_bit_bitmap`, which differ in their first entry only. -/
def lowestBitRow (first : ℕ) : List ℕ := [first, 0, 1, 0, 2, 0, 1, 0, 3, 0, 1, 0, 2, 0, 1, 0]

/-- `__lowest_bit_bitmap`. -/
def lowestBitBitmap : List ℕ :=
  [0, 4, 5, 4, 6, 4, 5, 4, 7, 4, 5, 4, 6, 4, 5, 4].flatMap lowestBitRow

/-- `__rt_ffs`. -/
def rtFfs (value : BitVec 32) : ℕ :=
  if value = 0 then 0
  else if value &&& 0xff#32 ≠ 0 then lowestBitBitmap.getD (value &&& 0xff#32).toNat 0 + 1
  else if value &&& 0xff00#32 ≠ 0 then
    lowestBitBitmap.getD ((value &&& 0xff00#32) >>> 8).toNat 0 + 9
  else if value &&& 0xff0000#32 ≠ 0 then
    lowestBitBitmap.getD ((value &&& 0xff0000#32) >>> 16).toNat 0 + 17
  else lowestBitBitmap.getD ((value &&& 0xff000000#32) >>> 24).toNat 0 + 25

theorem lowestBitBitmap_spec (b : BitVec 8) (hb : b ≠ 0) :
    IsLowestBit b (lowestBitBitmap.getD b.toNat 0) := by
  have hall : ∀ i : Fin 256, ofFin (w := 8) i ≠ 0 →
      (ofFin (w := 8) i).getLsbD (lowestBitBitmap.getD i 0) = true ∧
        ∀ j : Fin (lowestBitBitmap.getD i 0), (ofFin (w := 8) i).getLsbD j = false := by
    decide +kernel
  obtain ⟨hbit, hbelow⟩ := hall b.toFin hb
  exact ⟨hbit, fun j hj => hbelow ⟨j, hj⟩⟩

theorem getLsbD_byteMask (i : ℕ) : (0xff#32).getLsbD i = decide (i < 8) := by
  rw [show (0xff : ℕ) = 2 ^ 8 - 1 by norm_num, getLsbD_ofNat, Nat.testBit_two_pow_sub_one]
  by_cases hi : i < 8
  · simp [hi, show i < 32 by omega]
  · simp [hi]

theorem masked_byte (v : BitVec 32) (s : ℕ) (hs : s ≤ 24) :
    ((v &&& (0xff#32 <<< s)) >>> s) = (v.extractLsb' s 8).setWidth 32 := by
  apply eq_of_getLsbD_eq
  intro i hi
  simp only [getLsbD_ushiftRight, getLsbD_and, getLsbD_shiftLeft, getLsbD_byteMask,
    getLsbD_setWidth, getLsbD_extractLsb']
  by_cases h8 : i < 8
  · simp [h8, show s + i < 32 by omega, hi]
  · simp [h8]

theorem isLowestBit_of_byte (v : BitVec 32) (s : ℕ) (hs : s ≤ 24) (hbyte : v.extractLsb' s 8 ≠ 0)
    (hbelow : ∀ j < s, v.getLsbD j = false) :
    IsLowestBit v (s + lowestBitBitmap.getD ((v &&& (0xff#32 <<< s)) >>> s).toNat 0) := by
  have hval : ((v &&& (0xff#32 <<< s)) >>> s).toNat = (v.extractLsb' s 8).toNat := by
    rw [masked_byte v s hs, toNat_setWidth, Nat.mod_eq_of_lt]
    exact lt_trans (v.extractLsb' s 8).isLt (by norm_num)
  rw [hval]
  obtain ⟨hbit, hlow⟩ := lowestBitBitmap_spec _ hbyte
  rw [getLsbD_extractLsb', Bool.and_eq_true] at hbit
  refine ⟨hbit.2, fun j hj => ?_⟩
  by_cases hjs : j < s
  · exact hbelow j hjs
  · have hj8 : j - s < 8 := lt_trans (by omega) (of_decide_eq_true hbit.1)
    have hfalse := hlow (j - s) (by omega)
    rwa [getLsbD_extractLsb', decide_eq_true hj8, Bool.true_and,
      show s + (j - s) = j by omega] at hfalse

theorem getLsbD_of_masked_eq_zero {v : BitVec 32} {s : ℕ} (hs : s ≤ 24) (hzero : v &&& (0xff#32 <<< s) = 0)
    {j : ℕ} (hlo : s ≤ j) (hhi : j < s + 8) : v.getLsbD j = false := by
  have hbit : (v &&& (0xff#32 <<< s)).getLsbD j = false := by rw [hzero]; exact getLsbD_zero
  rw [getLsbD_and, getLsbD_shiftLeft, getLsbD_byteMask] at hbit
  simpa [show j < 32 by omega, show ¬j < s by omega, show j - s < 8 by omega] using hbit

theorem byte_ne_zero {v : BitVec 32} {s : ℕ} (hne : v &&& (0xff#32 <<< s) ≠ 0) :
    v.extractLsb' s 8 ≠ 0 := by
  intro hzero
  apply hne
  apply eq_of_getLsbD_eq
  intro i hi
  have hbit : ∀ j, (v.extractLsb' s 8).getLsbD j = false := fun j => by
    rw [hzero]; exact getLsbD_zero
  have hb := hbit (i - s)
  rw [getLsbD_extractLsb'] at hb
  rw [getLsbD_and, getLsbD_shiftLeft, getLsbD_byteMask]
  by_cases his : i < s
  · simp [his]
  · rw [show s + (i - s) = i by omega] at hb
    by_cases h8 : i - s < 8
    · simp_all
    · simp [h8]

/-- The result, which counts from 1, is the position of the lowest bit. -/
theorem rtFfs_spec (v : BitVec 32) (hv : v ≠ 0) : ∃ i < 32, rtFfs v = i + 1 ∧ IsLowestBit v i := by
  have hlt : ∀ {i}, IsLowestBit v i → i < 32 := fun hi => lt_of_getLsbD hi.1
  -- The first masked byte that is not zero gives the result.
  have hfound : ∀ s ≤ 24, v &&& (0xff#32 <<< s) ≠ 0 → (∀ j < s, v.getLsbD j = false) →
      ∃ i < 32, lowestBitBitmap.getD ((v &&& (0xff#32 <<< s)) >>> s).toNat 0 + (s + 1) = i + 1 ∧
        IsLowestBit v i := by
    intro s hs hne hbelow
    have hlow := isLowestBit_of_byte v s hs (byte_ne_zero hne) hbelow
    exact ⟨_, hlt hlow, by omega, hlow⟩
  unfold rtFfs
  rw [if_neg hv]
  split_ifs with c0 c8 c16
  · exact hfound 0 (by norm_num) c0 (fun j hj => absurd hj (by omega))
  · have z0 := not_not.mp c0
    exact hfound 8 (by norm_num) c8 fun j hj =>
      getLsbD_of_masked_eq_zero (by norm_num) z0 (Nat.zero_le j) hj
  · have z0 := not_not.mp c0
    have z8 := not_not.mp c8
    refine hfound 16 (by norm_num) c16 fun j hj => ?_
    by_cases hj8 : j < 8
    · exact getLsbD_of_masked_eq_zero (by norm_num) z0 (Nat.zero_le j) hj8
    · exact getLsbD_of_masked_eq_zero (by norm_num) z8 (by omega) hj
  · have z0 := not_not.mp c0
    have z8 := not_not.mp c8
    have z16 := not_not.mp c16
    have hbelow : ∀ j < 24, v.getLsbD j = false := by
      intro j hj
      by_cases hj8 : j < 8
      · exact getLsbD_of_masked_eq_zero (by norm_num) z0 (Nat.zero_le j) hj8
      by_cases hj16 : j < 16
      · exact getLsbD_of_masked_eq_zero (by norm_num) z8 (by omega) hj16
      · exact getLsbD_of_masked_eq_zero (by norm_num) z16 (by omega) hj
    refine hfound 24 le_rfl (fun z24 => hv ?_) hbelow
    -- All four bytes are zero.
    apply eq_of_getLsbD_eq
    intro i hi
    have hright : (0 : BitVec 32).getLsbD i = false := getLsbD_zero
    rw [hright]
    by_cases hi24 : i < 24
    · exact hbelow i hi24
    · exact getLsbD_of_masked_eq_zero le_rfl z24 (by omega) hi

end RtThread
