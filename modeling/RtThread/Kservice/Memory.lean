import RtThread.Lib.Bytes

/-!
# Alignment and block operations

The alignment macros of `include/rtdef.h`, the block operations of `src/kservice.c`, which the
allocators share, and aligned allocation over any allocator. `rtMemset` and `rtMemcpy` are the byte
loops (`RT_USING_TINY_SIZE`). The default build works on words, and stores the same bytes
(`block_operations`): a word is four bytes, and so is each of the words of an unrolled turn.
-/

namespace RtThread

open Lib Function Nat

/-! ## Alignment -/

/-- The alignment of the configuration. -/
def RT_ALIGN_SIZE : ℕ := 4

/-- `RT_ALIGN(size, align)` on words: `(size + align - 1) & ~(align - 1)`. -/
def rtAlign (size align : ℕ) : ℕ := add32 size (align - 1) &&& (2^32 - align)

/-- `RT_ALIGN_DOWN(size, align)` on words: `size & ~(align - 1)`. -/
def rtAlignDown (size align : ℕ) : ℕ := size &&& (2^32 - align)

theorem rtAlign_four (size : ℕ) : rtAlign size RT_ALIGN_SIZE = (size + 3) % 2^32 / 4 * 4 := by
  exact and_mask_eq (k := 2) (mod_lt _ (by norm_num)) (by norm_num)

theorem rtAlignDown_four {size : ℕ} (h : size < 2^32) :
    rtAlignDown size RT_ALIGN_SIZE = size / 4 * 4 := by
  exact and_mask_eq (k := 2) h (by norm_num)

/-! ## `rt_memset` -/

/-- `rt_memset`: the byte loop, at addresses that wrap modulo `2^32`. -/
def rtMemset (m : Bytes) (s : ℕ) (c : UInt8) : ℕ → Bytes
  | 0 => m
  | count + 1 => rtMemset (update m (s % 2^32) c) (s + 1) c count

section Memset

variable {c : UInt8} {count a i : ℕ}

theorem rtMemset_of_out {m : Bytes} {s : ℕ} (h : ∀ i < count, (s + i) % 2^32 ≠ a) :
    rtMemset m s c count a = m a := by
  induction count generalizing m s with
  | zero => rfl
  | succ count ih =>
    have h0 := h 0 (by omega)
    rw [add_zero] at h0
    rw [rtMemset, ih fun i hi => by
      have := h (i + 1) (by omega)
      rwa [← Nat.add_assoc, add_right_comm] at this]
    exact update_of_ne h0.symm c m

theorem rtMemset_of_mem {m : Bytes} {s : ℕ} (hi : i < count) :
    rtMemset m s c count ((s + i) % 2^32) = c := by
  induction count generalizing m s i with
  | zero => omega
  | succ count ih =>
    rw [rtMemset]
    cases i with
    | succ i =>
      rw [show s + (i + 1) = s + 1 + i by omega]
      exact ih (by omega)
    | zero =>
      -- The first byte is set by this step, and later steps can only set it again.
      by_cases hagain : ∃ j < count, (s + 1 + j) % 2^32 = (s + 0) % 2^32
      · obtain ⟨j, hj, hjs⟩ := hagain
        rw [← hjs]
        exact ih hj
      · rw [rtMemset_of_out fun j hj heq => hagain ⟨j, hj, heq⟩]
        exact update_self _ _ _

end Memset

/-! ## `rt_memcpy` -/

/-- `rt_memcpy`, byte by byte. -/
def rtMemcpy (m : Bytes) (dst src : ℕ) : ℕ → Bytes
  | 0 => m
  | count + 1 => rtMemcpy (update m dst (m src)) (dst + 1) (src + 1) count

section Memcpy

variable {count a i : ℕ}

theorem rtMemcpy_of_out {m : Bytes} {dst src : ℕ} (h : a < dst ∨ dst + count ≤ a) :
    rtMemcpy m dst src count a = m a := by
  induction count generalizing m dst src with
  | zero => rfl
  | succ count ih =>
    rw [rtMemcpy, ih (by omega)]
    exact update_of_ne (by omega) _ m

theorem rtMemcpy_of_mem {m : Bytes} {dst src : ℕ} (hdisj : dst + count ≤ src ∨ src + count ≤ dst)
    (hi : i < count) : rtMemcpy m dst src count (dst + i) = m (src + i) := by
  induction count generalizing m dst src i with
  | zero => omega
  | succ count ih =>
    rw [rtMemcpy]
    cases i with
    | zero =>
      rw [rtMemcpy_of_out (by omega)]
      exact update_self _ _ _
    | succ i =>
      rw [show dst + (i + 1) = dst + 1 + i by omega, show src + (i + 1) = src + 1 + i by omega,
        ih (by omega) (by omega)]
      exact update_of_ne (by omega) _ m

end Memcpy

/-! ## `rt_memmove` -/

section Memmove

variable {β : Type*} {m : ℕ → β} {dst src n a : ℕ}

/-- The loop of `rt_memmove` from the first byte to the last. -/
def moveUp (m : ℕ → β) (tmp s : ℕ) : ℕ → ℕ → β
  | 0 => m
  | n + 1 => moveUp (update m tmp (m s)) (tmp + 1) (s + 1) n

/-- The loop of `rt_memmove` from the last byte to the first, where `tmp` and `s` point behind the
byte that is next. -/
def moveDown (m : ℕ → β) (tmp s : ℕ) : ℕ → ℕ → β
  | 0 => m
  | n + 1 => moveDown (update m (tmp - 1) (m (s - 1))) (tmp - 1) (s - 1) n

/-- `rt_memmove`: from the end if the areas overlap that way. -/
def rtMemmove (m : ℕ → β) (dst src n : ℕ) : ℕ → β :=
  if src < dst ∧ dst < src + n then moveDown m (dst + n) (src + n) n else moveUp m dst src n

theorem moveUp_apply (h : dst ≤ src ∨ src + n ≤ dst) :
    moveUp m dst src n a = if dst ≤ a ∧ a < dst + n then m (a - dst + src) else m a := by
  induction n generalizing m dst src with
  | zero => simp [moveUp]
  | succ n ih =>
    rw [moveUp, ih (by omega)]
    by_cases hrest : dst + 1 ≤ a ∧ a < dst + 1 + n
    · have hne : a - (dst + 1) + (src + 1) ≠ dst := by omega
      have hidx : a - (dst + 1) + (src + 1) = a - dst + src := by omega
      rw [if_pos hrest, if_pos (by omega), update_of_ne hne, hidx]
    · rw [if_neg hrest]
      by_cases ha : a = dst
      · subst ha
        rw [update_self, if_pos (by omega), Nat.sub_self, Nat.zero_add]
      · rw [update_of_ne ha, if_neg (by omega)]

theorem moveDown_apply (h : src ≤ dst) : moveDown m (dst + n) (src + n) n a =
      if dst ≤ a ∧ a < dst + n then m (a - dst + src) else m a := by
  induction n generalizing m with
  | zero => simp [moveDown]
  | succ n ih =>
    rw [moveDown, ← Nat.add_assoc, ← Nat.add_assoc, Nat.add_sub_cancel, Nat.add_sub_cancel, ih]
    by_cases hrest : dst ≤ a ∧ a < dst + n
    · have hne : a - dst + src ≠ dst + n := by omega
      rw [if_pos hrest, if_pos (by omega), update_of_ne hne]
    · rw [if_neg hrest]
      by_cases ha : a = dst + n
      · have hidx : a - dst + src = src + n := by omega
        rw [if_pos (by omega), hidx, ha, update_self]
      · rw [update_of_ne ha, if_neg (by omega)]

theorem rtMemmove_apply :
    rtMemmove m dst src n a = if dst ≤ a ∧ a < dst + n then m (a - dst + src) else m a := by
  unfold rtMemmove
  by_cases hover : src < dst ∧ dst < src + n
  · rw [if_pos hover, moveDown_apply (by omega)]
  · rw [if_neg hover, moveUp_apply (by omega)]

end Memmove

/-! ## A word at a time -/

/-- A loop of the default versions: `k` words in a turn, as long as there are `4 * k` bytes, from the
word `j` on. It leaves the number of the word that is next and the count. -/
def wordTurns (k : ℕ) [NeZero k] (word : ℕ → Bytes → Bytes) (m : Bytes) (j count : ℕ) : Bytes × ℕ × ℕ :=
  if 4 * k ≤ count then
    wordTurns k word ((List.range k).foldl (fun m i => word (j + i) m) m) (j + k) (count - 4 * k)
  else (m, j, count)
  termination_by count
  decreasing_by
    have := NeZero.pos k
    omega

/-- The loops over words, unrolled and not, with the byte loop behind them. -/
def byWords (word : ℕ → Bytes → Bytes) (rest : ℕ → ℕ → Bytes → Bytes) (m : Bytes) (count : ℕ) : Bytes :=
  let (m, j, count) := wordTurns 4 word m 0 count
  let (m, j, count) := wordTurns 1 word m j count
  rest (4 * j) count m

/-- `buffer` of `rt_memset`: the byte `d` four times. -/
def replicated (d : ℕ) : ℕ :=
  let buffer := d <<< 8 ||| d
  (buffer ||| buffer <<< 16) % 2^32

/-- `rt_memset` of the default build. -/
def rtMemsetWords (m : Bytes) (s : ℕ) (c : UInt8) (count : ℕ) : Bytes :=
  if 4 ≤ count ∧ s % 4 = 0 then
    byWords (fun j m => m.store ((s + 4 * j) % 2^32) 4 (replicated c.toNat))
      (fun i count m => rtMemset m (s + i) c count) m count
  else rtMemset m s c count

/-- `rt_memcpy` of the default build, for a count that is an `int`. -/
def rtMemcpyWords (m : Bytes) (dst src count : ℕ) : Bytes :=
  if 16 ≤ count ∧ src % 4 = 0 ∧ dst % 4 = 0 then
    byWords (fun j m => m.store (dst + 4 * j) 4 (m.load (src + 4 * j) 4))
      (fun i count m => rtMemcpy m (dst + i) (src + i) count) m count
  else rtMemcpy m dst src count

/-- `rt_memcpy` with `RT_USING_TINY_SIZE`: the areas decide the direction. -/
def rtMemcpyTiny (m : Bytes) (dst src count : ℕ) : Bytes :=
  if dst ≤ src ∨ src + count < dst then rtMemcpy m dst src count
  else moveDown m (dst + count) (src + count) count

section Words

variable {word : ℕ → Bytes → Bytes} {run : ℕ → ℕ → Bytes → Bytes} {total : ℕ} (hzero : ∀ i m, run i 0 m = m)
  (hadd : ∀ i a b m, run i (a + b) m = run (i + a) b (run i a m))
  (hword : ∀ j m, 4 * j + 4 ≤ total → word j m = run (4 * j) 4 m)
include hzero hadd hword

theorem foldl_word {k j : ℕ} (m : Bytes) (h : 4 * (j + k) ≤ total) :
    (List.range k).foldl (fun m i => word (j + i) m) m = run (4 * j) (4 * k) m := by
  induction k with
  | zero => exact (hzero _ m).symm
  | succ k ih =>
    rw [List.range_succ, List.foldl_append, ih (by omega), Nat.mul_succ, hadd, ← Nat.mul_add]
    exact hword _ _ (by omega)

theorem run_wordTurns (k : ℕ) [NeZero k] {m m' : Bytes} {j j' count count' : ℕ}
    (h : 4 * j + count = total) (hturns : wordTurns k word m j count = (m', j', count')) :
    4 * j' + count' = total ∧ run (4 * j') count' m' = run (4 * j) count m := by
  fun_induction wordTurns k word m j count with
  | case1 m j count hle ih =>
    obtain ⟨htotal, hrun⟩ := ih (by omega) hturns
    refine ⟨htotal, hrun.trans ?_⟩
    rw [foldl_word hzero hadd hword m (by omega), Nat.mul_add, ← hadd]
    congr 1
    omega
  | case2 m j count hle =>
    obtain ⟨rfl, rfl, rfl⟩ := hturns
    exact ⟨h, rfl⟩

theorem byWords_eq (m : Bytes) : byWords word run m total = run 0 total m := by
  obtain ⟨htotal, hfour⟩ := run_wordTurns hzero hadd hword 4 (Nat.zero_add _) (Eq.refl (wordTurns 4 word m 0 total))
  exact (run_wordTurns hzero hadd hword 1 htotal rfl).2.trans hfour

end Words

theorem rtMemset_add (m : Bytes) (s : ℕ) (c : UInt8) (a b : ℕ) :
    rtMemset m s c (a + b) = rtMemset (rtMemset m s c a) (s + a) c b := by
  induction a generalizing m s with
  | zero => rw [Nat.zero_add]; rfl
  | succ a ih =>
    rw [succ_add, rtMemset, ih, Nat.add_right_comm, Nat.add_assoc]
    rfl

theorem rtMemcpy_add (m : Bytes) (dst src a b : ℕ) :
    rtMemcpy m dst src (a + b) = rtMemcpy (rtMemcpy m dst src a) (dst + a) (src + a) b := by
  induction a generalizing m dst src with
  | zero => rw [Nat.zero_add]; rfl
  | succ a ih =>
    rw [succ_add, rtMemcpy, ih, Nat.add_right_comm dst, Nat.add_right_comm src, Nat.add_assoc,
      Nat.add_assoc]
    rfl

theorem store_replicated (m : Bytes) {s : ℕ} (c : UInt8) (h : s % 4 = 0) :
    m.store (s % 2^32) 4 (replicated c.toNat) = rtMemset m s c 4 := by
  have hword : ∀ d < 256, ∀ i < 4, replicated d / 256^i % 2^8 = d := by decide +kernel
  funext x
  unfold Bytes.store
  split_ifs with hx
  · obtain ⟨i, hi⟩ := Nat.exists_eq_add_of_le hx.1
    have hi4 : i < 4 := by omega
    have hset := rtMemset_of_mem (m := m) (s := s) (c := c) hi4
    rw [show (s + i) % 2^32 = x by omega] at hset
    rw [hset, hi, Nat.add_sub_cancel_left]
    apply UInt8.toNat_inj.mp
    rw [UInt8.toNat_ofNat', hword _ c.toNat_lt i hi4]
  · refine (rtMemset_of_out fun i hi heq => hx ?_).symm
    omega

theorem store_load (m : Bytes) {dst src : ℕ} (h : dst + 4 ≤ src ∨ src + 4 ≤ dst) :
    m.store dst 4 (m.load src 4) = rtMemcpy m dst src 4 := by
  funext x
  unfold Bytes.store
  split_ifs with hx
  · obtain ⟨i, rfl⟩ := Nat.exists_eq_add_of_le hx.1
    rw [rtMemcpy_of_mem h (by omega), Nat.add_sub_cancel_left]
    apply UInt8.toNat_inj.mp
    simp only [UInt8.toNat_ofNat', Bytes.load, Nat.add_assoc, Nat.reduceAdd]
    have h0 := (m src).toNat_lt
    have h1 := (m (src + 1)).toNat_lt
    have h2 := (m (src + 2)).toNat_lt
    have h3 := (m (src + 3)).toNat_lt
    rcases (by omega : i = 0 ∨ i = 1 ∨ i = 2 ∨ i = 3) with rfl | rfl | rfl | rfl
    · change _ = (m src).toNat
      omega
    all_goals omega
  · exact (rtMemcpy_of_out (by omega)).symm

/-- The versions that work on words store what the byte loops do, at any alignment and for any count
below `2^31`, and `rt_memmove` copies the bytes as they were, however the areas overlap. -/
theorem block_operations (m : Bytes) (s : ℕ) (c : UInt8) (dst src n : ℕ) :
    rtMemsetWords m s c n = rtMemset m s c n ∧
      (dst + n ≤ src ∨ src + n ≤ dst → rtMemcpyWords m dst src n = rtMemcpyTiny m dst src n) ∧
      ∀ a, rtMemmove m dst src n a = if dst ≤ a ∧ a < dst + n then m (a - dst + src) else m a := by
  refine ⟨?_, fun hdisj => ?_, fun a => rtMemmove_apply⟩
  · unfold rtMemsetWords
    split_ifs with hfast
    · refine byWords_eq (fun _ _ => rfl) (fun i a b m => ?_) (fun j m _ => ?_) m
      · rw [rtMemset_add, Nat.add_assoc]
      · exact store_replicated m c (by omega)
    · rfl
  · have hbytes : rtMemcpyWords m dst src n = rtMemcpy m dst src n := by
      unfold rtMemcpyWords
      split_ifs with hfast
      · refine byWords_eq (fun _ _ => rfl) (fun i a b m => ?_) (fun j m hj => ?_) m
        · rw [rtMemcpy_add, Nat.add_assoc, Nat.add_assoc]
        · exact store_load m (by omega)
      · rfl
    rw [hbytes]
    unfold rtMemcpyTiny
    split_ifs with hup
    · rfl
    · -- The areas adjoin: the direction does not matter.
      funext a
      rw [moveDown_apply (by omega)]
      split_ifs with ha
      · obtain ⟨i, rfl⟩ := Nat.exists_eq_add_of_le ha.1
        rw [rtMemcpy_of_mem hdisj (by omega), Nat.add_sub_cancel_left, Nat.add_comm]
      · exact rtMemcpy_of_out (by omega)

/-- Twenty-three bytes at a multiple of four: a turn of four words, one word, and three bytes. -/
theorem block_operations_mixed : (8 + 23 ≤ 40 ∨ 40 + 23 ≤ 8) ∧
    rtMemcpyWords (fun a => .ofNat a) 8 40 23 = rtMemcpyTiny (fun a => .ofNat a) 8 40 23 :=
  ⟨by decide, (block_operations _ 0 0 8 40 23).2.1 (by decide)⟩

/-! ## Aligned allocation -/

variable (malloc : ℕ → Bytes → ℕ × Bytes)

/-- `rt_malloc_align` over an allocator that takes a size and returns an address, which is zero for
`RT_NULL`. -/
def rtMallocAlign (m : Bytes) (size align : ℕ) : ℕ × Bytes :=
  let align := add32 align 3 &&& (2^32 - 4)
  let alignSize := add32 (add32 size 3 &&& (2^32 - 4)) align
  let (ptr, m) := malloc alignSize m
  if ptr ≠ 0 then
    let alignPtr :=
      if ptr &&& (align - 1) = 0 then add32 ptr align else add32 ptr (align - 1) &&& (2^32 - align)
    (alignPtr, m.store (sub32 alignPtr 4) 4 ptr)
  else (ptr, m)

/-- The size that `rt_malloc_align` asks the allocator for. -/
def alignSize (size align : ℕ) : ℕ :=
  add32 (add32 size 3 &&& (2^32 - 4)) (add32 align 3 &&& (2^32 - 4))

/-- `rt_free_align` over a function that frees. -/
def rtFreeAlign (free : ℕ → Bytes → Bytes) (m : Bytes) (ptr : ℕ) : Bytes :=
  free (m.load (sub32 ptr 4) 4) m

/-- The addresses of a block are below `2^32`, and the block is aligned. -/
def Allocates : Prop :=
  ∀ n m, (malloc n m).1 = 0 ∨ RT_ALIGN_SIZE ∣ (malloc n m).1 ∧ (malloc n m).1 + n ≤ 2^32

theorem round_align {k : ℕ} (hk : 2^k + 3 < 2^32) :
    ∃ j, k ≤ j ∧ 2 ≤ j ∧ j < 32 ∧ add32 (2^k) 3 &&& (2^32 - 4) = 2^j ∧ 2^j ≤ 2^k + 3 := by
  rw [show (4 : ℕ) = 2^2 from rfl, and_mask_eq (add32_lt _ _) (by norm_num), add32_eq hk]
  by_cases hlt : k < 2
  · refine ⟨2, by omega, le_rfl, by norm_num, ?_⟩
    rcases (by omega : k = 0 ∨ k = 1) with rfl | rfl <;> decide
  · obtain ⟨i, rfl⟩ := Nat.exists_eq_add_of_le (not_lt.mp hlt)
    have hpow : 2^(2 + i) < 2^32 := by omega
    refine ⟨2 + i, le_rfl, by omega, (Nat.pow_lt_pow_iff_right (by norm_num)).mp hpow, ?_, by omega⟩
    rw [pow_add]
    omega

theorem align_ptr {p j : ℕ} (hp : RT_ALIGN_SIZE ∣ p) (hj : 2 ≤ j) (hj32 : j < 32)
    (hend : p + 2^j ≤ 2^32) :
    let r := if p &&& (2^j - 1) = 0 then add32 p (2^j) else add32 p (2^j - 1) &&& (2^32 - 2^j)
    r = 0 ∧ p + 2^j = 2^32 ∨ 2^j ∣ r ∧ p + 4 ≤ r ∧ r ≤ p + 2^j ∧ r < 2^32 := by
  have hfour : 4 ∣ 2^j := pow_dvd_pow 2 hj
  have hpos : 0 < 2^j := by positivity
  have hp : 4 ∣ p := hp
  rw [and_two_pow_sub_one_eq_mod]
  split_ifs with hzero
  · rcases hend.lt_or_eq with hlt | heq
    · rw [add32_eq hlt]
      exact .inr ⟨Nat.dvd_add (Nat.dvd_of_mod_eq_zero hzero) (dvd_refl _), by omega, le_rfl, hlt⟩
    · refine .inl ⟨?_, heq⟩
      rw [add32, heq]
      rfl
  · right
    rw [and_mask_eq (add32_lt _ _) hj32.le, add32_eq (by omega)]
    have hdvd : 4 ∣ (p + (2^j - 1)) / 2^j * 2^j := hfour.mul_left _
    have hmod := div_add_mod' (p + (2^j - 1)) (2^j)
    have hlt := mod_lt (p + (2^j - 1)) hpos
    -- The address is not that of the block, which is not aligned.
    have hne : (p + (2^j - 1)) / 2^j * 2^j ≠ p := fun heq =>
      hzero (mod_eq_zero_of_dvd (heq ▸ dvd_mul_left _ _))
    exact ⟨dvd_mul_left _ _, by omega, by omega, by omega⟩

/-- The address that `rt_malloc_align` returns is aligned, with the area behind it and the saved
pointer in front of it in the block, and whatever is written to the area, `rt_free_align` frees the
block. It is zero only if there is no block, or if an empty area would begin behind the last address. -/
theorem malloc_align_area (hmalloc : Allocates malloc) (m : Bytes)
    (size k : ℕ) (hsize : size + 2^k + 8 < 2^32) :
    ∃ n p r m', n = alignSize size (2^k) ∧ p = (malloc n m).1 ∧
      rtMallocAlign malloc m size (2^k) = (r, m') ∧
      (r = 0 ∧ (p = 0 ∨ size = 0 ∧ p + n = 2^32) ∨
        p ≠ 0 ∧ 2^k ∣ r ∧ p + 4 ≤ r ∧ r + size ≤ p + n ∧
          ∀ free m'', (∀ a, a < r ∨ r + size ≤ a → m'' a = m' a) →
            rtFreeAlign free m'' r = free p m'') := by
  obtain ⟨j, hkj, hj, hj32, hround, hle⟩ := round_align (k := k) (by omega)
  obtain ⟨n, hn⟩ : ∃ n, n = alignSize size (2^k) := ⟨_, rfl⟩
  have hroom : size + 2^j ≤ n := by
    rw [hn, alignSize, hround, show (4 : ℕ) = 2^2 from rfl, and_mask_eq (add32_lt _ _) (by norm_num),
      add32_eq (a := size) (by omega), add32_eq (by omega)]
    omega
  refine ⟨n, (malloc n m).1, ?_⟩
  unfold alignSize at hn ⊢
  unfold rtMallocAlign
  simp only [← hn, true_and]
  by_cases hnull : (malloc n m).1 = 0
  · rw [if_neg (not_not.mpr hnull)]
    exact ⟨_, _, rfl, .inl ⟨hnull, .inl hnull⟩⟩
  rw [if_pos hnull]
  simp only [hround]
  refine ⟨_, _, rfl, ?_⟩
  obtain ⟨hp, hend⟩ := (hmalloc n m).resolve_left hnull
  rcases align_ptr hp hj hj32 (by omega) with ⟨hzero, hlast⟩ | ⟨hdvd, hfront, hback, hlt⟩
  · exact .inl ⟨hzero, .inr (by omega)⟩
  · refine .inr ⟨hnull, (pow_dvd_pow 2 hkj).trans hdvd, hfront, by omega, ?_⟩
    intro free m'' hsame
    unfold rtFreeAlign
    rw [Bytes.load_congr fun a ha ha' => hsame a ?_, Bytes.load_store_same]
    · rw [mod_eq_of_lt (by omega)]
    · rw [sub32_eq (by omega) hlt] at ha'
      omega

/-- An allocator with one block of a hundred bytes. -/
def oneBlock : ℕ → Bytes → ℕ × Bytes := fun n m => (if n ≤ 100 then 0x20000004 else 0, m)

/-- Ten bytes at a multiple of sixteen, out of a block of twenty-eight. -/
theorem malloc_align_area_sixteen : Allocates oneBlock ∧
    ∃ r m', rtMallocAlign oneBlock (fun _ => 0) 10 (2^4) = (r, m') ∧ r ≠ 0 ∧ 2^4 ∣ r ∧
      0x20000004 + 4 ≤ r ∧ r + 10 ≤ 0x20000004 + 28 := by
  have hmalloc : Allocates oneBlock := by
    intro n m
    unfold oneBlock
    dsimp only
    split_ifs with hn
    · exact .inr ⟨by decide, by omega⟩
    · exact .inl rfl
  obtain ⟨n, p, r, m', rfl, rfl, hr, hcases⟩ := malloc_align_area _ hmalloc (fun _ => 0) 10 4 (by norm_num)
  have hblock : (oneBlock (alignSize 10 (2^4)) fun _ => 0).1 = 0x20000004 := rfl
  have hsize : alignSize 10 (2^4) = 28 := rfl
  rw [hblock, hsize] at hcases
  obtain ⟨-, hnull⟩ | ⟨-, hdvd, hfront, hback, -⟩ := hcases
  · omega
  · exact ⟨hmalloc, r, m', hr, by omega, hdvd, hfront, hback⟩

end RtThread
