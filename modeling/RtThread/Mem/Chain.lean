import RtThread.Mem.Model
import RtThread.Lib.Tiling

/-!
# The block chain

The bytes of the heap hold a tiling of the offsets from 0 to `heap_end` (`Lib/Tiling.lean`): a block
is in use or free, its `next` is the offset after it, and its `prev` that of the block before.
`Chain` states this of a heap, together with what the closing block and `used_mem` hold, and `Inv`
adds that no two neighbouring blocks are free and that `lfree` is a free block or the closing one.
The operations are edits of the tiling, and the files after this one show which edit each of them
makes.
-/

namespace RtThread

open Lib List Bytes

namespace Mem

@[simp] theorem sizeof_eq : SIZEOF_STRUCT_MEM = 12 := by decide

@[simp] theorem min_size_eq : MIN_SIZE = 12 := rfl

@[simp] theorem min_size_aligned_eq : MIN_SIZE_ALIGNED = 12 := by decide

/-! ## Headers -/

/-- The flag of a well-formed header. -/
def flag (m : Bytes) (p : ℕ) : Option Bool :=
  if magic m p = HEAP_MAGIC then
    if used m p = 0 then some false else if used m p = 1 then some true else none
  else none

/-- The header fields, for `Lib/Tiling.lean`. -/
def fields (m : Bytes) : Fields := ⟨next m, prev m, flag m⟩

section Headers

variable {m m' : Bytes} {p : ℕ}

theorem flag_eq_false : flag m p = some false ↔ magic m p = HEAP_MAGIC ∧ used m p = 0 := by
  unfold flag
  split_ifs <;> simp_all

theorem flag_eq_true : flag m p = some true ↔ magic m p = HEAP_MAGIC ∧ used m p = 1 := by
  unfold flag
  split_ifs <;> simp_all

@[simp] theorem magic_setMagic : magic (setMagic m p HEAP_MAGIC) p = HEAP_MAGIC := by
  rw [magic, setMagic, load_store_same]
  decide

theorem used_setUsed {v : ℕ} (hv : v < 2^16) : used (setUsed m p v) p = v := by
  rw [used, setUsed, load_store_same]
  omega

theorem fields_congr (h : ∀ a, p ≤ a → a < p + 8 → m' a = m a) :
    (fields m').flag p = (fields m).flag p ∧ (fields m').next p = (fields m).next p := by
  have hm : m'.load p 2 = m.load p 2 := load_congr fun a _ _ => h a (by omega) (by omega)
  have hu : m'.load (p + 2) 2 = m.load (p + 2) 2 :=
    load_congr fun a _ _ => h a (by omega) (by omega)
  have hn : m'.load (p + 4) 4 = m.load (p + 4) 4 :=
    load_congr fun a _ _ => h a (by omega) (by omega)
  refine ⟨?_, hn⟩
  change flag m' p = flag m p
  unfold flag magic used
  rw [hm, hu]

theorem prev_congr (h : ∀ a, p + 8 ≤ a → a < p + 12 → m' a = m a) : prev m' p = prev m p :=
  load_congr fun a _ _ => h a (by omega) (by omega)

theorem agreeAt_of_bytes (h : ∀ a, p ≤ a → a < p + 12 → m' a = m a) :
    AgreeAt (fields m) (fields m') p := by
  obtain ⟨hf, hn⟩ := fields_congr fun a (_ : p ≤ a) _ => h a (by omega) (by omega)
  exact ⟨hf, hn, prev_congr fun a _ _ => h a (by omega) (by omega)⟩

end Headers

/-! ## The invariant -/

/-- The heap holds the blocks. -/
structure Chain (s : Heap) (bs : List Blk) : Prop where
  /-- The headers hold the blocks, from offset 0 on. -/
  linked : Linked (fields s.mem) 0 0 bs
  /-- The chain ends at the closing block. -/
  total_eq : total bs = s.heapEnd
  /-- Every block has room for its header. -/
  size_ge : ∀ b ∈ bs, 12 ≤ b.size
  /-- Every size is aligned. -/
  size_dvd : ∀ b ∈ bs, 4 ∣ b.size
  /-- A block in use has room for a word. -/
  used_ge : ∀ b ∈ bs, b.used = true → 16 ≤ b.size
  /-- The closing block is marked used ... -/
  end_used : used s.mem s.heapEnd = 1
  /-- ... and is its own next. -/
  end_next : next s.mem s.heapEnd = s.heapEnd
  /-- The closing block lies one header above the usable size. -/
  end_eq : s.heapEnd = s.memSizeAligned + 12
  /-- The heap, with the closing header, fits below the end of the address space. -/
  end_lt : s.heapEnd + 12 < 2^32
  /-- The heap is aligned. -/
  ptr_dvd : 4 ∣ s.heapPtr
  /-- `used_mem` counts the blocks in use. -/
  used_eq : s.usedMem = usedTotal bs

/-- The invariant of the heap: a chain of blocks without two free neighbours, and `lfree` a free
block or the closing block. -/
structure Inv (s : Heap) (bs : List Blk) : Prop extends Chain s bs where
  /-- No two neighbouring blocks are free. -/
  noAdj : NoAdjFree bs
  /-- `lfree` is a free block or the closing block. -/
  lfree_ok : FreeOrEnd bs s.lfree

theorem total_eq_zero_or_ge {bs : List Blk} (h : ∀ b ∈ bs, 12 ≤ b.size) :
    bs = [] ∨ 12 ≤ total bs := by
  cases bs with
  | nil => exact Or.inl rfl
  | cons b bs =>
    have := h b mem_cons_self
    exact Or.inr (by rw [total_cons]; omega)

namespace Chain

variable {s : Heap} {pre post bs : List Blk} {n : ℕ} {u : Bool}

theorem withLfree (h : Chain s bs) (lfree maxMem : ℕ) :
    Chain { s with lfree := lfree, maxMem := maxMem } bs :=
  ⟨h.linked, h.total_eq, h.size_ge, h.size_dvd, h.used_ge, h.end_used, h.end_next, h.end_eq,
    h.end_lt, h.ptr_dvd, h.used_eq⟩

theorem cut (h : Chain s (pre ++ ⟨u, n⟩ :: post)) :
    flag s.mem (total pre) = some u ∧ next s.mem (total pre) = total pre + n ∧
      prev s.mem (total pre) = lastAddr 0 0 pre ∧
      12 ≤ n ∧ 4 ∣ n ∧ 4 ∣ total pre ∧ total pre + n + total post = s.heapEnd := by
  have hl := (linked_append.mp h.linked).2
  rw [Nat.zero_add, linked_cons] at hl
  obtain ⟨hf, hn, hp, -⟩ := hl
  have hmem : (total pre, (⟨u, n⟩ : Blk)) ∈ place 0 (pre ++ ⟨u, n⟩ :: post) := by simp
  have htot := h.total_eq
  simp only [total_append, total_cons] at htot
  exact ⟨hf, hn, hp, h.size_ge ⟨u, n⟩ (by simp), h.size_dvd ⟨u, n⟩ (by simp),
    place_aligned (Nat.dvd_zero 4) h.size_dvd hmem, by omega⟩

theorem cut_back (h : Chain s (pre ++ ⟨u, n⟩ :: post)) (hne : post ≠ []) :
    prev s.mem (total pre + n) = total pre := by
  obtain ⟨b, post, rfl⟩ := exists_cons_of_ne_nil hne
  have h' : Chain s ((pre ++ [⟨u, n⟩]) ++ ⟨b.used, b.size⟩ :: post) := by simpa using h
  simpa using h'.cut.2.2.1

theorem before_cut (h : Chain s (pre ++ bs)) {x : ℕ × Blk} (hx : x ∈ place 0 pre) :
    x.1 + 12 ≤ total pre := by
  have hb := (place_bounds hx).2
  have := h.size_ge x.2 (mem_append_left _ (mem_of_mem_place hx))
  omega

end Chain

theorem Inv.lfree_out {s : Heap} {bs : List Blk} (h : Inv s bs) {x : ℕ × Blk} (hx : x ∈ place 0 bs)
    (hu : x.2.used = true) : s.lfree < x.1 ∨ x.1 + x.2.size ≤ s.lfree := by
  by_contra hin
  have heq := h.lfree_ok.eq_of_mem hx (by omega) (by omega)
  rcases h.lfree_ok with hend | ⟨j, hj⟩
  · have := (place_bounds hx).2
    omega
  · have hpos : ∀ b ∈ bs, 0 < b.size := fun b hb => by
      have := h.size_ge b hb
      omega
    have := place_unique hpos hj hx heq
    rw [← this] at hu
    cases hu

/-! ## Edits -/

/-- `m'` has the bytes of `m` outside the interval from `o` to `e` and the `prev` of the header at
`e`. -/
def Confined (o e : ℕ) (m m' : Bytes) : Prop :=
  ∀ a, a < o ∨ e ≤ a ∧ (a < e + 8 ∨ e + 12 ≤ a) → m' a = m a

/-- The rule for an edit of the chain: the blocks `old` are replaced by `new`, which tile the same
interval, are linked, and are the back link of what follows; the bytes outside are unchanged. -/
theorem Chain.edit {s : Heap} {pre old post : List Blk} (h : Chain s (pre ++ old ++ post))
    (new : List Blk) (lfree usedMem maxMem : ℕ) (m : Bytes)
    (hconf : Confined (total pre) (total pre + total old) s.mem m)
    (htotal : total new = total old)
    (hnew : ∀ b ∈ new, 12 ≤ b.size ∧ 4 ∣ b.size ∧ (b.used = true → 16 ≤ b.size))
    (hlinked : Linked (fields m) (lastAddr 0 0 pre) (total pre) new)
    (hback : post ≠ [] →
      prev m (total pre + total old) = lastAddr (lastAddr 0 0 pre) (total pre) new)
    (hused : usedMem = usedTotal (pre ++ new ++ post)) :
    Chain { s with lfree := lfree, usedMem := usedMem, maxMem := maxMem, mem := m }
      (pre ++ new ++ post) := by
  have hpost12 : ∀ b ∈ post, 12 ≤ b.size := fun b hb => h.size_ge b (by simp [hb])
  have htot := h.total_eq
  simp only [total_append] at htot
  have hpt := total_eq_zero_or_ge hpost12
  -- The closing block lies at the end of the edit or a header beyond.
  have hend : s.heapEnd = total pre + total old ∨ total pre + total old + 12 ≤ s.heapEnd := by
    rcases hpt with rfl | hpt
    · left; rw [total_nil] at htot; omega
    · right; omega
  have hsizes : ∀ b ∈ pre ++ new ++ post, 12 ≤ b.size ∧ 4 ∣ b.size ∧ (b.used = true → 16 ≤ b.size) := by
    intro b hb
    simp only [mem_append] at hb
    rcases hb with (hb | hb) | hb
    · exact ⟨h.size_ge b (by simp [hb]), h.size_dvd b (by simp [hb]), h.used_ge b (by simp [hb])⟩
    · exact hnew b hb
    · exact ⟨h.size_ge b (by simp [hb]), h.size_dvd b (by simp [hb]), h.used_ge b (by simp [hb])⟩
  refine ⟨?linked, ?total, fun b hb => (hsizes b hb).1, fun b hb => (hsizes b hb).2.1,
    fun b hb => (hsizes b hb).2.2, ?endUsed, ?endNext, h.end_eq, h.end_lt, h.ptr_dvd, hused⟩
  case linked =>
    refine Linked.splice h.linked htotal ?_ ?_ ?_ ?_ ?_
    · intro x hx
      have hx' : x.1 + 12 ≤ total pre := by
        have h' : Chain s (pre ++ (old ++ post)) := by simpa using h
        exact h'.before_cut hx
      exact agreeAt_of_bytes fun a _ _ => hconf a (by omega)
    · rwa [Nat.zero_add]
    · intro x hx
      rw [Nat.zero_add] at hx
      refine fields_congr fun a _ _ => hconf a ?_
      cases post with
      | nil => simp at hx
      | cons b post =>
        rw [place_cons, mem_cons] at hx
        rcases hx with rfl | hx
        · simp only at *; omega
        · have := (place_bounds hx).1
          have := hpost12 b mem_cons_self
          omega
    · intro x hx
      rw [Nat.zero_add] at hx
      refine prev_congr fun a _ _ => hconf a ?_
      cases post with
      | nil => simp at hx
      | cons b post =>
        have := (place_bounds hx).1
        have := hpost12 b mem_cons_self
        omega
    · rwa [Nat.zero_add]
  case total =>
    simp only [total_append]
    omega
  case endUsed =>
    change used m s.heapEnd = 1
    refine Eq.trans (load_congr fun a _ _ => hconf a ?_) h.end_used
    omega
  case endNext =>
    change next m s.heapEnd = s.heapEnd
    refine Eq.trans (load_congr fun a _ _ => hconf a ?_) h.end_next
    omega

end Mem

end RtThread
