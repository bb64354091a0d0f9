import RtThread.Kservice.Memory

/-!
# The small-memory heap of `src/mem.c`

The allocator keeps one chain of blocks in a byte array. Every block starts with a 12-byte
`struct heap_mem`: the 16-bit `magic` and `used` fields and the 32-bit offsets `next` and `prev`.
This file translates `rt_system_heap_init`, `plug_holes`, `rt_malloc`, `rt_realloc`, `rt_calloc`,
and `rt_free`.

The memory is the array `heap_ptr[·]`, so a pointer into the heap is its offset from `heap_ptr`, and
`RT_NULL` is `none`. Sizes are `rt_size_t`, that is 32-bit words, and their arithmetic wraps. The
configuration is that of `bsp/stm32f40x/rtconfig.h`: `RT_ALIGN_SIZE` is 4 and the blocks carry no
thread name. `RT_ASSERT` halts the system (`RT_DEBUG` is defined), which is `none` here; so is a
loop that runs out of fuel. The semaphore `heap_sem` only serialises the calls and is left out, as
are the hooks and the debug log.
-/

namespace RtThread

open Lib

namespace Mem

/-- The magic number of a block. -/
def HEAP_MAGIC : ℕ := 0x1ea0

/-- The least size of a block. -/
def MIN_SIZE : ℕ := 12

/-- `MIN_SIZE_ALIGNED`. -/
def MIN_SIZE_ALIGNED : ℕ := rtAlign MIN_SIZE RT_ALIGN_SIZE

/-- `SIZEOF_STRUCT_MEM`: the 12 bytes of `struct heap_mem`, aligned. -/
def SIZEOF_STRUCT_MEM : ℕ := rtAlign 12 RT_ALIGN_SIZE

/-! ## The fields of `struct heap_mem` -/

variable (m : Bytes)

/-- `mem->magic`. -/
def magic (p : ℕ) : ℕ := m.load p 2

/-- `mem->used`. -/
def used (p : ℕ) : ℕ := m.load (p + 2) 2

/-- `mem->next`. -/
def next (p : ℕ) : ℕ := m.load (p + 4) 4

/-- `mem->prev`. -/
def prev (p : ℕ) : ℕ := m.load (p + 8) 4

variable (p v : ℕ)

/-- `magic` of a header is set. -/
def setMagic : Bytes := m.store p 2 v

/-- `used` of a header is set. -/
def setUsed : Bytes := m.store (p + 2) 2 v

/-- `next` of a header is set. -/
def setNext : Bytes := m.store (p + 4) 4 v

/-- `prev` of a header is set. -/
def setPrev : Bytes := m.store (p + 8) 4 v

/-- The static variables of `mem.c`, with the bytes of the heap. `lfree` and `heapEnd` are offsets
from `heapPtr`. -/
structure Heap where
  /-- `heap_ptr`, the address of the first block. -/
  heapPtr : ℕ
  /-- `heap_end`, the closing block. -/
  heapEnd : ℕ
  /-- `lfree`, the pointer to the lowest free block. -/
  lfree : ℕ
  /-- `mem_size_aligned`. -/
  memSizeAligned : ℕ
  /-- `used_mem`. -/
  usedMem : ℕ
  /-- `max_mem`. -/
  maxMem : ℕ
  /-- The array `heap_ptr[·]`. -/
  mem : Bytes

/-! ## `rt_system_heap_init` -/

/-- `rt_system_heap_init`, on the heap's address range and the memory found there; `none` where it
reports the range and returns. The statistics are static variables, so they start at zero. -/
def rtSystemHeapInit (beginAddr endAddr : ℕ) (m : Bytes) : Option Heap :=
  let beginAlign := rtAlign beginAddr RT_ALIGN_SIZE
  let endAlign := rtAlignDown endAddr RT_ALIGN_SIZE
  if endAlign > 2 * SIZEOF_STRUCT_MEM ∧ sub32 endAlign (2 * SIZEOF_STRUCT_MEM) ≥ beginAlign then
    let memSizeAligned := sub32 (sub32 endAlign beginAlign) (2 * SIZEOF_STRUCT_MEM)
    let last := add32 memSizeAligned SIZEOF_STRUCT_MEM
    -- The start of the heap.
    let m := setMagic m 0 HEAP_MAGIC
    let m := setNext m 0 last
    let m := setPrev m 0 0
    let m := setUsed m 0 0
    -- The end of the heap.
    let heapEnd := next m 0
    let m := setMagic m heapEnd HEAP_MAGIC
    let m := setUsed m heapEnd 1
    let m := setNext m heapEnd last
    let m := setPrev m heapEnd last
    some { heapPtr := beginAlign, heapEnd := heapEnd, lfree := 0, memSizeAligned := memSizeAligned,
           usedMem := 0, maxMem := 0, mem := m }
  else none

/-! ## `plug_holes` -/

variable (s : Heap)

/-- The forward half of `plug_holes`: `mem` absorbs the next block if it is unused and not the end
of the heap. -/
def plugForward (mem : ℕ) : Heap :=
  let nmem := next s.mem mem
  if mem ≠ nmem ∧ used s.mem nmem = 0 ∧ nmem ≠ s.heapEnd then
    let m := setNext s.mem mem (next s.mem nmem)
    { s with lfree := if s.lfree = nmem then mem else s.lfree
             mem := setPrev m (next m nmem) mem }
  else s

/-- The backward half of `plug_holes`: the previous block, if it is unused, absorbs `mem`. -/
def plugBackward (mem : ℕ) : Heap :=
  let pmem := prev s.mem mem
  if pmem ≠ mem ∧ used s.mem pmem = 0 then
    let m := setNext s.mem pmem (next s.mem mem)
    { s with lfree := if s.lfree = mem then pmem else s.lfree
             mem := setPrev m (next m mem) pmem }
  else s

/-- `plug_holes`, with its assertions. -/
def plugHoles (mem : ℕ) : Option Heap :=
  if mem < s.heapEnd ∧ used s.mem mem = 0 then some (plugBackward (plugForward s mem) mem) else none

/-! ## `rt_malloc` -/

/-- The search of `rt_malloc` from block `ptr` on: the first unused block with room for `size`
bytes, `some none` where the loop ends without one, and `none` where `fuel` iterations do not end
it. -/
def mallocSearch (s : Heap) (size : ℕ) : ℕ → ℕ → Option (Option ℕ)
  | 0, _ => none
  | fuel + 1, ptr =>
    if ptr < sub32 s.memSizeAligned size then
      if used s.mem ptr = 0 ∧ sub32 (next s.mem ptr) (add32 ptr SIZEOF_STRUCT_MEM) ≥ size then
        some (some ptr)
      else
        mallocSearch s size fuel (next s.mem ptr)
    else
      some none

/-- The branch of `rt_malloc` that splits the block found: a new unused block takes what is left of
it. -/
def mallocSplit (ptr size : ℕ) : Heap :=
  let ptr2 := add32 (add32 ptr SIZEOF_STRUCT_MEM) size
  -- Create the new block.
  let m := setMagic s.mem ptr2 HEAP_MAGIC
  let m := setUsed m ptr2 0
  let m := setNext m ptr2 (next m ptr)
  let m := setPrev m ptr2 ptr
  -- And insert it between the block and its next.
  let m := setNext m ptr ptr2
  let m := setUsed m ptr 1
  let m := if next m ptr2 ≠ add32 s.memSizeAligned SIZEOF_STRUCT_MEM then
      setPrev m (next m ptr2) ptr2 else m
  let usedMem := add32 s.usedMem (add32 size SIZEOF_STRUCT_MEM)
  { s with mem := m, usedMem := usedMem, maxMem := if s.maxMem < usedMem then usedMem else s.maxMem }

/-- The branch of `rt_malloc` that takes the block found as it is. -/
def mallocWhole (ptr : ℕ) : Heap :=
  let m := setUsed s.mem ptr 1
  let usedMem := add32 s.usedMem (sub32 (next m ptr) ptr)
  { s with mem := m, usedMem := usedMem, maxMem := if s.maxMem < usedMem then usedMem else s.maxMem }

/-- The loop that moves `lfree` to the next unused block or to the end of the heap. -/
def advanceLfree (s : Heap) : ℕ → Option Heap
  | 0 => none
  | fuel + 1 =>
    if used s.mem s.lfree ≠ 0 ∧ s.lfree ≠ s.heapEnd then
      advanceLfree { s with lfree := next s.mem s.lfree } fuel
    else
      some s

/-- The block found marked as used, after a split if that leaves room for another block. -/
def mallocMark (ptr size : ℕ) : Heap :=
  let room := sub32 (next s.mem ptr) (add32 ptr SIZEOF_STRUCT_MEM)
  let s := if room ≥ add32 (add32 size SIZEOF_STRUCT_MEM) MIN_SIZE_ALIGNED then
      mallocSplit s ptr size else mallocWhole s ptr
  { s with mem := setMagic s.mem ptr HEAP_MAGIC }

variable (fuel : ℕ)

/-- What `rt_malloc` does with the block it found. -/
def mallocTake (s : Heap) (ptr size : ℕ) : Option (Option ℕ × Heap) := do
  let s := mallocMark s ptr size
  let s ← if ptr = s.lfree then advanceLfree s fuel else some s
  guard (ptr + SIZEOF_STRUCT_MEM + size ≤ s.heapEnd)
  guard ((s.heapPtr + ptr + SIZEOF_STRUCT_MEM) % RT_ALIGN_SIZE = 0)
  some (some (ptr + SIZEOF_STRUCT_MEM), s)

/-- `rt_malloc`. -/
def rtMalloc (s : Heap) (size : ℕ) : Option (Option ℕ × Heap) :=
  if size = 0 then some (none, s)
  else
    let size := rtAlign size RT_ALIGN_SIZE
    if size > s.memSizeAligned then some (none, s)
    else
      let size := if size < MIN_SIZE_ALIGNED then MIN_SIZE_ALIGNED else size
      match mallocSearch s size fuel s.lfree with
      | none => none
      | some none => some (none, s)
      | some (some ptr) => mallocTake fuel s ptr size

/-! ## `rt_free` -/

/-- `rt_free`. A pointer outside the heap fails the second assertion. -/
def rtFree (rmem : Option ℕ) : Option Heap :=
  match rmem with
  | none => some s
  | some p => do
    guard ((s.heapPtr + p) % RT_ALIGN_SIZE = 0)
    guard (p < s.heapEnd)
    let mem := p - SIZEOF_STRUCT_MEM
    guard (used s.mem mem ≠ 0)
    guard (magic s.mem mem = HEAP_MAGIC)
    -- ... and is now unused.
    let m := setUsed s.mem mem 0
    let m := setMagic m mem HEAP_MAGIC
    let lfree := if mem < s.lfree then mem else s.lfree
    let usedMem := sub32 s.usedMem (sub32 (next m mem) mem)
    plugHoles { s with mem := m, lfree := lfree, usedMem := usedMem } mem

/-! ## `rt_realloc` -/

/-- The branch of `rt_realloc` that splits the block in place and gives its end back. -/
def reallocShrink (ptr size newsize : ℕ) : Option Heap :=
  let usedMem := sub32 s.usedMem (sub32 size newsize)
  let ptr2 := add32 (add32 ptr SIZEOF_STRUCT_MEM) newsize
  let m := setMagic s.mem ptr2 HEAP_MAGIC
  let m := setUsed m ptr2 0
  let m := setNext m ptr2 (next m ptr)
  let m := setPrev m ptr2 ptr
  let m := setNext m ptr ptr2
  let m := if next m ptr2 ≠ add32 s.memSizeAligned SIZEOF_STRUCT_MEM then
      setPrev m (next m ptr2) ptr2 else m
  plugHoles { s with mem := m, usedMem := usedMem } ptr2

/-- The user size of the block whose user area starts at `p`: `mem->next - ptr - SIZEOF_STRUCT_MEM`.
-/
def userSize (p : ℕ) : ℕ :=
  let ptr := p - SIZEOF_STRUCT_MEM
  sub32 (sub32 (next s.mem ptr) ptr) SIZEOF_STRUCT_MEM

/-- `rt_realloc`. -/
def rtRealloc (s : Heap) (rmem : Option ℕ) (newsize : ℕ) :
    Option (Option ℕ × Heap) :=
  let newsize := rtAlign newsize RT_ALIGN_SIZE
  if newsize > s.memSizeAligned then some (none, s)
  else if newsize = 0 then do
    let s ← rtFree s rmem
    some (none, s)
  else
    match rmem with
    | none => rtMalloc fuel s newsize
    | some p =>
      if p ≥ s.heapEnd then some (some p, s)
      else
        let ptr := p - SIZEOF_STRUCT_MEM
        let size := userSize s p
        if size = newsize then some (some p, s)
        else if add32 (add32 newsize SIZEOF_STRUCT_MEM) MIN_SIZE < size then do
          let s ← reallocShrink s ptr size newsize
          some (some p, s)
        else do
          -- Expand memory.
          let (nmem, s) ← rtMalloc fuel s newsize
          match nmem with
          | none => some (none, s)
          | some np =>
            let m := rtMemcpy s.mem np p (if size < newsize then size else newsize)
            let s ← rtFree { s with mem := m } (some p)
            some (some np, s)

/-! ## `rt_calloc` -/

/-- `rt_calloc`. -/
def rtCalloc (s : Heap) (count size : ℕ) : Option (Option ℕ × Heap) := do
  let (p, s) ← rtMalloc fuel s (mul32 count size)
  match p with
  | none => some (none, s)
  | some q => some (some q, { s with mem := rtMemset s.mem q 0 (mul32 count size) })

end Mem

end RtThread
