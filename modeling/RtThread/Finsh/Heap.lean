import RtThread.Kernel.Model
import RtThread.Kservice.Memory

/-!
# The heap of the shell

The model of `components/finsh/finsh_heap.c`, which keeps the string literals of the shell in an array
of 128 bytes. Every block starts with a header of two words, its length without the header and a
pointer to the next block of its list: that of the free blocks or that of the allocated ones. Memory is
addressed by its absolute addresses and `NULL` is 0. A walk along a list that passes more nodes than
the array has bytes does not end, which is the fault `fuel`. The collector is given the values of the
variables in use, and returns the blocks that it has released.
-/

namespace RtThread.Finsh

open Lib

/-- The bytes of the array. -/
def FINSH_HEAP_MAX : ℕ := 128
/-- Blocks have a multiple of this length. -/
def HEAP_ALIGNMENT : ℕ := 4

/-- `sizeof(struct finsh_block_header)`. -/
def HEADER_SIZE : ℕ := 8

/-- `HEAP_ALIGN_SIZE`. -/
def heapAlignSize (size : ℕ) : ℕ := rtAlign size HEAP_ALIGNMENT

/-! ## The words of `struct finsh_block_header` -/

variable (m : Bytes)

/-- `header->length`. -/
def blockLength (p : ℕ) : ℕ := m.load p 4

/-- `header->next`. -/
def blockNext (p : ℕ) : ℕ := m.load (p + 4) 4

/-- The field `length` of a header is set. -/
def setLength (p v : ℕ) : Bytes := m.store p 4 v

/-- The field `next` of a header is set. -/
def setNext (p v : ℕ) : Bytes := m.store (p + 4) 4 v

/-- `finsh_block_get_header`. -/
def finshBlockGetHeader (data : ℕ) : ℕ := sub32 data HEADER_SIZE

/-- `finsh_block_get_data`. -/
def finshBlockGetData (header : ℕ) : ℕ := add32 header HEADER_SIZE

/-- The heap: the address of the array `finsh_heap`, which is not null and does not wrap, the two
lists, and the memory. -/
structure Heap where
  base : ℕ
  base_pos : 0 < base
  base_le : base + FINSH_HEAP_MAX ≤ 2 ^ 32
  freeList : ℕ
  allocateList : ℕ
  mem : Bytes

/-! ## The lists -/

/-- The loop of `finsh_block_insert`: the node behind which the block belongs. -/
def insertPoint (m : Bytes) (header : ℕ) : ℕ → ℕ → Except Fault ℕ
  | 0, _ => .error .fuel
  | fuel + 1, node =>
    if blockNext m node > header then .ok node
    else if blockNext m node = 0 then .ok node
    else insertPoint m header fuel (blockNext m node)

variable (list header : ℕ)

/-- `finsh_block_insert`: the memory and the list. -/
def finshBlockInsert : Except Fault (Bytes × ℕ) :=
  if list = 0 then .ok (m, header)
  else if list > header then .ok (setNext m header list, header)
  else do
    let node ← insertPoint m header FINSH_HEAP_MAX list
    let m := if blockNext m node ≠ 0 then setNext m header (blockNext m node) else m
    return (setNext m node header, list)

/-- The loop that looks for the node in front of a block. -/
def nodeBefore (m : Bytes) (header : ℕ) : ℕ → ℕ → Except Fault ℕ
  | 0, _ => .error .fuel
  | fuel + 1, node =>
    if node = 0 then .ok 0
    else if blockNext m node = header then .ok node
    else nodeBefore m header fuel (blockNext m node)

/-- `finsh_block_remove`: the memory and the list. -/
def finshBlockRemove : Except Fault (Bytes × ℕ) :=
  if list = header then .ok (setNext m header 0, blockNext m header)
  else do
    let node ← nodeBefore m header FINSH_HEAP_MAX list
    return (if node ≠ 0 then setNext m node (blockNext m header) else m, list)

/-- `finsh_block_split`: the rest of the block becomes the next one of its list. -/
def finshBlockSplit (header size : ℕ) : Bytes :=
  let next := add32 (add32 header HEADER_SIZE) size
  let m := setLength m next (sub32 (sub32 (blockLength m header) HEADER_SIZE) size)
  let m := setLength m header size
  let m := setNext m next (blockNext m header)
  setNext m header next

/-- The block `q` begins where the block `p` ends. -/
def adjoins (p q : ℕ) : Prop := add32 (add32 p (blockLength m p)) HEADER_SIZE = q

instance (m : Bytes) (p q : ℕ) : Decidable (adjoins m p q) := inferInstanceAs (Decidable (_ = _))

/-- The block in front of `header` in the list, or `NULL`. -/
def prevNode : Except Fault ℕ :=
  if list = header then .ok 0 else nodeBefore m header FINSH_HEAP_MAX list

/-- What `finsh_block_merge` does with the nodes around a block. -/
def mergeNodes (prev header next : ℕ) : Bytes :=
  if prev ≠ 0 ∧ adjoins m prev header then
    if next ≠ 0 ∧ adjoins m header next then
      let m := setLength m prev (add32 (blockLength m prev)
        (add32 (add32 (blockLength m header) (blockLength m next)) (2 * HEADER_SIZE)))
      setNext m prev (blockNext m next)
    else
      let m := setLength m prev
        (add32 (blockLength m prev) (add32 (blockLength m header) HEADER_SIZE))
      setNext m prev (blockNext m header)
  else if next ≠ 0 ∧ adjoins m header next then
    let m := setLength m header
      (add32 (blockLength m header) (add32 (blockLength m next) HEADER_SIZE))
    setNext m header (blockNext m next)
  else m

/-- `finsh_block_merge`: the block is merged with its neighbours in the list. -/
def finshBlockMerge : Except Fault Bytes := do
  let prev ← prevNode m list header
  return mergeNodes m prev header (blockNext m header)

/-! ## The heap -/

namespace Heap

variable (h : Heap)

/-- `finsh_heap_init`: one free block. -/
def finshHeapInit : Heap :=
  let m : Bytes := fun a => if h.base ≤ a ∧ a < h.base + FINSH_HEAP_MAX then 0 else h.mem a
  let m := setLength m h.base (FINSH_HEAP_MAX - HEADER_SIZE)
  { h with freeList := h.base, allocateList := 0, mem := setNext m h.base 0 }

/-- `finsh_heap_free`: the block changes its list and is merged. -/
def finshHeapFree (ptr : ℕ) : Except Fault Heap := do
  let header := finshBlockGetHeader ptr
  let (m, allocateList) ← finshBlockRemove h.mem h.allocateList header
  let (m, freeList) ← finshBlockInsert m h.freeList header
  let m ← finshBlockMerge m freeList header
  return { h with freeList := freeList, allocateList := allocateList, mem := m }

/-- The loop of `finsh_heap_gc`: the heap, and the data of the blocks released. -/
def gcLoop (vars : List ℕ) : ℕ → Heap → ℕ → Except Fault (Heap × List ℕ)
  | 0, _, _ => .error .fuel
  | fuel + 1, h, header =>
    if header = 0 then .ok (h, [])
    else
      let next := blockNext h.mem header
      if finshBlockGetData header ∈ vars then gcLoop vars fuel h next
      else do
        let h ← h.finshHeapFree (finshBlockGetData header)
        let (h, released) ← gcLoop vars fuel h next
        return (h, finshBlockGetData header :: released)

/-- `finsh_heap_gc`, if the variables in use have the values `vars`. -/
def finshHeapGc (vars : List ℕ) : Except Fault (Heap × List ℕ) :=
  gcLoop vars FINSH_HEAP_MAX h h.allocateList

/-- The search of `finsh_heap_allocate` for a block that is not too short. -/
def firstFit (m : Bytes) (tooShort : ℕ → Bool) : ℕ → ℕ → Except Fault ℕ
  | 0, _ => .error .fuel
  | fuel + 1, header =>
    if header ≠ 0 ∧ tooShort (blockLength m header) then
      firstFit m tooShort fuel (blockNext m header)
    else .ok header

/-- The end of `finsh_heap_allocate`, with the block found. -/
def allocateAt (header size : ℕ) : Except Fault Heap := do
  let m := finshBlockSplit h.mem header size
  let (m, freeList) ← finshBlockRemove m h.freeList header
  let m := setNext m header 0
  let (m, allocateList) ← finshBlockInsert m h.allocateList header
  return { h with
    freeList := freeList
    allocateList := allocateList
    mem := rtMemset m (finshBlockGetData header) 0 size }

/-- `finsh_heap_allocate`: what it returns, the heap, and the data of the blocks that the collector
has released. The first search wants a block that is longer than needed, the second one is content
with one of the right length. -/
def finshHeapAllocate (vars : List ℕ) (size : ℕ) : Except Fault (ℕ × Heap × List ℕ) := do
  let size := heapAlignSize size
  let needed := add32 size HEADER_SIZE
  let header ← firstFit h.mem (fun length => length ≤ needed) FINSH_HEAP_MAX h.freeList
  if header ≠ 0 then
    return (finshBlockGetData header, ← h.allocateAt header size, [])
  else
    let (h, released) ← h.finshHeapGc vars
    let header ← firstFit h.mem (fun length => length < needed) FINSH_HEAP_MAX h.freeList
    if header ≠ 0 then
      return (finshBlockGetData header, ← h.allocateAt header size, released)
    else return (0, h, released)

end Heap

end RtThread.Finsh
