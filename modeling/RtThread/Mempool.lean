import Mathlib.Data.Fin.VecNotation
import Mathlib.Data.Fintype.Pi
import RtThread.Ipc.Calls
import RtThread.Kservice.Memory
import RtThread.Lib.Queue

/-!
# Memory pools

The pool of `mempool.c`, for one pool and `n` threads. A block is a cell with one word before the
bytes that the caller gets: the link to the next free block, or the address of the pool. `rt_mp_alloc`
waits while no block is free, and looks again when it goes on. `rt_mp_free` wakes one of the waiting
threads, if the pool's own count of them says that there is one; the expiry of a thread's timer takes
the thread off the list and leaves the count. The number of blocks is not checked against the size that
`rt_mp_create` asks of the heap, where the product may wrap.
-/

namespace RtThread

open Lib Function List Option Nat

variable {n : ℕ}

/-! ## The functions -/

/-- `struct rt_mempool`, with its own address. Its suspend list is the list `0`. -/
structure MemPool where
  self : ℕ
  startAddress : ℕ
  size : ℕ
  blockSize : ℕ
  blockList : ℕ
  blockTotalCount : ℕ
  blockFreeCount : ℕ
  /-- There are fewer threads than words, so the count does not wrap. -/
  suspendThreadCount : ℕ

/-- `block_size + sizeof(rt_uint8_t *)`. -/
def MemPool.stride (mp : MemPool) : ℕ := add32 mp.blockSize 4

/-- The address of a block, as the code computes it. -/
def mpBlock (startAddress stride offset : ℕ) : ℕ := add32 startAddress (mul32 offset stride)

/-- The loop of `rt_mp_init` and `rt_mp_create` over the first blocks: each is linked to the next
one. -/
def mpLinkLoop (m : Bytes) (startAddress stride : ℕ) : ℕ → Bytes
  | 0 => m
  | offset + 1 =>
    (mpLinkLoop m startAddress stride offset).store (mpBlock startAddress stride offset) 4
      (mpBlock startAddress stride (offset + 1))

variable (m : Bytes)

/-- The free list as `rt_mp_init` and `rt_mp_create` build it. -/
@[irreducible] def mpLink (mp : MemPool) : Bytes :=
  (mpLinkLoop m mp.startAddress mp.stride mp.blockTotalCount).store
    (mpBlock mp.startAddress mp.stride (sub32 mp.blockTotalCount 1)) 4 0

/-- The fields that `rt_mp_init` sets. -/
def rtMpInit (self start size blockSize : ℕ) : MemPool :=
  let size := rtAlignDown size RT_ALIGN_SIZE
  let blockSize := rtAlign blockSize RT_ALIGN_SIZE
  let count := size / add32 blockSize 4
  ⟨self, start, size, blockSize, start, count, count, 0⟩

/-- The fields that `rt_mp_create` sets, with the memory from the heap at `start`. -/
def rtMpCreate (self start blockCount blockSize : ℕ) : MemPool :=
  let blockSize := rtAlign blockSize RT_ALIGN_SIZE
  ⟨self, start, mul32 (add32 blockSize 4) blockCount, blockSize, start, blockCount, blockCount, 0⟩

/-- The part of `rt_mp_alloc` that puts the thread first on the suspend list, and starts its timer
if there is a timeout. -/
def Kernel.waitFirst (k : Kernel n) (t : Fin n) (i : ℕ) (time : Option ℕ) : Except Fault (Kernel n) :=
  let k := (rtThreadSuspend k t).1
  let k := { k with sched := { k.sched with tlist := rtListInsertAfter k.sched.tlist (.head (.wait i)) (.item t) } }
  match time with
  | some time => startThreadTimer k t time
  | none => .ok k

/-- What `rt_mp_alloc` does after a part with interrupts disabled. -/
inductive MpAlloc
  | ret
  | wait
  | took (block : ℕ)

/-- The first block of the free list is taken. -/
def rtMpTake (mp : MemPool) : Except Fault (Bytes × MemPool × ℕ) :=
  let block := mp.blockList
  if block = 0 then .error .assertion
  else .ok (m.store block 4 mp.self,
    { mp with blockFreeCount := sub32 mp.blockFreeCount 1, blockList := link m block }, block)

/-- `rt_mp_alloc` from its loop on, up to a call of `rt_schedule`, by a thread. A block is given by
the address of its first word; the caller gets the address behind it. -/
def rtMpAlloc (k : Kernel n) (m : Bytes) (mp : MemPool) (time : ℤ) :
    Except Fault (Kernel n × Bytes × MemPool × MpAlloc) :=
  if mp.blockFreeCount = 0 then
    match k.current with
    | none => .error .wild
    | some thread =>
      if time = 0 then .ok (k.setError thread (-RT_ETIMEOUT), m, mp, .ret)
      else do
        let k ← (k.setError thread RT_EOK).waitFirst thread 0 (waitTime time)
        return (k, m, { mp with suspendThreadCount := mp.suspendThreadCount + 1 }, .wait)
  else do
    let (m, mp, block) ← rtMpTake m mp
    return (k, m, mp, .took block)

/-- `rt_mp_free` of the block with the first word at `block`, up to its call of `rt_schedule`. -/
def rtMpFree (k : Kernel n) (m : Bytes) (mp : MemPool) (block : ℕ) : Except Fault (Kernel n × Bytes × MemPool) :=
  if link m block ≠ mp.self then .error .wild
  else
    let m := m.store block 4 mp.blockList
    let mp := { mp with blockFreeCount := add32 mp.blockFreeCount 1, blockList := block }
    if 0 < mp.suspendThreadCount then
      match k.sched.tlist.next (.head (.wait 0)) with
      | .head _ => .error .wild
      | .item thread =>
        .ok ((rtThreadResume (k.setError thread RT_EOK) thread).1, m,
          { mp with suspendThreadCount := mp.suspendThreadCount - 1 })
    else .ok (k, m, mp)

/-! ## Runs -/

/-- An allocation that waits, with the timeout and the tick at which the wait began. -/
inductive MpCall
  | alloc (time : ℤ) (tick : ℕ)
  deriving DecidableEq

/-- The suspend list of a call. -/
def MpCall.list : MpCall → Option ℕ
  | .alloc _ _ => some 0

/-- The threads and the pool, with the blocks handed out. -/
structure MpSys (n : ℕ) extends Callers MpCall n where
  m : Bytes
  mp : MemPool
  /-- The blocks that are handed out, by the address of the first word, and the thread that got
  each; `none` is an interrupt handler. -/
  out : List (ℕ × Option (Fin n))

/-- The steps of the threads. -/
inductive MpAct (n : ℕ)
  | env (e : Env n)
  | alloc (t : Fin n) (time : ℤ)
  /-- A call that was waiting goes on. -/
  | go (t : Fin n)
  /-- `rt_mp_alloc` with a timeout of `0` by an interrupt handler. -/
  | allocNow
  /-- `rt_mp_free` of a block that is handed out, by any thread or interrupt handler. -/
  | free (block : ℕ)
  /-- The rest of the program writes a byte that is not of the first word of a block. -/
  | write (a : ℕ) (v : UInt8)
  deriving DecidableEq

/-- The blocks of the pool, by the addresses that the code computes. -/
def MemPool.blocks (mp : MemPool) : List ℕ :=
  (range mp.blockTotalCount).map (mpBlock mp.startAddress mp.stride)

variable (s : MpSys n)

/-- A thread that is in no call runs `rt_mp_alloc`. -/
def MpSys.allocBy (t : Fin n) (time : ℤ) :
    Except Fault (Kernel n × Bytes × MemPool × MpAlloc) → Option (MpSys n)
  | .ok (k, m, mp, .ret) => some { s with k := k, m := m, mp := mp }
  | .ok (k, m, mp, .wait) =>
    some { s with
      k := k, m := m, mp := mp, doing := update s.doing t (.call (.alloc time s.k.timers.tick)) }
  | .ok (k, m, mp, .took block) => some { s with k := k, m := m, mp := mp, out := (block, some t) :: s.out }
  | .error _ => none

/-- One step. -/
def MpSys.exec : MpAct n → Option (MpSys n)
  | .env e => (s.toCallers.env e).map fun c => { s with toCallers := c }
  | .alloc t time =>
    if s.k.current = some t ∧ s.doing t = .free then s.allocBy t time (rtMpAlloc s.k s.m s.mp time) else none
  | .go t =>
    if s.k.current = some t ∧ s.k.sched.stat t = .ready then
      let s' := { s with doing := update s.doing t .free }
      match s.doing t with
      | .call (.alloc time tick) =>
        if s.k.error t ≠ RT_EOK then some s'
        else
          let time := timeLeft time (sub32 s.k.timers.tick tick)
          s'.allocBy t time (rtMpAlloc s.k s.m s.mp time)
      | _ => none
    else none
  | .allocNow =>
    if s.mp.blockFreeCount = 0 then some s
    else match rtMpTake s.m s.mp with
      | .ok (m, mp, block) => some { s with m := m, mp := mp, out := (block, none) :: s.out }
      | .error _ => none
  | .free block =>
    if block ∈ s.out.map Prod.fst then
      match rtMpFree s.k s.m s.mp block with
      | .ok (k, m, mp) => some { s with k := k, m := m, mp := mp, out := s.out.eraseP fun e => e.1 = block }
      | .error _ => none
    else none
  | .write a v =>
    if ∀ b ∈ s.mp.blocks, a < b ∨ b + 4 ≤ a then some { s with m := update s.m a v } else none

/-- A pool with at least one block that `rt_mp_init` has built in a part of the memory, or
`rt_mp_create` in what `rt_malloc` returned. -/
def MpBuilt (mp : MemPool) : Prop :=
  0 < mp.blockTotalCount ∧ mp.self < 2^32 ∧ ∃ m₀, m = mpLink m₀ mp ∧
    ((∃ self start size blockSize, 0 < start ∧ start + size ≤ 2^32 ∧ blockSize < 2^32 ∧
      mp = rtMpInit self start size blockSize) ∨
    ∃ self start blockCount blockSize, 0 < start ∧ blockCount < 2^32 ∧ blockSize < 2^32 ∧
      mp = rtMpCreate self start blockCount blockSize ∧ 0 < mp.size ∧ start + mp.size ≤ 2^32)

theorem MpBuilt.ofInit (m₀ : Bytes) {self start size blockSize : ℕ} (hself : self < 2^32) (hstart : 0 < start)
    (hbound : start + size ≤ 2^32) (hsize : blockSize < 2^32)
    (htotal : 0 < (rtMpInit self start size blockSize).blockTotalCount) :
    MpBuilt (mpLink m₀ (rtMpInit self start size blockSize)) (rtMpInit self start size blockSize) :=
  ⟨htotal, hself, m₀, rfl, .inl ⟨self, start, size, blockSize, hstart, hbound, hsize, rfl⟩⟩

theorem MpBuilt.ofCreate (m₀ : Bytes) {self start blockCount blockSize : ℕ} (hself : self < 2^32) (hstart : 0 < start)
    (hcount : 0 < blockCount ∧ blockCount < 2^32) (hsize : blockSize < 2^32)
    (hpos : 0 < (rtMpCreate self start blockCount blockSize).size)
    (hbound : start + (rtMpCreate self start blockCount blockSize).size ≤ 2^32) :
    MpBuilt (mpLink m₀ (rtMpCreate self start blockCount blockSize)) (rtMpCreate self start blockCount blockSize) :=
  ⟨hcount.1, hself, m₀, rfl,
    .inr ⟨self, start, blockCount, blockSize, hstart, hcount.2, hsize, rfl, hpos, hbound⟩⟩

/-- The runs from a kernel that has been booted, with a pool that has been made. -/
def mpSystem (n : ℕ) : System (MpSys n) (MpAct n) where
  init := fun s => s.toCallers.Boot ∧ MpBuilt s.m s.mp ∧ s.out = []
  step := fun s a s' => s.exec a = some s'

/-! ## Waiting -/

section Wait

variable {k k' : Kernel n} {v : View n} {t : Fin n} {i : ℕ}

theorem Sim.suspendFirst (h : Sim k v) (ht : v.stat t = .ready) (i : ℕ) :
    Sim { (rtThreadSuspend k t).1 with
        sched := { (rtThreadSuspend k t).1.sched with
          tlist := rtListInsertAfter (rtThreadSuspend k t).1.sched.tlist (.head (.wait i)) (.item t) } }
      ((v.suspend t).place (.wait i) (t :: (v.suspend t).lists (.wait i))) := by
  obtain ⟨hoff, hstat⟩ : (∀ hd, t ∉ (v.suspend t).lists hd) ∧ (v.suspend t).stat t = .suspend := by
    unfold View.suspend
    rw [if_pos ht]
    exact ⟨fun hd => (h.ok.nodup hd).not_mem_erase, update_self ..⟩
  have hs := h.suspend t
  have hrings := rings_rtListInsertAfter_head hs.queues.rings hoff (.wait i)
  have hok := hs.ok.toPlace (h := .wait i) hoff (fun u => mem_cons)
    (nodup_cons.mpr ⟨hoff _, hs.ok.nodup _⟩) (.inr ⟨⟨i, rfl⟩, hstat⟩)
  exact ⟨hs.queues.place (by simp) hrings, hs.stat, hs.prio, hs.error, hs.timers, hs.masks, hok, hs.current⟩

/-- The caller of `rt_mp_alloc` is put in front of the list. -/
theorem Good.blockFirst {C : Type} {list : C → Option ℕ} {s : Callers C n} {c : C} (h : Good list s)
    (ht : s.k.sched.stat t = .ready) (hc : list c = some i) {time : Option ℕ}
    (hw : (s.k.setError t RT_EOK).waitFirst t i time = .ok k') :
    Good list ⟨k', update s.doing t (.call c)⟩ ∧
      k'.sched.waiters = update s.k.sched.waiters i (t :: s.k.sched.waiters i) := by
  obtain ⟨v, hv⟩ := (h.setError t RT_EOK).sim
  have hready : v.stat t = .ready := by rw [← hv.stat]; exact ht
  have hsim := hv.suspendFirst hready i
  obtain ⟨v', hv', hlists, hstat⟩ : ∃ v', Sim k' v' ∧
      v'.lists = ((v.suspend t).place (.wait i) (t :: (v.suspend t).lists (.wait i))).lists ∧
      v'.stat = (v.suspend t).stat := by
    cases time with
    | none => exact ⟨_, Except.ok.inj hw ▸ hsim, rfl, rfl⟩
    | some time => exact ⟨_, hsim.startTimer hw, rfl, rfl⟩
  have hsuspend : (v.suspend t).lists = (v.leave t).lists ∧ (v.suspend t).stat = update v.stat t .suspend := by
    unfold View.suspend
    rw [if_pos hready]
    exact ⟨rfl, rfl⟩
  -- A ready thread is on no suspend list, so leaving the ready list changes none of them.
  have hleave : ∀ j, (v.leave t).lists (.wait j) = s.k.sched.waiters j := by
    intro j
    rw [show s.k.sched.waiters j = v.lists (.wait j) from hv.waiters j]
    exact hv.ok.erase_wait (by rw [hready]; simp) j
  have hwaiters : k'.sched.waiters = update s.k.sched.waiters i (t :: s.k.sched.waiters i) := by
    funext j
    rw [hv'.waiters, hlists]
    dsimp only [View.place]
    rw [update_apply, update_apply, hsuspend.1, hleave, hleave]
    simp
  refine ⟨h.blocked ht hc ⟨v', hv'⟩ (fun u => mem_cons) hwaiters ?_, hwaiters⟩
  rw [hv'.stat, hstat, hsuspend.2, ← hv.stat]
  rfl

end Wait

/-! ## What a step does -/

/-- What a step can do to the memory, the pool, the blocks that are handed out, and the threads that
wait. -/
inductive MpEffect (s s' : MpSys n) : MpAct n → Prop
  | quiet {a : MpAct n} (hm : s'.m = s.m) (hmp : s'.mp = s.mp) (hout : s'.out = s.out)
      (hwait : s'.k.sched.waiters 0 = s.k.sched.waiters 0) : MpEffect s s' a
  | expired (t : Fin n) (hm : s'.m = s.m) (hmp : s'.mp = s.mp) (hout : s'.out = s.out)
      (hwait : s'.k.sched.waiters 0 = (s.k.sched.waiters 0).erase t) : MpEffect s s' (.env (.expire t))
  | blocked {a : MpAct n} (t : Fin n) (hm : s'.m = s.m)
      (hmp : s'.mp = { s.mp with suspendThreadCount := s.mp.suspendThreadCount + 1 }) (hout : s'.out = s.out)
      (hwait : s'.k.sched.waiters 0 = t :: s.k.sched.waiters 0) : MpEffect s s' a
  | took {a : MpAct n} (block : ℕ) (c : Option (Fin n)) (hpos : s.mp.blockFreeCount ≠ 0)
      (htake : rtMpTake s.m s.mp = .ok (s'.m, s'.mp, block)) (hout : s'.out = (block, c) :: s.out)
      (hwait : s'.k.sched.waiters 0 = s.k.sched.waiters 0) : MpEffect s s' a
  | freed (block count : ℕ) (hmem : block ∈ s.out.map Prod.fst) (hm : s'.m = s.m.store block 4 s.mp.blockList)
      (hmp : s'.mp = { s.mp with
        blockFreeCount := add32 s.mp.blockFreeCount 1, blockList := block, suspendThreadCount := count })
      (hout : s'.out = s.out.eraseP fun e => e.1 = block)
      (hwait : s.mp.suspendThreadCount = 0 ∧ count = 0 ∧ s'.k.sched.waiters 0 = s.k.sched.waiters 0 ∨
        s.mp.suspendThreadCount = count + 1 ∧ ∃ t, s.k.sched.waiters 0 = t :: s'.k.sched.waiters 0) :
      MpEffect s s' (.free block)
  | wrote (x : ℕ) (y : UInt8) (hx : ∀ b ∈ s.mp.blocks, x < b ∨ b + 4 ≤ x) (hm : s'.m = update s.m x y)
      (hmp : s'.mp = s.mp) (hout : s'.out = s.out) (hwait : s'.k.sched.waiters 0 = s.k.sched.waiters 0) :
      MpEffect s s' (.write x y)

theorem rtMpTake_ok {m m' : Bytes} {mp mp' : MemPool} {block : ℕ} (h : rtMpTake m mp = .ok (m', mp', block)) :
    block = mp.blockList ∧ mp.blockList ≠ 0 ∧ mp'.suspendThreadCount = mp.suspendThreadCount ∧
      m' = m.store mp.blockList 4 mp.self ∧
      mp' = { mp with blockFreeCount := sub32 mp.blockFreeCount 1, blockList := link m mp.blockList } := by
  unfold rtMpTake at h
  dsimp only at h
  split_ifs at h with hzero
  obtain ⟨rfl, hrest⟩ := Prod.mk.inj (Except.ok.inj h)
  obtain ⟨rfl, rfl⟩ := Prod.mk.inj hrest
  exact ⟨rfl, hzero, rfl, rfl, rfl⟩

section Steps

variable {s s' : MpSys n} {t : Fin n} {time : ℤ}

/-- What an allocation does. -/
theorem MpSys.allocBy_effect (h : Good MpCall.list s.toCallers) (hcur : s.k.current = some t)
    (hfree : s.doing t = .free) (a : MpAct n) (hs : s.allocBy t time (rtMpAlloc s.k s.m s.mp time) = some s') :
    Good MpCall.list s'.toCallers ∧ MpEffect s s' a := by
  have hready := h.ready hcur hfree
  unfold rtMpAlloc at hs
  -- Without a free block the call returns at once, or the thread blocks; otherwise it takes a block.
  by_cases hzero : s.mp.blockFreeCount = 0
  · rw [if_pos hzero, hcur] at hs
    dsimp only at hs
    by_cases htime : time = 0
    · rw [if_pos htime] at hs
      obtain rfl := some.inj hs
      exact ⟨h.setError t (-RT_ETIMEOUT), .quiet rfl rfl rfl rfl⟩
    · rw [if_neg htime] at hs
      cases hw : (s.k.setError t RT_EOK).waitFirst t 0 (waitTime time) with
      | error e =>
        rw [hw] at hs
        cases hs
      | ok k =>
        rw [hw] at hs
        obtain rfl := some.inj hs
        obtain ⟨hgood, hwaiters⟩ := h.blockFirst (c := .alloc time s.k.timers.tick) hready rfl hw
        refine ⟨hgood, .blocked t rfl rfl rfl ?_⟩
        rw [hwaiters, update_self]
  · rw [if_neg hzero] at hs
    cases htake : rtMpTake s.m s.mp with
    | error e =>
      rw [htake] at hs
      cases hs
    | ok r =>
      obtain ⟨m, mp, block⟩ := r
      rw [htake] at hs
      obtain rfl := some.inj hs
      exact ⟨h, .took block (some t) hzero htake rfl rfl⟩

theorem Good.next_head {C : Type} {list : C → Option ℕ} {s : Callers C n} (h : Good list s) (i : ℕ) :
    s.k.sched.tlist.next (.head (.wait i)) = Node.first (.wait i) (s.k.sched.waiters i) := by
  obtain ⟨v, hv⟩ := h.sim
  rw [hv.waiters, hv.queues.rings.next_head]

theorem MpSys.free_effect (h : Good MpCall.list s.toCallers) {block : ℕ} (hs : s.exec (.free block) = some s') :
    Good MpCall.list s'.toCallers ∧ MpEffect s s' (.free block) := by
  rw [MpSys.exec] at hs
  split_ifs at hs with hmem
  unfold rtMpFree at hs
  by_cases hself : link s.m block ≠ s.mp.self
  · rw [if_pos hself] at hs
    cases hs
  rw [if_neg hself] at hs
  -- The count decides whether a thread is woken, and it must then be on the list.
  by_cases hcount : 0 < s.mp.suspendThreadCount
  · rw [if_pos hcount, h.next_head] at hs
    cases hl : s.k.sched.waiters 0 with
    | nil =>
      rw [hl] at hs
      cases hs
    | cons u l =>
      rw [hl, Node.first_cons] at hs
      obtain rfl := some.inj hs
      obtain ⟨-, hgood, hbec⟩ := (h.setError u RT_EOK).wakeHead hl
      refine ⟨hgood, .freed block _ hmem rfl rfl rfl (.inr ⟨(succ_pred_eq_of_pos hcount).symm, u, ?_⟩)⟩
      rw [hbec.waiters, update_self]
      exact hl
  · rw [if_neg hcount] at hs
    obtain rfl := some.inj hs
    have hzero : s.mp.suspendThreadCount = 0 := Nat.eq_zero_of_not_pos hcount
    exact ⟨h, .freed block _ hmem rfl rfl rfl (.inl ⟨hzero, hzero, rfl⟩)⟩

/-- What a step does to the pool and to the blocks handed out. -/
theorem MpSys.exec_effect (h : Good MpCall.list s.toCallers) {a : MpAct n} (hs : s.exec a = some s') :
    Good MpCall.list s'.toCallers ∧ MpEffect s s' a := by
  cases a with
  | env e =>
    obtain ⟨c, hc, rfl⟩ := map_eq_some_iff.mp hs
    obtain ⟨hgood, hq | ⟨t, rfl, hx⟩⟩ := h.env hc
    · exact ⟨hgood, .quiet rfl rfl rfl (congrFun hq.waiters 0)⟩
    · exact ⟨hgood, .expired t rfl rfl rfl (congrFun hx.becomes.waiters 0)⟩
  | alloc t time =>
    rw [MpSys.exec] at hs
    split_ifs at hs with hcond
    exact allocBy_effect h hcond.1 hcond.2 _ hs
  | go t =>
    rw [MpSys.exec] at hs
    obtain ⟨⟨hcur, hready⟩, hs⟩ := ite_none_right_eq_some.mp hs
    have hmove := h.move hready .free
    cases hd : s.doing t with
    | free | sleep =>
      rw [hd] at hs
      cases hs
    | call c =>
      obtain ⟨time, tick⟩ := c
      rw [hd] at hs
      dsimp only at hs
      by_cases herr : s.k.error t ≠ RT_EOK
      · rw [if_pos herr] at hs
        obtain rfl := some.inj hs
        exact ⟨hmove, .quiet rfl rfl rfl rfl⟩
      · rw [if_neg herr] at hs
        -- The effect does not depend on what the threads were doing.
        obtain ⟨hgood, heffect⟩ := allocBy_effect (s := { s with doing := update s.doing t .free })
          hmove hcur (update_self ..) (.go t) hs
        refine ⟨hgood, ?_⟩
        cases heffect with
        | quiet hm hmp hout hwait => exact .quiet hm hmp hout hwait
        | blocked u hm hmp hout hwait => exact .blocked u hm hmp hout hwait
        | took block c hpos htake hout hwait => exact .took block c hpos htake hout hwait
  | allocNow =>
    rw [MpSys.exec] at hs
    by_cases hzero : s.mp.blockFreeCount = 0
    · rw [if_pos hzero] at hs
      obtain rfl := some.inj hs
      exact ⟨h, .quiet rfl rfl rfl rfl⟩
    · rw [if_neg hzero] at hs
      cases htake : rtMpTake s.m s.mp with
      | error e =>
        rw [htake] at hs
        cases hs
      | ok r =>
        obtain ⟨m, mp, block⟩ := r
        rw [htake] at hs
        obtain rfl := some.inj hs
        exact ⟨h, .took block none hzero htake rfl rfl⟩
  | free block => exact free_effect h hs
  | write a v =>
    rw [MpSys.exec] at hs
    split_ifs at hs with ha
    obtain rfl := some.inj hs
    exact ⟨h, .wrote a v ha rfl rfl rfl rfl⟩

end Steps

/-! ## The count of waiting threads -/

/-- The timer of a thread that waits for a block does not expire. -/
def MpAct.keepsWaiters : MpAct n → Prop
  | .env (.expire t) => t ∉ s.k.sched.waiters 0
  | _ => True

instance (s : MpSys n) (a : MpAct n) : Decidable (a.keepsWaiters s) := by
  cases a with
  | env e =>
    cases e with
    | expire t => exact inferInstanceAs (Decidable (t ∉ _))
    | _ => exact isTrue trivial
  | _ => exact isTrue trivial

/-- In every run in which no timer of a thread that waits for a block expires,
`suspend_thread_count` is the number of threads on the list. So `rt_mp_free`, when it finds the
count positive, does not take the head of the list for a thread. -/
theorem suspend_count {s : MpSys n} (hs : Reachable (mpSystem n) (fun s a => a.keepsWaiters s) s) :
    s.mp.suspendThreadCount = (s.k.sched.waiters 0).length ∧
      (0 < s.mp.suspendThreadCount → ∀ hd, s.k.sched.tlist.next (.head (.wait 0)) ≠ .head hd) := by
  obtain ⟨hgood, hcount⟩ : Good MpCall.list s.toCallers ∧
      s.mp.suspendThreadCount = (s.k.sched.waiters 0).length := by
    refine hs.invariant ?_ ?_
    · rintro s ⟨hboot, ⟨-, -, m₀, -, hbuilt⟩, -⟩
      obtain ⟨hgood, hwaiters⟩ : Good MpCall.list s.toCallers ∧ _ := Good.boot hboot
      refine ⟨hgood, ?_⟩
      rw [hwaiters]
      rcases hbuilt with ⟨_, _, _, _, -, -, -, hmp⟩ | ⟨_, _, _, _, -, -, -, hmp, -⟩
      · rw [hmp]
        rfl
      · rw [hmp]
        rfl
    · rintro s a s' ⟨hgood, hcount⟩ hok hstep
      obtain ⟨hgood', heffect⟩ := MpSys.exec_effect hgood hstep
      refine ⟨hgood', ?_⟩
      cases heffect with
      | quiet hm hmp hout hwait => rw [hmp, hwait, hcount]
      -- The one step that would take a thread off the list and leave the count.
      | expired t hm hmp hout hwait =>
        rw [hmp, hwait, erase_of_not_mem hok, hcount]
      | blocked t hm hmp hout hwait =>
        rw [hmp, hwait, length_cons]
        exact congrArg (· + 1) hcount
      | took block c hpos htake hout hwait =>
        rw [hwait, ← hcount]
        exact (rtMpTake_ok htake).2.2.1
      | freed block count hmem hm hmp hout hwait =>
        rw [hmp]
        dsimp only
        rcases hwait with ⟨hzero, rfl, hwait⟩ | ⟨hsucc, t, hwait⟩
        · rw [hwait, ← hcount, hzero]
        · rw [hwait, length_cons] at hcount
          omega
      | wrote x y hx hm hmp hout hwait => rw [hmp, hwait, hcount]
  refine ⟨hcount, fun hpos hd => ?_⟩
  rw [hgood.next_head]
  cases hl : s.k.sched.waiters 0 with
  | nil =>
    rw [hl] at hcount
    exact absurd hcount (ne_of_gt hpos)
  | cons t l =>
    rw [Node.first_cons]
    simp

/-- A thread waits for the one block of a pool. -/
theorem suspend_count_run : ∃ s : MpSys 2, Reachable (mpSystem 2) (fun s a => a.keepsWaiters s) s ∧
    s.mp.suspendThreadCount = 1 ∧ (s.k.sched.waiters 0).length = 1 := by
  have hbuilt : MpBuilt (mpLink (fun _ => 0) (rtMpInit 100 8 8 4)) (rtMpInit 100 8 8 4) :=
    MpBuilt.ofInit _ (by norm_num) (by norm_num) (by norm_num) (by norm_num) (by decide)
  refine exists_reachable_and ?_ fun s hs hp => (suspend_count hs).1 ▸ hp
  refine exists_reachable_of_exec (s := ⟨.idle ![3, 4],
      mpLink (fun _ => 0) (rtMpInit 100 8 8 4), rtMpInit 100 8 8 4, []⟩)
    ⟨Callers.boot_idle (by decide), hbuilt, rfl⟩
    [.env (.startup 0), .env (.startup 1), .env .start, .alloc 0 0, .alloc 0 5] ?_
  decide

/-- A thread waits with a timeout, and the timer expires: the count stays, and `rt_mp_free` takes
the head of the list for a thread. -/
theorem timeout_leaves_count : ∃ s : MpSys 2, Reachable (mpSystem 2) always s ∧
    (s.mp.suspendThreadCount = 1 ∧ s.k.sched.waiters 0 = [] ∧ s.out.map Prod.fst = [8]) ∧
    rtMpFree s.k s.m s.mp 8 = .error .wild := by
  have hbuilt : MpBuilt (mpLink (fun _ => 0) (rtMpInit 100 8 8 4)) (rtMpInit 100 8 8 4) :=
    MpBuilt.ofInit _ (by norm_num) (by norm_num) (by norm_num) (by norm_num) (by decide)
  obtain ⟨s, hs, hp, hfree⟩ : ∃ s : MpSys 2, Reachable (mpSystem 2) always s ∧
      ((s.mp.suspendThreadCount = 1 ∧ s.k.sched.waiters 0 = [] ∧ s.out.map Prod.fst = [8]) ∧
      ((rtMpFree s.k s.m s.mp 8).map fun _ => ()) = .error .wild) := by
    refine exists_reachable_of_exec (s := ⟨.idle ![3, 4],
        mpLink (fun _ => 0) (rtMpInit 100 8 8 4), rtMpInit 100 8 8 4, []⟩)
      ⟨Callers.boot_idle (by decide),
        hbuilt, rfl⟩
      [.env (.startup 0), .env (.startup 1), .env .start, .alloc 0 0, .alloc 0 1, .env .schedule, .env (.clock 1),
        .env (.expire 0)] ?_
    decide
  refine ⟨s, hs, hp, ?_⟩
  cases hr : rtMpFree s.k s.m s.mp 8 with
  | error e =>
    rw [hr] at hfree
    exact congrArg Except.error (Except.error.inj hfree)
  | ok r =>
    rw [hr] at hfree
    cases hfree

/-! ## The blocks -/

/-- The size of the pool has not wrapped. -/
def MemPool.Fits (mp : MemPool) : Prop := mp.blockTotalCount * (mp.blockSize + 4) < 2^32

instance (mp : MemPool) : Decidable mp.Fits := by unfold MemPool.Fits; infer_instance

/-- The blocks in memory, with the free list `free`. -/
structure MpLayout (m : Bytes) (mp : MemPool) (out : List ℕ) (free : List ℕ) : Prop where
  total_pos : 0 < mp.blockTotalCount
  start_pos : 0 < mp.startAddress
  size_le : mp.blockTotalCount * (mp.blockSize + 4) ≤ mp.size
  bound : mp.startAddress + mp.size ≤ 2^32
  self_lt : mp.self < 2^32
  chain : Chain (link m) 0 mp.blockList free
  count : mp.blockFreeCount = free.length
  perm : (free ++ out).Perm (cells mp.startAddress (mp.blockSize + 4) mp.blockTotalCount)
  /-- A block that is handed out has the address of the pool. -/
  owner : ∀ b ∈ out, link m b = mp.self

theorem mpBlock_eq {start stride offset : ℕ} (h : start + offset * stride < 2^32) :
    mpBlock start stride offset = start + offset * stride := by
  unfold mpBlock
  rw [mul32_eq (by omega), add32_eq h]

namespace MpLayout

variable {m : Bytes} {mp : MemPool} {out free : List ℕ} {a b : ℕ}

section

variable (h : MpLayout m mp out free)
include h

theorem total_lt : mp.blockTotalCount < 2^32 := by
  have hle : mp.blockTotalCount ≤ mp.blockTotalCount * (mp.blockSize + 4) := Nat.le_mul_of_pos_right _ (by omega)
  have hpos := h.start_pos
  have hsize := h.size_le
  have hbound := h.bound
  omega

theorem blocks_eq : mp.blocks = cells mp.startAddress (mp.blockSize + 4) mp.blockTotalCount := by
  have hsize := h.size_le
  have hbound := h.bound
  have hpos := h.start_pos
  have hstride : mp.stride = mp.blockSize + 4 := by
    have hle : mp.blockSize + 4 ≤ mp.blockTotalCount * (mp.blockSize + 4) := Nat.le_mul_of_pos_left _ h.total_pos
    exact add32_eq (by omega)
  unfold MemPool.blocks cells
  rw [hstride]
  refine map_congr_left fun i hi => mpBlock_eq ?_
  rw [mem_range] at hi
  have hle : (i + 1) * (mp.blockSize + 4) ≤ mp.blockTotalCount * (mp.blockSize + 4) := mul_le_mul_right _ hi
  rw [succ_mul] at hle
  omega

theorem mem_cells (ha : a ∈ free ∨ a ∈ out) :
    a ∈ cells mp.startAddress (mp.blockSize + 4) mp.blockTotalCount :=
  h.perm.mem_iff.mp (mem_append.mpr ha)

theorem nodup : (free ++ out).Nodup :=
  h.perm.nodup_iff.mpr (nodup_cells (by omega))

theorem block_bounds (ha : a ∈ free ∨ a ∈ out) : a ≠ 0 ∧ a < 2^32 := by
  have hbounds := cells_bounds (h.mem_cells ha)
  have hsize := h.size_le
  have hbound := h.bound
  have hpos := h.start_pos
  exact ⟨by omega, by omega⟩

theorem list_lt : mp.blockList < 2^32 := by
  cases free with
  | nil =>
    rw [show mp.blockList = 0 from h.chain]
    norm_num
  | cons x l =>
    rw [h.chain.1]
    exact (h.block_bounds (.inl mem_cons_self)).2

theorem link_store_ne (ha : a ∈ free ∨ a ∈ out) (hb : b ∈ free ∨ b ∈ out) (hne : b ≠ a)
    (x : ℕ) : link (m.store a 4 x) b = link m b :=
  link_store_of_ne (h.mem_cells ha) (h.mem_cells hb) hne (le_add_left _ _)

theorem count_eq_zero : mp.blockFreeCount = 0 ↔ mp.blockList = 0 := by
  rw [h.count, length_eq_zero_iff]
  exact h.chain.nil_iff

theorem take (hne : mp.blockList ≠ 0) :
    ∃ free', MpLayout (m.store mp.blockList 4 mp.self)
      { mp with blockFreeCount := sub32 mp.blockFreeCount 1, blockList := link m mp.blockList }
      (mp.blockList :: out) free' := by
  obtain ⟨free', rfl, hchain⟩ := h.chain.uncons hne
  have hnodup := h.nodup
  rw [cons_append, nodup_cons] at hnodup
  have hfirst : mp.blockList ∈ mp.blockList :: free' ∨ mp.blockList ∈ out := .inl mem_cons_self
  refine ⟨free', { h with chain := hchain.congr fun b hb => ?_, count := ?_, perm := ?_, owner := fun b hb => ?_ }⟩
  · refine h.link_store_ne hfirst (.inl (mem_cons_of_mem _ hb)) ?_ _
    rintro rfl
    exact hnodup.1 (mem_append_left _ hb)
  · -- The count is positive, so it does not wrap.
    have htotal := h.total_lt
    have hcount := h.count
    have hlen := h.perm.length_eq
    rw [length_append, length_cons, length_cells] at hlen
    rw [length_cons] at hcount
    dsimp only
    rw [hcount, sub32_eq (by omega) (by omega)]
    omega
  · exact (perm_middle (a := mp.blockList)).trans h.perm
  · rcases mem_cons.mp hb with rfl | hb
    · exact link_store_self m _ h.self_lt
    · rw [h.link_store_ne hfirst (.inr hb) ?_]
      · exact h.owner b hb
      · rintro rfl
        exact hnodup.1 (mem_append_right _ hb)

theorem giveBack (ha : a ∈ out) (count : ℕ) :
    MpLayout (m.store a 4 mp.blockList)
      { mp with blockFreeCount := add32 mp.blockFreeCount 1, blockList := a, suspendThreadCount := count }
      (out.erase a) (a :: free) := by
  have hdisj := disjoint_of_nodup_append h.nodup
  have hout : out.Nodup := (nodup_append'.mp h.nodup).2.1
  refine { h with chain := ?_, count := ?_, perm := ?_, owner := fun b hb => ?_ }
  · refine h.chain.push (h.block_bounds (.inr ha)).1 (link_store_self m a h.list_lt) fun b hb => ?_
    refine h.link_store_ne (.inr ha) (.inl hb) ?_ _
    rintro rfl
    exact hdisj hb ha
  · -- There are at most as many free blocks as blocks, so the count does not wrap either.
    have htotal := h.total_lt
    have hcount := h.count
    have hlen := h.perm.length_eq
    have hpos : 0 < out.length := length_pos_of_mem ha
    rw [length_append, length_cells] at hlen
    rw [length_cons]
    rw [hcount, add32_eq (by omega)]
  · refine List.Perm.trans ?_ h.perm
    exact (perm_middle.symm).trans ((perm_cons_erase ha).symm.append_left free)
  · obtain ⟨hne, hmem⟩ := hout.mem_erase_iff.mp hb
    rw [h.link_store_ne (.inr ha) (.inr hmem) hne]
    exact h.owner b hmem

theorem write {x : ℕ} {y : UInt8} (hx : ∀ b ∈ mp.blocks, x < b ∨ b + 4 ≤ x) :
    MpLayout (update m x y) mp out free := by
  have hlink : ∀ b, b ∈ free ∨ b ∈ out → link (update m x y) b = link m b := by
    intro b hb
    have hbx := hx b (by rw [h.blocks_eq]; exact h.mem_cells hb)
    exact Bytes.load_congr fun z hz hz' => update_of_ne (by omega) ..
  exact { h with
    chain := h.chain.congr fun b hb => hlink b (.inl hb)
    owner := fun b hb => (hlink b (.inr hb)).trans (h.owner b hb) }

end

end MpLayout

/-! ### The start -/

theorem link_mpLinkLoop {start stride count i : ℕ} (hstride : 4 ≤ stride)
    (hle : start + count * stride ≤ 2^32) (hi : i < count) :
    link (mpLinkLoop m start stride count) (start + i * stride) = mpBlock start stride (i + 1) := by
  induction count with
  | zero => omega
  | succ count ih =>
    rw [succ_mul] at hle
    rw [mpLinkLoop, mpBlock_eq (by omega)]
    by_cases heq : i = count
    · subst heq
      exact link_store_self _ _ (add32_lt _ _)
    · have hcells : ∀ j < count + 1, start + j * stride ∈ cells start stride (count + 1) := fun j hj =>
        Lib.mem_cells.mpr ⟨j, hj, rfl⟩
      rw [link_store_of_ne (hcells count (by omega)) (hcells i hi) ?_ hstride]
      · exact ih (by omega) (by omega)
      · intro heq'
        exact heq (eq_of_mul_eq_mul_right (by omega) (add_left_cancel heq'))

theorem chain_mpLink (mp : MemPool) (hpos : 0 < mp.startAddress) (htotal : 0 < mp.blockTotalCount)
    (hstride : 4 ≤ mp.stride) (hle : mp.startAddress + mp.blockTotalCount * mp.stride ≤ 2^32) :
    Chain (link (mpLink m mp)) 0 mp.startAddress (cells mp.startAddress mp.stride mp.blockTotalCount) := by
  have hbound : ∀ i < mp.blockTotalCount, mp.startAddress + i * mp.stride < 2^32 := by
    intro i hi
    have hmul : (i + 1) * mp.stride ≤ mp.blockTotalCount * mp.stride := mul_le_mul_right _ hi
    rw [succ_mul] at hmul
    omega
  have hcount : mp.blockTotalCount < 2^32 := by
    have hmul : mp.blockTotalCount ≤ mp.blockTotalCount * mp.stride := Nat.le_mul_of_pos_right _ (by omega)
    omega
  -- The last block, which the code links to nothing.
  have hlast : mpBlock mp.startAddress mp.stride (sub32 mp.blockTotalCount 1) =
      mp.startAddress + (mp.blockTotalCount - 1) * mp.stride := by
    rw [sub32_eq htotal hcount, mpBlock_eq (hbound _ (by omega))]
  have hcells : ∀ j < mp.blockTotalCount,
      mp.startAddress + j * mp.stride ∈ cells mp.startAddress mp.stride mp.blockTotalCount := fun j hj =>
    Lib.mem_cells.mpr ⟨j, hj, rfl⟩
  refine chain_cells hpos htotal (fun i hi => ?_) ?_
  · unfold mpLink
    rw [hlast, link_store_of_ne (hcells _ (by omega)) (hcells i (by omega)) ?_ hstride]
    · rw [link_mpLinkLoop m hstride hle (by omega), mpBlock_eq (hbound _ hi)]
    · intro heq
      have := eq_of_mul_eq_mul_right (by omega) (add_left_cancel heq)
      omega
  · unfold mpLink
    rw [hlast]
    exact link_store_self _ _ (Nat.two_pow_pos 32)

/-- A pool that does not wrap starts with all of its blocks free. -/
theorem MpBuilt.layout {m : Bytes} {mp : MemPool} (h : MpBuilt m mp) (hfit : mp.Fits) :
    ∃ free, MpLayout m mp [] free := by
  obtain ⟨htotal, hself, m₀, rfl, hbuilt⟩ := h
  unfold MemPool.Fits at hfit
  have hstride : mp.stride = mp.blockSize + 4 := by
    have hle : mp.blockSize + 4 ≤ mp.blockTotalCount * (mp.blockSize + 4) := Nat.le_mul_of_pos_left _ htotal
    exact add32_eq (by omega)
  obtain ⟨hpos, hbound, hlist, hcount, hsize⟩ : 0 < mp.startAddress ∧ mp.startAddress + mp.size ≤ 2^32 ∧
      mp.blockList = mp.startAddress ∧ mp.blockFreeCount = mp.blockTotalCount ∧
      mp.blockTotalCount * (mp.blockSize + 4) ≤ mp.size := by
    rcases hbuilt with ⟨self, start, size, blockSize, hpos, hbound, -, rfl⟩ |
      ⟨self, start, blockCount, blockSize, hpos, -, -, rfl, -, hbound⟩
    · have hdown : rtAlignDown size RT_ALIGN_SIZE ≤ size := by
        rw [rtAlignDown_four (by omega)]
        exact Nat.div_mul_le_self _ _
      refine ⟨hpos, ?_, rfl, rfl, ?_⟩
      · exact le_trans (Nat.add_le_add_left hdown _) hbound
      · rw [← hstride]
        exact Nat.div_mul_le_self _ _
    · refine ⟨hpos, hbound, rfl, rfl, ?_⟩
      -- The product is the one that does not wrap.
      change blockCount * (rtAlign blockSize RT_ALIGN_SIZE + 4) < 2^32 at hfit
      change blockCount * (rtAlign blockSize RT_ALIGN_SIZE + 4) ≤ mul32 (add32 (rtAlign blockSize RT_ALIGN_SIZE) 4) blockCount
      rw [show add32 (rtAlign blockSize RT_ALIGN_SIZE) 4 = rtAlign blockSize RT_ALIGN_SIZE + 4 from hstride,
        mul_comm, mul32_eq (by rw [mul_comm]; exact hfit)]
  have hchain := chain_mpLink m₀ mp hpos htotal (by rw [hstride]; exact le_add_left _ _)
    (by rw [hstride]; exact le_trans (Nat.add_le_add_left hsize _) hbound)
  rw [hstride] at hchain
  refine ⟨cells mp.startAddress (mp.blockSize + 4) mp.blockTotalCount, htotal, hpos, hsize, hbound, hself, ?_, ?_, ?_,
    by simp⟩
  · rw [hlist]
    exact hchain
  · rw [hcount, length_cells]
  · rw [append_nil]

/-! ### Every run -/

/-- `rt_mp_free` is not called while the count of waiting threads is positive and the list is empty.
-/
def MpAct.findsThread : MpAct n → Prop
  | .free _ => 0 < s.mp.suspendThreadCount → s.k.sched.waiters 0 ≠ []
  | _ => True

instance (s : MpSys n) (a : MpAct n) : Decidable (a.findsThread s) := by
  cases a <;> unfold MpAct.findsThread <;> infer_instance

/-- The blocks of a pool: the free list has `block_free_count` different blocks, each block of the
pool is on it or handed out to one caller, and the areas behind the first words are inside the pool
and apart from each other. -/
def MpSys.Sound : Prop :=
  ∃ free, Chain (link s.m) 0 s.mp.blockList free ∧ free.Nodup ∧ free.length = s.mp.blockFreeCount ∧
    (free ++ s.out.map Prod.fst).Perm s.mp.blocks ∧ s.mp.blocks.Nodup ∧
    (∀ a ∈ s.mp.blocks, ∀ b ∈ s.mp.blocks, a ≠ b →
      a + 4 + s.mp.blockSize ≤ b + 4 ∨ b + 4 + s.mp.blockSize ≤ a + 4) ∧
    ∀ a ∈ s.mp.blocks, s.mp.startAddress ≤ a + 4 ∧ a + 4 + s.mp.blockSize ≤ s.mp.startAddress + s.mp.size

theorem map_fst_eraseP {C : Type} (out : List (ℕ × C)) (block : ℕ) :
    (out.eraseP fun e => e.1 = block).map Prod.fst = (out.map Prod.fst).erase block := by
  rw [erase_eq_eraseP', eraseP_map]
  congr 2

/-- A step moves blocks between the free list and the callers only. -/
theorem MpEffect.layout {s s' : MpSys n} {a : MpAct n} (h : MpEffect s s' a) (hfit : s'.mp.Fits)
    (hlayout : s.mp.Fits → ∃ free, MpLayout s.m s.mp (s.out.map Prod.fst) free) :
    ∃ free, MpLayout s'.m s'.mp (s'.out.map Prod.fst) free := by
  cases h with
  | quiet hm hmp hout hwait | expired t hm hmp hout hwait =>
    rw [hmp] at hfit
    rw [hm, hmp, hout]
    exact hlayout hfit
  -- The pool's count of waiting threads is not part of the layout.
  | blocked t hm hmp hout hwait =>
    rw [hmp] at hfit
    obtain ⟨free, hlay⟩ := hlayout hfit
    rw [hm, hmp, hout]
    exact ⟨free, { hlay with }⟩
  | took block c hpos htake hout hwait =>
    obtain ⟨rfl, hne, -, hm, hmp⟩ := rtMpTake_ok htake
    rw [hmp] at hfit
    obtain ⟨free, hlay⟩ := hlayout hfit
    rw [hm, hmp, hout]
    exact hlay.take hne
  | freed block count hmem hm hmp hout hwait =>
    rw [hmp] at hfit
    obtain ⟨free, hlay⟩ := hlayout hfit
    rw [hm, hmp, hout, map_fst_eraseP]
    exact ⟨_, hlay.giveBack hmem count⟩
  | wrote x y hx hm hmp hout hwait =>
    rw [hmp] at hfit
    obtain ⟨free, hlay⟩ := hlayout hfit
    rw [hm, hmp, hout]
    exact ⟨free, hlay.write hx⟩

/-- In every run, if the size of all blocks does not wrap, and as long as `rt_mp_free` finds a
thread where the count says that one waits, the blocks are as they should be. A block is then found
if one is free, and every block that is handed out can be freed. -/
theorem mp_blocks {s : MpSys n} (hs : Reachable (mpSystem n) (fun s a => a.findsThread s) s) (hfit : s.mp.Fits) :
    s.Sound ∧ (s.mp.blockFreeCount ≠ 0 → ∃ r, rtMpTake s.m s.mp = .ok r) ∧
      ∀ block ∈ s.out.map Prod.fst, MpAct.findsThread s (.free block) → ∃ r, rtMpFree s.k s.m s.mp block = .ok r := by
  obtain ⟨hgood, hlayout⟩ : Good MpCall.list s.toCallers ∧
      (s.mp.Fits → ∃ free, MpLayout s.m s.mp (s.out.map Prod.fst) free) := by
    refine hs.invariant ?_ ?_
    · rintro s ⟨hboot, hbuilt, hout⟩
      refine ⟨(Good.boot hboot).1, fun hfit => ?_⟩
      rw [hout]
      exact hbuilt.layout hfit
    · rintro s a s' ⟨hgood, hlayout⟩ - hstep
      obtain ⟨hgood', heffect⟩ := MpSys.exec_effect hgood hstep
      exact ⟨hgood', fun hfit => heffect.layout hfit hlayout⟩
  -- What the layout says, in terms of the blocks of the pool.
  obtain ⟨free, h⟩ := hlayout hfit
  refine ⟨⟨free, h.chain, (nodup_append'.mp h.nodup).1, h.count.symm, ?_, ?_, fun a ha b hb hne => ?_,
    fun a ha => ?_⟩, fun hpos => ?_, fun block hmem hfinds => ?_⟩
  · rw [h.blocks_eq]
    exact h.perm
  · rw [h.blocks_eq]
    exact nodup_cells (by omega)
  · rw [h.blocks_eq] at ha hb
    have hapart := cells_apart ha hb hne
    omega
  · rw [h.blocks_eq] at ha
    have hbounds := cells_bounds ha
    have hsize := h.size_le
    omega
  · have hne : s.mp.blockList ≠ 0 := fun hzero => hpos (h.count_eq_zero.mpr hzero)
    unfold rtMpTake
    rw [if_neg hne]
    exact ⟨_, rfl⟩
  · unfold rtMpFree
    rw [if_neg (not_not.mpr (h.owner block hmem))]
    dsimp only
    by_cases hcount : 0 < s.mp.suspendThreadCount
    · rw [if_pos hcount, hgood.next_head]
      cases hl : s.k.sched.waiters 0 with
      | nil => exact absurd hl (hfinds hcount)
      | cons t l => exact ⟨_, rfl⟩
    · rw [if_neg hcount]
      exact ⟨_, rfl⟩

/-- A thread takes one of two blocks, an interrupt handler takes the other, the thread waits for a
third, and gets the one that is freed. -/
theorem mp_blocks_run : ∃ s : MpSys 2, Reachable (mpSystem 2) (fun s a => a.findsThread s) s ∧ s.mp.Fits ∧
    (s.out.map Prod.fst = [16, 8] ∧ s.mp.blockFreeCount = 0) ∧ s.Sound := by
  have hbuilt : MpBuilt (mpLink (fun _ => 0) (rtMpInit 100 8 19 3)) (rtMpInit 100 8 19 3) :=
    MpBuilt.ofInit _ (by norm_num) (by norm_num) (by norm_num) (by norm_num) (by decide)
  obtain ⟨s, hs, hfit, hp⟩ : ∃ s : MpSys 2, Reachable (mpSystem 2) (fun s a => a.findsThread s) s ∧
      (s.mp.Fits ∧ s.out.map Prod.fst = [16, 8] ∧ s.mp.blockFreeCount = 0) := by
    refine exists_reachable_of_exec (s := ⟨.idle ![3, 4],
        mpLink (fun _ => 0) (rtMpInit 100 8 19 3), rtMpInit 100 8 19 3, []⟩)
      ⟨Callers.boot_idle (by decide),
        hbuilt, rfl⟩
      [.env (.startup 0), .env (.startup 1), .env .start, .alloc 0 0, .allocNow, .write 12 7, .alloc 0 (-1),
        .env .schedule, .free 16, .env .schedule, .go 0] ?_
    decide +kernel
  exact ⟨s, hs, hfit, hp, (mp_blocks hs hfit).1⟩

/-- `rt_mp_create` with `2^29 + 1` blocks of four bytes asks the heap for eight bytes, which it may
get. -/
theorem wrapped_pool : ∃ s : MpSys 1, Reachable (mpSystem 1) always s ∧
    s.mp = rtMpCreate 100 8 (2^29 + 1) 4 ∧ s.mp.size = 8 ∧ ¬s.Sound := by
  have hbuilt : MpBuilt (mpLink (fun _ => 0) (rtMpCreate 100 8 (2^29 + 1) 4)) (rtMpCreate 100 8 (2^29 + 1) 4) :=
    MpBuilt.ofCreate _ (by norm_num) (by norm_num) (by norm_num) (by norm_num) (by decide)
      (by decide)
  refine ⟨⟨.idle ![3],
    mpLink (fun _ => 0) (rtMpCreate 100 8 (2^29 + 1) 4), rtMpCreate 100 8 (2^29 + 1) 4, []⟩,
    .init ⟨Callers.boot_idle (by decide),
      hbuilt, rfl⟩, rfl, by decide, ?_⟩
  rintro ⟨free, -, hnodup, hlen, hperm, -, -, hinside⟩
  -- The blocks inside the pool have small addresses, so there are few of them.
  have hsub : ∀ a ∈ free, a ∈ range 9 := by
    intro a ha
    have hmem := hperm.mem_iff.mp (mem_append_left _ ha)
    obtain ⟨-, hle⟩ : 8 ≤ a + 4 ∧ a + 4 + 4 ≤ 8 + 8 := hinside a hmem
    rw [mem_range]
    omega
  have hle := (hnodup.subperm hsub).length_le
  rw [length_range, hlen] at hle
  change 2^29 + 1 ≤ 9 at hle
  omega

end RtThread
