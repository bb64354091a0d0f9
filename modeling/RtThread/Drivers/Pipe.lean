import RtThread.Drivers.Ringbuffer
import RtThread.Drivers.Waitqueue

/-!
# Pipes

A pipe is a ring buffer with a count of its open reading and writing ends, a mutex, and a wait queue
for either side. The threads that read, write or close it are at places between the sections of the
code (`PipePc`): a section under the mutex, a section with interrupts off, or a look at a counter
without the mutex. A read returns 0 if it finds that no writing end is open, without a look at the
ring buffer; and the counters have 8 bits.
-/

namespace RtThread

open Lib Function List Option

/-- `fd->flags & O_ACCMODE`. -/
inductive AccMode
  | rdonly
  | wronly
  | rdwr
  deriving DecidableEq

/-- `rt_pipe_t` without its lock and its wait queues. There is no `fifo` while nobody has the pipe
open. -/
structure PipeDev where
  fifo : Option Ringbuffer
  bufsz : ℕ
  readers : ℕ
  writers : ℕ
  refCount : ℕ

/-- `rt_ringbuffer_create` with memory `pool`. The size is handed on as a signed number of 16 bits.
-/
def rtRingbufferCreate (pool : ℕ → UInt8) (size : ℕ) : Except Fault Ringbuffer :=
  if 0 < size then
    if rtAlignDown size RT_ALIGN_SIZE < 2^15 then rtRingbufferInit pool (rtAlignDown size RT_ALIGN_SIZE)
    else .error .assertion
  else .error .assertion

variable (p : PipeDev)

/-- The ends that a descriptor opens, counted in 8 bits. -/
def PipeDev.count (mode : AccMode) : PipeDev :=
  match mode with
  | .rdonly => { p with readers := (p.readers + 1) % 2^8 }
  | .wronly => { p with writers := (p.writers + 1) % 2^8 }
  | .rdwr => { p with readers := (p.readers + 1) % 2^8, writers := (p.writers + 1) % 2^8 }

/-- The ends that a descriptor closes. -/
def PipeDev.uncount (mode : AccMode) : PipeDev :=
  match mode with
  | .rdonly => { p with readers := (p.readers + 255) % 2^8 }
  | .wronly => { p with writers := (p.writers + 255) % 2^8 }
  | .rdwr => { p with readers := (p.readers + 255) % 2^8, writers := (p.writers + 255) % 2^8 }

/-- `pipe_fops_open`: the first open creates the ring buffer, and the ends are counted. -/
def pipeFopsOpen (pool : ℕ → UInt8) (p : PipeDev) (mode : AccMode) : Except Fault PipeDev := do
  let fifo ← if p.refCount = 0 then some <$> rtRingbufferCreate pool p.bufsz else pure p.fifo
  let p := PipeDev.count { p with fifo := fifo } mode
  return { p with refCount := (p.refCount + 1) % 2^8 }

/-- The two wait queues of a pipe. -/
inductive PipeQueue
  | readers
  | writers
  deriving DecidableEq

/-- `pipe_fops_close`: the pipe, and the queues that are woken. They are woken before the ring
buffer is destroyed, but the lock is held all the time. -/
def pipeFopsClose (mode : AccMode) : PipeDev × List PipeQueue :=
  let p := p.uncount mode
  let queues := (if p.writers = 0 then [PipeQueue.readers] else []) ++ (if p.readers = 0 then [PipeQueue.writers] else [])
  ({ p with
    fifo := if p.refCount = 1 then none else p.fifo
    refCount := (p.refCount + 255) % 2^8 }, queues)

/-- A read under way: the bytes so far, and how many are asked for. -/
structure PipeRead where
  buf : ℕ → UInt8
  count : ℕ

/-- A call of `pipe_fops_write` with its local variables. -/
structure PipeWrite where
  buf : ℕ → UInt8
  count : ℕ
  ret : ℕ
  wakeup : Bool

/-- Where a thread is. The descriptors are blocking ones. -/
inductive PipePc
  | idle
  /-- `pipe_fops_read` is going to look whether there are writers. -/
  | read (c : PipeRead)
  /-- It is going to take the lock. -/
  | readPass (c : PipeRead)
  /-- It has found nothing, has released the lock and wakes a writer. -/
  | readEmpty (c : PipeRead) (w : WakePc)
  | readWait (c : PipeRead) (w : WaitPc)
  /-- It has read something and wakes a writer, with the lock. -/
  | readDone (w : WakePc)
  | write (c : PipeWrite)
  | writePass (c : PipeWrite)
  /-- `pipe_fops_write` has something left, has released the lock and wakes a reader. -/
  | writeWake (c : PipeWrite) (w : WakePc)
  | writeWait (c : PipeWrite) (w : WaitPc)
  /-- It has come to its end and wakes a reader. -/
  | writeDone (w : WakePc)
  /-- `pipe_fops_close` wakes the queues, with the lock. -/
  | closing (queues : List PipeQueue) (w : WakePc)
  /-- The thread is going to release the lock and to return. -/
  | release

/-- A read that has returned 0, with the number of writing ends that were open, the bytes that had
been accepted and the bytes that had been returned. -/
structure PipeEnd where
  writers : ℕ
  accepted : List UInt8
  returned : List UInt8

/-- A pipe, its threads and the descriptors that are open, with the bytes that writes have accepted,
the bytes that reads have returned, and the reads that have returned 0. -/
structure PipeSys (n : ℕ) where
  dev : PipeDev
  lock : Option (Fin n)
  wq : Wqueues PipeQueue n
  pc : Fin n → PipePc
  fds : AccMode → ℕ
  accepted : List UInt8
  returned : List UInt8
  ends : List PipeEnd

/-- A step: a descriptor is opened, a thread calls a function, or a thread goes on. -/
inductive PipeAct (n : ℕ)
  | open (mode : AccMode) (pool : ℕ → UInt8)
  | close (t : Fin n) (mode : AccMode)
  | read (t : Fin n) (c : PipeRead)
  | write (t : Fin n) (buf : ℕ → UInt8) (count : ℕ)
  | run (t : Fin n)

namespace PipeSys

variable {n : ℕ} (s : PipeSys n) (t : Fin n)

/-- The thread goes to a place. -/
def goto (pc : PipePc) : PipeSys n := { s with pc := update s.pc t pc }

/-- The next step of `rt_wqueue_wakeup`, after which the thread is at `again` or `next`. -/
def wake (q : PipeQueue) (w : WakePc) (again : WakePc → PipePc) (next : PipePc) : PipeSys n :=
  let r := s.wq.rtWqueueWakeup q w
  { s.goto t (r.2.elim next again) with wq := r.1 }

/-- The next step of `rt_wqueue_wait`, after which the thread is at `again` or `next`. -/
def wait (q : PipeQueue) (w : WaitPc) (again : WaitPc → PipePc) (next : PipePc) : Option (PipeSys n) :=
  (s.wq.rtWqueueWait q t w).map fun r => { s.goto t (r.2.elim next again) with wq := r.1 }

/-- A read returns 0, and the run keeps what was open and what was read. -/
def endOfFile : PipeSys n :=
  { s.goto t .idle with ends := s.ends ++ [⟨s.fds .wronly + s.fds .rdwr, s.accepted, s.returned⟩] }

/-- A pass through the loop of `pipe_fops_read`. A null `fifo` fails an assertion. -/
def readPass (c : PipeRead) : Option (PipeSys n) :=
  if s.lock = none then
    if s.dev.writers = 0 then some (s.endOfFile t)
    else s.dev.fifo.map fun rb =>
      let r := rtRingbufferGet rb c.buf (c.count % 2^16)
      if 0 < r.2.1 then
        { s.goto t (.readDone .check) with
          dev := { s.dev with fifo := some r.1 }
          lock := some t
          returned := s.returned ++ (range r.2.1).map r.2.2 }
      else { s.goto t (.readEmpty c .check) with dev := { s.dev with fifo := some r.1 } }
  else none

/-- A pass through the loop of `pipe_fops_write`. -/
def writePass (c : PipeWrite) : Option (PipeSys n) :=
  if s.lock = none then
    if s.dev.readers = 0 then some (s.goto t (if c.wakeup = true then .writeDone .check else .idle))
    else s.dev.fifo.map fun rb =>
      let r := rtRingbufferPut rb (fun i => c.buf (c.ret + i)) ((c.count - c.ret) % 2^16)
      let ret := c.ret + r.2
      { s.goto t (if ret = c.count then .writeDone .check else .writeWake ⟨c.buf, c.count, ret, true⟩ .check) with
        dev := { s.dev with fifo := some r.1 }
        accepted := s.accepted ++ (range r.2).map fun i => c.buf (c.ret + i) }
  else none

/-- One section of the thread, at the place where it is. -/
def run : Option (PipeSys n) :=
  match s.pc t with
  | .idle => none
  | .read c => some (if s.dev.writers = 0 then s.endOfFile t else s.goto t (.readPass c))
  | .readPass c => s.readPass t c
  | .readEmpty c w => some (s.wake t .writers w (.readEmpty c) (.readWait c .add))
  | .readWait c w => s.wait t .readers w (.readWait c) (.readPass c)
  | .readDone w => some (s.wake t .writers w .readDone .release)
  | .write c => some (s.goto t (if s.dev.readers = 0 ∨ c.count = 0 then .idle else .writePass c))
  | .writePass c => s.writePass t c
  | .writeWake c w => some (s.wake t .readers w (.writeWake c) (.writeWait c .add))
  | .writeWait c w => s.wait t .writers w (.writeWait c) (.writePass c)
  | .writeDone w => some (s.wake t .readers w .writeDone .idle)
  | .closing [] _ => some (s.goto t .release)
  | .closing (q :: queues) w => some (s.wake t q w (.closing (q :: queues)) (.closing queues .check))
  | .release => some { s.goto t .idle with lock := none }

end PipeSys

/-- The thread is in no call. -/
def PipePc.isIdle : PipePc → Bool
  | .idle => true
  | _ => false

/-- The state after the step, if it can be taken. A reading end stays open. -/
def PipeAct.exec {n : ℕ} (s : PipeSys n) : PipeAct n → Option (PipeSys n)
  | .open mode pool =>
    if s.lock = none then
      match pipeFopsOpen pool s.dev mode with
      | .ok dev => some { s with dev := dev, fds := update s.fds mode (s.fds mode + 1) }
      | .error _ => none
    else none
  | .close t mode =>
    let fds := update s.fds mode (s.fds mode - 1)
    if s.lock = none ∧ (s.pc t).isIdle = true ∧ 0 < s.fds mode ∧ 0 < fds .rdonly + fds .rdwr then
      let r := pipeFopsClose s.dev mode
      some { s.goto t (.closing r.2 .check) with dev := r.1, lock := some t, fds := fds }
    else none
  | .read t c => if (s.pc t).isIdle = true then some (s.goto t (.read c)) else none
  | .write t buf count => if (s.pc t).isIdle = true then some (s.goto t (.write ⟨buf, count, 0, false⟩)) else none
  | .run t => s.run t

/-- The runs of a pipe that `rt_pipe_create` has created and that has been opened for reading. -/
def pipeSystem (n bufsz : ℕ) : System (PipeSys n) (PipeAct n) where
  init s := bufsz < 2^16 ∧ ∃ pool dev, pipeFopsOpen pool ⟨none, bufsz, 0, 0, 0⟩ .rdonly = .ok dev ∧
    s = { dev := dev
          lock := none
          wq := ⟨fun _ => [], fun _ => false⟩
          pc := fun _ => .idle
          fds := fun mode => if mode = .rdonly then 1 else 0
          accepted := []
          returned := []
          ends := [] }
  step s a s' := a.exec s = some s'

/-- The number of bytes in the pipe. -/
def PipeDev.dataLen : ℕ := p.fifo.elim 0 rtRingbufferDataLen

/-! ## Order and end of file -/

/-- The thread is going to look whether there are writers. -/
def PipePc.tests : PipePc → Bool
  | .read _ | .readPass _ => true
  | _ => false

/-- A read that finds no writing end open finds the ring buffer empty, and fewer than 256
descriptors are open at once. -/
def PipeAct.drained {n : ℕ} (s : PipeSys n) : PipeAct n → Prop
  | .open _ _ => s.dev.refCount < 255
  | .run t => (s.pc t).tests = true → s.dev.writers = 0 → s.dev.dataLen = 0
  | .close _ _ | .read _ _ | .write _ _ _ => True

instance {n : ℕ} (s : PipeSys n) (a : PipeAct n) : Decidable (a.drained s) := by
  cases a <;> unfold PipeAct.drained <;> infer_instance

/-- The counters of the pipe are those of the open descriptors, and have not wrapped. -/
structure Counted (p : PipeDev) (fds : AccMode → ℕ) : Prop where
  readers : p.readers = fds .rdonly + fds .rdwr
  writers : p.writers = fds .wronly + fds .rdwr
  refCount : p.refCount = fds .rdonly + fds .wronly + fds .rdwr
  small : p.refCount < 2^8

theorem Counted.opens {p : PipeDev} {fds : AccMode → ℕ} (h : Counted p fds) (hroom : p.refCount < 255) (mode : AccMode) :
    Counted { p.count mode with refCount := ((p.count mode).refCount + 1) % 2^8 }
      (update fds mode (fds mode + 1)) := by
  obtain ⟨hreaders, hwriters, hcount, -⟩ := h
  cases mode <;> constructor <;> simp [PipeDev.count] <;> omega

variable {mode : AccMode}

theorem Counted.closes {p : PipeDev} {fds : AccMode → ℕ} (h : Counted p fds) (hpos : 0 < fds mode) :
    Counted (pipeFopsClose p mode).1 (update fds mode (fds mode - 1)) := by
  obtain ⟨hreaders, hwriters, hcount, hsmall⟩ := h
  cases mode <;> constructor <;> simp [pipeFopsClose, PipeDev.uncount] <;> omega

/-- The counters count the descriptors, the ring buffer holds the bytes that have been accepted and
not returned, and every end of file was right. -/
structure PipeInv {n : ℕ} (s : PipeSys n) : Prop where
  fifo : ∃ rb used, s.dev.fifo = some rb ∧ Filled rb used ∧ s.accepted = s.returned ++ rb.view
  counted : Counted s.dev s.fds
  opened : 0 < s.fds .rdonly + s.fds .rdwr
  ends : ∀ e ∈ s.ends, e.writers = 0 ∧ e.returned = e.accepted

variable {pool : ℕ → UInt8} {rb : Ringbuffer} {bufsz : ℕ}

section

variable {n : ℕ} {s s' : PipeSys n} {t : Fin n}

/-- Two states with the same device, the same descriptors and the same bytes. -/
structure SameData (s s' : PipeSys n) : Prop where
  dev : s'.dev = s.dev
  fds : s'.fds = s.fds
  accepted : s'.accepted = s.accepted
  returned : s'.returned = s.returned
  ends : s'.ends = s.ends

/-- What one section can do to the device and to what the run keeps. -/
theorem PipeSys.run_cases (hs : s.run t = some s') :
    (∃ c, s.pc t = .read c ∧ s.dev.writers = 0 ∧ s' = s.endOfFile t) ∨
      (∃ c, s.pc t = .readPass c ∧ s.readPass t c = some s') ∨ (∃ c, s.pc t = .writePass c ∧ s.writePass t c = some s') ∨
      SameData s s' := by
  have hsame : ∀ pc wq lock, SameData s { s with pc := pc, wq := wq, lock := lock } :=
    fun _ _ _ => ⟨rfl, rfl, rfl, rfl, rfl⟩
  unfold PipeSys.run at hs
  cases hpc : s.pc t with
  | idle =>
    rw [hpc] at hs
    cases hs
  | read c =>
    rw [hpc] at hs
    cases hs
    by_cases hwriters : s.dev.writers = 0
    · rw [if_pos hwriters]
      exact .inl ⟨c, rfl, hwriters, rfl⟩
    · rw [if_neg hwriters]
      exact .inr (.inr (.inr (hsame _ _ _)))
  | readPass c =>
    rw [hpc] at hs
    exact .inr (.inl ⟨c, rfl, hs⟩)
  | writePass c =>
    rw [hpc] at hs
    exact .inr (.inr (.inl ⟨c, rfl, hs⟩))
  | readWait c w | writeWait c w =>
    rw [hpc] at hs
    obtain ⟨r, -, rfl⟩ := map_eq_some_iff.mp hs
    exact .inr (.inr (.inr (hsame _ _ _)))
  | closing queues w =>
    rw [hpc] at hs
    cases queues <;> cases hs <;> exact .inr (.inr (.inr (hsame _ _ _)))
  | readEmpty c w | writeWake c w | readDone w | writeDone w | write c | release =>
    rw [hpc] at hs
    cases hs
    exact .inr (.inr (.inr (hsame _ _ _)))

namespace PipeInv

theorem same (h : PipeInv s) (hsame : SameData s s') : PipeInv s' := by
  obtain ⟨dev, lock, wq, pc, fds, accepted, returned, ends⟩ := s'
  obtain ⟨rfl, rfl, rfl, rfl, rfl⟩ := hsame
  exact ⟨h.fifo, h.counted, h.opened, h.ends⟩

theorem endOfFile (h : PipeInv s) (hwriters : s.dev.writers = 0) (hempty : s.dev.dataLen = 0) :
    PipeInv (s.endOfFile t) := by
  obtain ⟨rb, used, hfifo, hfilled, hbytes⟩ := h.fifo
  have hzero : used = 0 := by
    unfold PipeDev.dataLen at hempty
    rw [hfifo] at hempty
    exact hfilled.dataLen.symm.trans hempty
  have hnil : rb.view = [] := length_eq_zero_iff.mp (hfilled.length_view.trans hzero)
  refine ⟨h.fifo, h.counted, h.opened, fun e he => ?_⟩
  rcases mem_append.mp he with hold | hnew
  · exact h.ends e hold
  · rw [mem_singleton.mp hnew]
    refine ⟨h.counted.writers.symm.trans hwriters, ?_⟩
    rw [hbytes, hnil, append_nil]

theorem data (h : PipeInv s) {used : ℕ} (hfilled : Filled rb used)
    (hdev : s'.dev = { s.dev with fifo := some rb }) (hfds : s'.fds = s.fds) (hends : s'.ends = s.ends)
    (hbytes : s'.accepted = s'.returned ++ rb.view) : PipeInv s' := by
  constructor
  · exact ⟨rb, used, by rw [hdev], hfilled, hbytes⟩
  · rw [hdev, hfds]
    exact ⟨h.counted.readers, h.counted.writers, h.counted.refCount, h.counted.small⟩
  · rw [hfds]
    exact h.opened
  · rw [hends]
    exact h.ends

theorem readPass {c : PipeRead} (h : PipeInv s) (hdrained : s.dev.writers = 0 → s.dev.dataLen = 0)
    (hs : s.readPass t c = some s') : PipeInv s' := by
  obtain ⟨hlock, hs⟩ := ite_none_right_eq_some.mp hs
  by_cases hwriters : s.dev.writers = 0
  · rw [if_pos hwriters] at hs
    cases hs
    exact h.endOfFile hwriters (hdrained hwriters)
  · obtain ⟨rb, used, hfifo, hfilled, hbytes⟩ := h.fifo
    obtain ⟨hret, hfilled', hview, hout⟩ := hfilled.get c.buf (c.count % 2^16)
    rw [if_neg hwriters, hfifo] at hs
    rw [← hret] at hout
    have hsplit : s.accepted = s.returned ++ rb.view.take (c.count % 2^16) ++
        (rtRingbufferGet rb c.buf (c.count % 2^16)).1.view := by
      rw [hview, append_assoc, take_append_drop, hbytes]
    dsimp only [map_some] at hs
    by_cases hpos : 0 < (rtRingbufferGet rb c.buf (c.count % 2^16)).2.1
    · rw [if_pos hpos] at hs
      cases hs
      refine h.data hfilled' rfl rfl rfl ?_
      change s.accepted = s.returned ++ _ ++ _
      rw [hout, hsplit]
    · -- Nothing has been read.
      rw [if_neg hpos] at hs
      cases hs
      refine h.data hfilled' rfl rfl rfl ?_
      rw [Nat.eq_zero_of_not_pos hpos] at hout
      rw [← hout, range_zero, map_nil, append_nil] at hsplit
      exact hsplit

theorem writePass {c : PipeWrite} (h : PipeInv s) (hs : s.writePass t c = some s') : PipeInv s' := by
  obtain ⟨hlock, hs⟩ := ite_none_right_eq_some.mp hs
  by_cases hreaders : s.dev.readers = 0
  · rw [if_pos hreaders] at hs
    cases hs
    exact h.same ⟨rfl, rfl, rfl, rfl, rfl⟩
  · obtain ⟨rb, used, hfifo, hfilled, hbytes⟩ := h.fifo
    obtain ⟨hret, hfilled', hview⟩ := hfilled.put (fun i => c.buf (c.ret + i)) ((c.count - c.ret) % 2^16)
    rw [if_neg hreaders, hfifo] at hs
    cases hs
    refine h.data hfilled' rfl rfl rfl ?_
    change s.accepted ++ _ = s.returned ++ _
    rw [hview, hret, hbytes, append_assoc]
    unfold offer
    rw [hfilled.length_view, ← map_take, take_range, min_comm]

theorem run (h : PipeInv s) (hdrained : (PipeAct.run t).drained s) (hs : s.run t = some s') : PipeInv s' := by
  rcases PipeSys.run_cases hs with ⟨c, hpc, hwriters, rfl⟩ | ⟨c, hpc, hpass⟩ | ⟨c, hpc, hpass⟩ | hsame
  · exact h.endOfFile hwriters (hdrained (by rw [hpc]; rfl) hwriters)
  · exact h.readPass (hdrained (by rw [hpc]; rfl)) hpass
  · exact h.writePass hpass
  · exact h.same hsame

theorem opens (h : PipeInv s) (hroom : s.dev.refCount < 255)
    (hs : (PipeAct.open mode pool).exec s = some s') : PipeInv s' := by
  have hopened := h.opened
  have hcount := h.counted.refCount
  rw [PipeAct.exec] at hs
  split_ifs at hs
  rw [pipeFopsOpen, if_neg (by omega)] at hs
  cases hs
  refine ⟨?_, h.counted.opens hroom mode, ?_, h.ends⟩
  · cases mode <;> exact h.fifo
  · cases mode <;> (simp; try omega)

theorem closes (h : PipeInv s) (hs : (PipeAct.close t mode).exec s = some s') : PipeInv s' := by
  have hcount := h.counted.refCount
  rw [PipeAct.exec] at hs
  split_ifs at hs with hguard
  obtain ⟨-, -, hpos, hstays⟩ := hguard
  cases hs
  have hne : s.dev.refCount ≠ 1 := by
    cases mode <;> simp at hstays <;> omega
  have hfifo : (pipeFopsClose s.dev mode).1.fifo = s.dev.fifo := by
    cases mode <;> exact if_neg hne
  refine ⟨?_, h.counted.closes hpos, hstays, h.ends⟩
  rw [hfifo]
  exact h.fifo

theorem exec {a : PipeAct n} (h : PipeInv s) (hdrained : a.drained s) (hs : a.exec s = some s') : PipeInv s' := by
  cases a with
  | «open» mode pool => exact h.opens hdrained hs
  | close t mode => exact h.closes hs
  | read t c | write t buf count =>
    rw [PipeAct.exec] at hs
    split_ifs at hs
    cases hs
    exact h.same ⟨rfl, rfl, rfl, rfl, rfl⟩
  | run t => exact h.run hdrained hs

end PipeInv

theorem rtRingbufferCreate_filled {size : ℕ} (hsize : size < 2^16)
    (h : rtRingbufferCreate pool size = .ok rb) : Filled rb 0 := by
  unfold rtRingbufferCreate at h
  rw [rtAlignDown_four (by omega)] at h
  split_ifs at h with hpos hsmall
  -- `rt_ringbuffer_init` asserts that the size is positive.
  have hinit : 0 < size / 4 * 4 := by
    by_contra hzero
    unfold rtRingbufferInit at h
    rw [if_neg hzero] at h
    cases h
  exact (rtRingbufferInit_filled (by unfold RT_ALIGN_SIZE; omega) hsmall h).1

theorem PipeInv.init (h : (pipeSystem n bufsz).init s) : PipeInv s := by
  obtain ⟨hbufsz, pool, dev, hopen, rfl⟩ := h
  unfold pipeFopsOpen at hopen
  rw [if_pos rfl] at hopen
  cases hcreate : rtRingbufferCreate pool bufsz with
  | error e =>
    rw [hcreate] at hopen
    cases hopen
  | ok rb =>
    rw [hcreate] at hopen
    cases hopen
    have hfilled := rtRingbufferCreate_filled hbufsz hcreate
    have hnil : rb.view = [] := length_eq_zero_iff.mp hfilled.length_view
    refine ⟨⟨rb, 0, rfl, hfilled, ?_⟩, ⟨rfl, rfl, rfl, (by decide : 1 < 2^8)⟩, Nat.one_pos, fun e he => ?_⟩
    · rw [hnil]
      rfl
    · cases he

end

/-- In every run in which a read that finds no writing end open finds the ring buffer empty, and in
which fewer than 256 descriptors are open at once: the bytes that reads have returned are the first
of the bytes that writes have accepted, and a read has returned 0 only when no writing end was open
and every accepted byte had been returned. -/
theorem pipe_order {n bufsz : ℕ} {s : PipeSys n} (h : Reachable (pipeSystem n bufsz) PipeAct.drained s) :
    s.returned <+: s.accepted ∧ ∀ e ∈ s.ends, e.writers = 0 ∧ e.returned = e.accepted := by
  have hinv : PipeInv s := h.invariant (fun _ => PipeInv.init) fun _ _ _ hinv => hinv.exec
  obtain ⟨rb, used, -, -, hbytes⟩ := hinv.fifo
  exact ⟨⟨rb.view, hbytes.symm⟩, hinv.ends⟩

/-- A writer writes a byte, a reader reads it, the writer closes its end, and the next read finds
the end of file. -/
theorem pipe_order_run : ∃ s : PipeSys 2, Reachable (pipeSystem 2 4) PipeAct.drained s ∧ s.returned = [7] ∧
    s.ends.length = 1 ∧ ∀ e ∈ s.ends, e.writers = 0 ∧ e.returned = e.accepted := by
  have hinit : (pipeSystem 2 4).init _ := ⟨by decide, fun _ => 0, _, rfl, rfl⟩
  have hrun : ∃ s : PipeSys 2, Reachable (pipeSystem 2 4) PipeAct.drained s ∧ s.returned = [7] ∧ s.ends.length = 1 := by
    refine exists_reachable_of_exec hinit
      [.open .wronly fun _ => 0, .write 0 (fun _ => 7) 1, .run 0, .run 0, .read 1 ⟨fun _ => 0, 3⟩, .run 1, .run 1,
        .run 0, .run 1, .run 1, .close 0 .wronly, .run 0, .run 0, .run 0, .read 1 ⟨fun _ => 0, 3⟩, .run 1] ?_
    decide
  obtain ⟨s, hs, hreturned, hends⟩ := hrun
  exact ⟨s, hs, hreturned, hends, (pipe_order hs).2⟩

/-- The writer closes its end before the byte is read, and the read returns 0. -/
theorem unread_end_of_file : ∃ s : PipeSys 2, Reachable (pipeSystem 2 4) always s ∧
    s.ends.map PipeEnd.accepted = [[7]] ∧ s.ends.map PipeEnd.returned = [[]] := by
  have hinit : (pipeSystem 2 4).init _ := ⟨by decide, fun _ => 0, _, rfl, rfl⟩
  refine exists_reachable_of_exec hinit
    [.open .wronly fun _ => 0, .write 0 (fun _ => 7) 1, .run 0, .run 0, .run 0, .close 0 .wronly, .run 0, .run 0, .run 0,
      .read 1 ⟨fun _ => 0, 3⟩, .run 1] ?_
  decide

/-! ## The wake-up of a reader -/

namespace PipePc

/-- The part of the thread in a wake-up of the readers. -/
def wakes : PipePc → Option WakePc
  | .writeWake _ w | .writeDone w | .closing (.readers :: _) w => some w
  | _ => none

/-- The way of a read to the wait queue. -/
def waiting : PipePc → Waiting
  | .readEmpty _ _ | .readWait _ .add => .decided
  | .readWait _ .suspend => .listed
  | .readWait _ .schedule => .asleep
  | _ => .away

/-- The read that the thread is in, before it has something. -/
def reading : PipePc → Option PipeRead
  | .read c | .readPass c | .readEmpty c _ | .readWait c _ => some c
  | _ => none

end PipePc

/-- The places of the threads, for the queue of the readers. -/
def pipePlaces : Places PipePc := ⟨PipePc.waiting, PipePc.wakes⟩

/-- Only the thread `r` reads. -/
def PipeAct.readsBy {n : ℕ} (r : Fin n) : PipeAct n → Prop
  | .read t _ => t = r
  | .open _ _ | .close _ _ | .write _ _ _ | .run _ => True

/-- The runs of a pipe with a single reader. -/
def pipeReader (n bufsz : ℕ) (r : Fin n) : System (PipeSys n) (PipeAct n) where
  init := (pipeSystem n bufsz).init
  step s a s' := a.readsBy r ∧ a.exec s = some s'

/-- The reader asks for something. No thread looks at the queue of the readers while the reader is
on its way there and bytes are available, unless another one will; and none takes the reader from
the queue before it is suspended. -/
def PipeAct.watched {n : ℕ} (r : Fin n) (s : PipeSys n) : PipeAct n → Prop
  | .read _ c => c.count % 2^16 ≠ 0
  | .run t =>
    ((s.pc t).wakes = some .check → (s.pc r).waiting = .decided → 0 < s.dev.dataLen →
      ∃ u, u ≠ t ∧ (s.pc u).wakes = some .check) ∧
    ((s.pc t).wakes = some .scan → (s.pc r).waiting ≠ .listed)
  | .open _ _ | .close _ _ | .write _ _ _ => True

instance {n : ℕ} (r : Fin n) (a : PipeAct n) : Decidable (a.readsBy r) := by
  cases a <;> unfold PipeAct.readsBy <;> infer_instance

instance PipeAct.decidableWatched {n : ℕ} (r : Fin n) (s : PipeSys n) (a : PipeAct n) : Decidable (a.watched r s) := by
  cases a <;> unfold PipeAct.watched <;> infer_instance

/-- Only `r` reads, its reads ask for something, and its wake-up is covered. -/
structure SoleReader {n : ℕ} (r : Fin n) (s : PipeSys n) : Prop where
  reading : ∀ t c, (s.pc t).reading = some c → t = r ∧ c.count % 2^16 ≠ 0
  kept : pipePlaces.Kept .readers r s.pc s.wq (0 < s.dev.dataLen)

theorem rtRingbufferGet_eq_zero {dst : ℕ → UInt8} {length : ℕ} (hlength : length ≠ 0)
    (h : ¬0 < (rtRingbufferGet rb dst length).2.1) :
    rtRingbufferDataLen rb = 0 ∧ (rtRingbufferGet rb dst length).1 = rb := by
  unfold rtRingbufferGet at h ⊢
  by_cases hzero : rtRingbufferDataLen rb = 0
  · rw [if_pos hzero]
    exact ⟨hzero, rfl⟩
  · obtain ⟨len, hlen⟩ : ∃ len, len = if rtRingbufferDataLen rb < length then rtRingbufferDataLen rb else length := ⟨_, rfl⟩
    have hpos : 0 < len := by
      rw [hlen]
      split_ifs <;> omega
    rw [if_neg hzero] at h
    dsimp only at h
    rw [← hlen] at h
    refine absurd ?_ h
    split_ifs <;> exact hpos

theorem rtRingbufferCreate_dataLen {size : ℕ}
    (h : rtRingbufferCreate pool size = .ok rb) : rtRingbufferDataLen rb = 0 := by
  unfold rtRingbufferCreate rtRingbufferInit at h
  split_ifs at h
  cases h
  rfl

theorem pipeFopsOpen_dataLen {p dev : PipeDev} (h : pipeFopsOpen pool p mode = .ok dev)
    (hready : 0 < dev.dataLen) : 0 < p.dataLen := by
  unfold pipeFopsOpen at h
  by_cases hzero : p.refCount = 0
  · rw [if_pos hzero] at h
    cases hcreate : rtRingbufferCreate pool p.bufsz with
    | error e =>
      rw [hcreate] at h
      cases h
    | ok rb =>
      rw [hcreate] at h
      cases h
      have hempty : rtRingbufferDataLen rb = 0 := rtRingbufferCreate_dataLen hcreate
      cases mode <;> exact absurd hready (by simp [PipeDev.dataLen, PipeDev.count, hempty])
  · rw [if_neg hzero] at h
    cases h
    cases mode <;> exact hready

theorem pipeFopsClose_dataLen {p : PipeDev} (hready : 0 < (pipeFopsClose p mode).1.dataLen) :
    0 < p.dataLen := by
  unfold PipeDev.dataLen at hready ⊢
  have hfifo : (pipeFopsClose p mode).1.fifo = if p.refCount = 1 then none else p.fifo := by
    cases mode <;> rfl
  rw [hfifo] at hready
  split_ifs at hready
  · exact absurd hready (Nat.lt_irrefl 0)
  · exact hready

section

variable {n : ℕ} {s s' : PipeSys n} {r t : Fin n}

namespace SoleReader

theorem next (h : SoleReader r s) {p : PipePc} (hpc : s'.pc = update s.pc t p)
    (hreading : ∀ c, p.reading = some c → t = r ∧ c.count % 2^16 ≠ 0)
    (hkept : pipePlaces.Kept .readers r (update s.pc t p) s'.wq (0 < s'.dev.dataLen)) : SoleReader r s' := by
  refine ⟨?_, hpc ▸ hkept⟩
  rw [hpc]
  exact (forall_update_iff s.pc (p := fun u p => ∀ c, p.reading = some c → u = r ∧ c.count % 2^16 ≠ 0)).mpr
    ⟨hreading, fun u _ => h.reading u⟩

theorem reads (h : SoleReader r s) {p : PipePc} {c : PipeRead} (hpc : s.pc t = p) (hp : p.reading = some c) :
    t = r ∧ c.count % 2^16 ≠ 0 :=
  h.reading t c (hpc ▸ hp)

theorem away (h : SoleReader r s) {p : PipePc} (hpc : s'.pc = update s.pc r p)
    (hreading : ∀ c, p.reading = some c → c.count % 2^16 ≠ 0) (hnodes : s'.wq.nodes .readers = s.wq.nodes .readers)
    (hp : p.waiting = .away) : SoleReader r s' :=
  h.next hpc (fun c hc => ⟨rfl, hreading c hc⟩) (.away (fun u hu => h.kept.nodes u (hnodes ▸ hu)) hp)

theorem plain (h : SoleReader r s) {p p₀ : PipePc} (hpc : s'.pc = update s.pc t p) (hwq : s'.wq = s.wq)
    (hpc₀ : s.pc t = p₀) (hfrom : p₀.waiting = .away ∧ p₀.wakes = none) (hto : p.reading = none ∧ p.waiting = .away)
    (hready : 0 < s'.dev.dataLen → 0 < s.dev.dataLen ∨ p.wakes = some .check) : SoleReader r s' := by
  refine h.next hpc (fun c hc => ?_) (h.kept.other hpc₀ (hto.2.trans hfrom.1.symm) (fun c hc => ?_) ?_ ?_ hready)
  · rw [hto.1] at hc
    cases hc
  · exact absurd hc (hfrom.2 ▸ some_ne_none c |>.symm)
  · rw [hwq]
  · exact fun hs => hwq ▸ hs

theorem readPass {c : PipeRead} (h : SoleReader r s) (hpc : s.pc r = .readPass c) (hs : s.readPass r c = some s') :
    SoleReader r s' := by
  obtain ⟨-, hcount⟩ := h.reads hpc rfl
  unfold PipeSys.readPass at hs
  split_ifs at hs with hlock hwriters
  · cases hs
    exact h.away rfl (fun _ hc => by cases hc) rfl rfl
  · obtain ⟨rb, hfifo, rfl⟩ := map_eq_some_iff.mp hs
    by_cases hpos : 0 < (rtRingbufferGet rb c.buf (c.count % 2^16)).2.1
    · rw [if_pos hpos]
      exact h.away rfl (fun _ hc => by cases hc) rfl rfl
    · -- Nothing was read, so the ring buffer is empty.
      obtain ⟨hempty, hsame⟩ := rtRingbufferGet_eq_zero hcount hpos
      rw [if_neg hpos]
      refine h.next rfl (fun c' hc' => ⟨rfl, some.inj hc' ▸ hcount⟩) (h.kept.decides rfl ?_)
      change ¬0 < rtRingbufferDataLen (rtRingbufferGet rb c.buf (c.count % 2^16)).1
      rw [hsame, hempty]
      exact Nat.lt_irrefl 0

theorem readWait {c : PipeRead} {w : WaitPc} (h : SoleReader r s) (hpc : s.pc r = .readWait c w)
    (hs : s.wait r .readers w (.readWait c) (.readPass c) = some s') : SoleReader r s' := by
  obtain ⟨-, hcount⟩ := h.reads hpc rfl
  obtain ⟨⟨wq, o⟩, hwait, rfl⟩ := map_eq_some_iff.mp hs
  have hwaiting : ∀ w, (PipePc.readWait c w).waiting = w.waiting := fun w => by cases w <;> rfl
  refine h.next rfl (fun c' hc' => ⟨rfl, ?_⟩) (h.kept.wait hwait hpc (hwaiting w) rfl hwaiting rfl)
  have heq : c' = c := by
    cases o <;> exact (some.inj hc').symm
  rw [heq]
  exact hcount

theorem writePass {c : PipeWrite} (h : SoleReader r s) (hpc : s.pc t = .writePass c) (hs : s.writePass t c = some s') :
    SoleReader r s' := by
  unfold PipeSys.writePass at hs
  split_ifs at hs with hlock hreaders hwakeup
  · cases hs
    exact h.plain rfl rfl hpc ⟨rfl, rfl⟩ ⟨rfl, rfl⟩ .inl
  · cases hs
    exact h.plain rfl rfl hpc ⟨rfl, rfl⟩ ⟨rfl, rfl⟩ .inl
  · obtain ⟨rb, hfifo, rfl⟩ := map_eq_some_iff.mp hs
    dsimp only
    -- Whether all bytes are put or not, the readers are woken next.
    by_cases hend : c.ret + (rtRingbufferPut rb (fun i => c.buf (c.ret + i)) ((c.count - c.ret) % 2^16)).2 = c.count
    · rw [if_pos hend]
      exact h.plain rfl rfl hpc ⟨rfl, rfl⟩ ⟨rfl, rfl⟩ fun _ => .inr rfl
    · rw [if_neg hend]
      exact h.plain rfl rfl hpc ⟨rfl, rfl⟩ ⟨rfl, rfl⟩ fun _ => .inr rfl

theorem writeWait {c : PipeWrite} {w : WaitPc} (h : SoleReader r s) (hpc : s.pc t = .writeWait c w)
    (hs : s.wait t .writers w (.writeWait c) (.writePass c) = some s') : SoleReader r s' := by
  obtain ⟨⟨wq, o⟩, hwait, rfl⟩ := map_eq_some_iff.mp hs
  obtain ⟨hnodes, hsuspended⟩ := Wqueues.wait_other hwait
  have hreaders : wq.nodes .readers = s.wq.nodes .readers := hnodes _ (by decide)
  have hto : (o.elim (PipePc.writePass c) (.writeWait c)).reading = none ∧
      (o.elim (PipePc.writePass c) (.writeWait c)).waiting = .away := by
    cases o <;> exact ⟨rfl, rfl⟩
  have hreading : ∀ c', (o.elim (PipePc.writePass c) (.writeWait c)).reading = some c' → t = r ∧ c'.count % 2^16 ≠ 0 := by
    intro c' hc'
    rw [hto.1] at hc'
    cases hc'
  -- The reader itself may be the thread that writes.
  by_cases hr : r = t
  · subst hr
    exact h.away rfl (fun c' hc' => (hreading c' hc').2) hreaders hto.2
  · refine h.next rfl hreading (h.kept.other hpc hto.2 (fun w' hw' => ?_) hreaders (fun hs => ?_) .inl)
    · cases hw'
    · exact (hsuspended r hr) ▸ hs

theorem wakeWriters {w : WakePc} {again : WakePc → PipePc} {p p₀ : PipePc} (h : SoleReader r s) (hpc : s.pc t = p₀)
    (hwakes : p₀.wakes = none) (hwaiting : p.waiting = p₀.waiting ∧ ∀ w, (again w).waiting = p₀.waiting)
    (hreading : (∀ c, p.reading = some c → p₀.reading = some c) ∧
      ∀ w c, (again w).reading = some c → p₀.reading = some c) : SoleReader r (s.wake t .writers w again p) := by
  refine h.next rfl (fun c hc => h.reads hpc ?_) (h.kept.other hpc ?_ (fun w' hw' => ?_) ?_ ?_ .inl)
  · cases ho : (s.wq.rtWqueueWakeup .writers w).2 with
    | none =>
      rw [ho] at hc
      exact hreading.1 c hc
    | some w' =>
      rw [ho] at hc
      exact hreading.2 w' c hc
  · cases (s.wq.rtWqueueWakeup .writers w).2 with
    | none => exact hwaiting.1
    | some w' => exact hwaiting.2 w'
  · exact absurd hw' (hwakes ▸ some_ne_none w' |>.symm)
  · exact Wqueues.nodes_wakeup_of_ne w (by decide)
  · exact Wqueues.suspended_wakeup w

theorem wakeReaders {w : WakePc} {again : WakePc → PipePc} {p p₀ : PipePc} (h : SoleReader r s)
    (hwatched : (PipeAct.run t).watched r s) (hpc : s.pc t = p₀) (hwakes : p₀.wakes = some w)
    (hwaiting : p.waiting = .away ∧ ∀ w, (again w).waiting = .away) (hscan : (again .scan).wakes = some .scan)
    (hreading : p.reading = none ∧ ∀ w, (again w).reading = none) : SoleReader r (s.wake t .readers w again p) := by
  refine h.next rfl (fun c hc => ?_) (h.kept.wake hpc hwakes hwaiting.1 hwaiting.2 hscan ?_ ?_)
  · cases ho : (s.wq.rtWqueueWakeup .readers w).2 with
    | none =>
      rw [ho] at hc
      exact absurd hc (hreading.1 ▸ some_ne_none c |>.symm)
    | some w' =>
      rw [ho] at hc
      exact absurd hc (hreading.2 w' ▸ some_ne_none c |>.symm)
  · rintro rfl
    exact hwatched.1 (hpc ▸ hwakes)
  · rintro rfl
    exact hwatched.2 (hpc ▸ hwakes)

/-- A section keeps the wake-up of the reader. -/
theorem run (h : SoleReader r s) (hwatched : (PipeAct.run t).watched r s) (hs : s.run t = some s') : SoleReader r s' := by
  unfold PipeSys.run at hs
  -- By the place of the thread: the reader's own steps, the wake-ups of either queue, and the rest.
  cases hpc : s.pc t with
  | idle =>
    rw [hpc] at hs
    cases hs
  | read c =>
    obtain ⟨rfl, hcount⟩ := h.reads hpc rfl
    rw [hpc] at hs
    cases hs
    split_ifs
    · exact h.away rfl (fun _ hc => by cases hc) rfl rfl
    · exact h.away rfl (fun c' hc' => some.inj hc' ▸ hcount) rfl rfl
  | readPass c =>
    obtain ⟨rfl, -⟩ := h.reads hpc rfl
    rw [hpc] at hs
    exact h.readPass hpc hs
  | readEmpty c w | readDone w =>
    rw [hpc] at hs
    cases hs
    exact h.wakeWriters hpc rfl ⟨rfl, fun _ => rfl⟩ ⟨fun _ => id, fun _ _ => id⟩
  | readWait c w =>
    obtain ⟨rfl, -⟩ := h.reads hpc rfl
    rw [hpc] at hs
    exact h.readWait hpc hs
  | write c =>
    rw [hpc] at hs
    cases hs
    split_ifs <;> exact h.plain rfl rfl hpc ⟨rfl, rfl⟩ ⟨rfl, rfl⟩ .inl
  | writePass c =>
    rw [hpc] at hs
    exact h.writePass hpc hs
  | writeWake c w | writeDone w =>
    rw [hpc] at hs
    cases hs
    exact h.wakeReaders hwatched hpc rfl ⟨rfl, fun _ => rfl⟩ rfl ⟨rfl, fun _ => rfl⟩
  | writeWait c w =>
    rw [hpc] at hs
    exact h.writeWait hpc hs
  | closing queues w =>
    rw [hpc] at hs
    cases queues with
    | nil =>
      cases hs
      exact h.plain rfl rfl hpc ⟨rfl, rfl⟩ ⟨rfl, rfl⟩ .inl
    | cons q queues =>
      cases hs
      cases q with
      | readers =>
        exact h.wakeReaders hwatched hpc rfl ⟨rfl, fun _ => rfl⟩ rfl ⟨rfl, fun _ => rfl⟩
      | writers =>
        exact h.wakeWriters hpc rfl ⟨rfl, fun _ => rfl⟩ ⟨fun _ => id, fun _ _ => id⟩
  | release =>
    rw [hpc] at hs
    cases hs
    exact h.plain rfl rfl hpc ⟨rfl, rfl⟩ ⟨rfl, rfl⟩ .inl

/-- A step keeps the wake-up of the reader. -/
theorem exec {a : PipeAct n} (h : SoleReader r s) (hwatched : a.watched r s) (hreads : a.readsBy r)
    (hs : a.exec s = some s') : SoleReader r s' := by
  have hidle : ∀ t, (s.pc t).isIdle = true → (s.pc t).waiting = .away ∧ (s.pc t).wakes = none := fun t ht => by
    cases hpc : s.pc t <;> rw [hpc] at ht <;> first | exact ⟨rfl, rfl⟩ | cases ht
  rw [PipeAct.exec.eq_def] at hs
  cases a with
  | «open» mode pool =>
    dsimp only at hs
    split_ifs at hs
    cases hopen : pipeFopsOpen pool s.dev mode with
    | error e =>
      rw [hopen] at hs
      cases hs
    | ok dev =>
      rw [hopen] at hs
      cases hs
      have hempty := pipeFopsOpen_dataLen hopen
      exact ⟨h.reading, h.kept.nodes, h.kept.covered.step (.other rfl id id (fun hs => .inl (hempty hs)) id id)⟩
  | close t mode =>
    dsimp only at hs
    split_ifs at hs with hguard
    cases hs
    refine h.plain rfl rfl rfl (hidle t hguard.2.1) ⟨rfl, rfl⟩ fun hs => .inl ?_
    exact pipeFopsClose_dataLen hs
  | read t c =>
    dsimp only at hs
    split_ifs at hs with hguard
    cases hs
    obtain rfl : t = r := hreads
    exact h.away rfl (fun c' hc' => some.inj hc' ▸ hwatched) rfl rfl
  | write t buf count =>
    dsimp only at hs
    split_ifs at hs with hguard
    cases hs
    exact h.plain rfl rfl rfl (hidle t hguard) ⟨rfl, rfl⟩ .inl
  | run t => exact h.run hwatched hs

theorem init (h : (pipeSystem n bufsz).init s) : SoleReader r s := by
  obtain ⟨-, pool, dev, -, rfl⟩ := h
  refine ⟨fun t c hc => ?_, fun u hu => ?_, Wakeup.Covered.of_away rfl⟩
  · cases hc
  · cases hu

theorem of_reachable (h : Reachable (pipeReader n bufsz r) (PipeAct.watched r) s) : SoleReader r s := by
  refine h.invariant ?_ ?_
  · exact fun _ hinit => init hinit
  · rintro s a s' hinv hwatched ⟨hreads, hs⟩
    exact hinv.exec hwatched hreads hs

end SoleReader

end

end RtThread
