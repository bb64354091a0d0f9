import RtThread.Ipc.Mailbox
import RtThread.Kservice.Memory

/-!
# Message queues

The message queue of `ipc.c`, for one queue, `n` threads, and `q` other parties that do not block
(interrupt handlers). A message is a cell of the pool, with a link in its first word and the bytes
behind it. `rt_mq_send` and `rt_mq_urgent` take a cell from the free list, copy the bytes with
interrupts enabled, and link the cell in; `rt_mq_recv` takes the first message, copies the bytes, and
puts the cell back. A party works on a message in several steps (`MqWork`), and any other step may come
between them. `queue` is the abstract deque: what the messages should be, by the bytes copied in.
-/

namespace RtThread

open Lib Function List Option Nat

variable {n q : ℕ}

/-! ## The functions -/

/-- `struct rt_messagequeue`. Its suspend list is the list `0`. -/
structure MsgQueue where
  msgPool : ℕ
  /-- The size of a message, the number of messages, and the count are 16-bit words. -/
  msgSize : ℕ
  maxMsgs : ℕ
  entry : ℕ
  msgQueueHead : ℕ
  msgQueueTail : ℕ
  msgQueueFree : ℕ
  flag : IpcFlag

/-- The size of a `struct rt_mq_message`, which is the link. -/
def mqMessageSize : ℕ := 4

/-- The loop of `rt_mq_init` and `rt_mq_create`, for the first `count` cells: the links, and the
free list. -/
def mqFreeLoop (m : Bytes) (msgPool stride : ℕ) : ℕ → Bytes × ℕ
  | 0 => (m, 0)
  | temp + 1 =>
    let (m, free) := mqFreeLoop m msgPool stride temp
    let head := add32 msgPool (mul32 temp stride)
    (m.store head 4 free, head)

/-- The rest of `rt_mq_init` and `rt_mq_create`, with the fields that differ. -/
def mqSetup (m : Bytes) (msgPool msgSize maxMsgs : ℕ) (flag : IpcFlag) : Bytes × MsgQueue :=
  let (m, free) := mqFreeLoop m msgPool (msgSize + mqMessageSize) maxMsgs
  (m, ⟨msgPool, msgSize, maxMsgs, 0, 0, 0, free, flag⟩)

variable (m : Bytes)

/-- `rt_mq_init`: the pool is cut into cells, which are linked as the free list. -/
def rtMqInit (msgPool msgSize poolSize : ℕ) (flag : IpcFlag) : Bytes × MsgQueue :=
  let msgSize := rtAlign msgSize RT_ALIGN_SIZE % 2^16
  mqSetup m msgPool msgSize (poolSize / (msgSize + mqMessageSize) % 2^16) flag

/-- The size of the pool that `rt_mq_create` allocates. -/
def mqCreateSize (msgSize maxMsgs : ℕ) : ℕ :=
  mul32 (rtAlign msgSize RT_ALIGN_SIZE % 2^16 + mqMessageSize) (maxMsgs % 2^16)

/-- `rt_mq_create`, with the pool at `msgPool`. -/
def rtMqCreate (msgPool msgSize maxMsgs : ℕ) (flag : IpcFlag) : Bytes × MsgQueue :=
  mqSetup m msgPool (rtAlign msgSize RT_ALIGN_SIZE % 2^16) (maxMsgs % 2^16) flag

variable (mq : MsgQueue)

/-- The first part of `rt_mq_send` and `rt_mq_urgent`, which are the same: an error code, or the
cell that is taken. -/
def rtMqSendTake (buffer size : ℕ) : Except Fault (MsgQueue × Except ℤ ℕ) :=
  if buffer = 0 ∨ size = 0 then .error .assertion
  else if mq.msgSize < size then .ok (mq, .error (-RT_ERROR))
  else if mq.msgQueueFree = 0 then .ok (mq, .error (-RT_EFULL))
  else .ok ({ mq with msgQueueFree := link m mq.msgQueueFree }, .ok mq.msgQueueFree)

/-- The second part of `rt_mq_send`, with interrupts enabled. -/
def rtMqSendCopy (msg buffer size : ℕ) : Bytes :=
  rtMemcpy (m.store msg 4 0) (msg + mqMessageSize) buffer size

/-- The second part of `rt_mq_urgent`, with interrupts enabled. -/
def rtMqUrgentCopy (msg buffer size : ℕ) : Bytes := rtMemcpy m (msg + mqMessageSize) buffer size

variable (k : Kernel n)

/-- The first waiting receiver is woken. -/
def mqWake : Except Fault (Kernel n) :=
  if ¬rtListIsempty k.sched.tlist (.head (.wait 0)) then rtIpcListResume k 0 else .ok k

/-- A message is linked behind the last one. -/
def MsgQueue.linkLast (m : Bytes) (msg : ℕ) : Bytes × MsgQueue :=
  (if mq.msgQueueTail ≠ 0 then m.store mq.msgQueueTail 4 msg else m,
    { mq with
      msgQueueTail := msg
      msgQueueHead := if mq.msgQueueHead = 0 then msg else mq.msgQueueHead
      entry := (mq.entry + 1) % 2^16 })

/-- An urgent message is linked in front. -/
def MsgQueue.linkFirst (m : Bytes) (msg : ℕ) : Bytes × MsgQueue :=
  (m.store msg 4 mq.msgQueueHead,
    { mq with
      msgQueueHead := msg
      msgQueueTail := if mq.msgQueueTail = 0 then msg else mq.msgQueueTail
      entry := (mq.entry + 1) % 2^16 })

/-- The last part of `rt_mq_send`, up to its call of `rt_schedule`. -/
def rtMqSendLink (m : Bytes) (mq : MsgQueue) (msg : ℕ) :
    Except Fault (Kernel n × Bytes × MsgQueue) := do
  let (m, mq) := mq.linkLast m msg
  let k ← mqWake k
  return (k, m, mq)

/-- The last part of `rt_mq_urgent`, up to its call of `rt_schedule`. -/
def rtMqUrgentLink (m : Bytes) (mq : MsgQueue) (msg : ℕ) :
    Except Fault (Kernel n × Bytes × MsgQueue) := do
  let (m, mq) := mq.linkFirst m msg
  let k ← mqWake k
  return (k, m, mq)

/-- What `rt_mq_recv` does after a part with interrupts disabled. -/
inductive MqRecv
  | ret (e : ℤ)
  | wait
  | took (msg : ℕ)

/-- The first message is taken off the list. -/
@[irreducible] def MsgQueue.unlink (m : Bytes) : MsgQueue :=
  { mq with
    msgQueueHead := link m mq.msgQueueHead
    msgQueueTail := if mq.msgQueueTail = mq.msgQueueHead then 0 else mq.msgQueueTail
    entry := (mq.entry + (2^16 - 1)) % 2^16 }

/-- `rt_mq_recv` from its loop on, up to a call of `rt_schedule` or the copying. -/
def rtMqRecvLoop (m : Bytes) (mq : MsgQueue) (time : ℤ) :
    Except Fault (Kernel n × MsgQueue × MqRecv) :=
  if mq.entry = 0 then
    match k.current with
    | none => .error .assertion
    | some thread =>
      let k := k.setError thread RT_EOK
      if time = 0 then .ok (k.setError thread (-RT_ETIMEOUT), mq, .ret (-RT_ETIMEOUT))
      else do
        let k ← k.waitThread thread 0 mq.flag (waitTime time)
        return (k, mq, .wait)
  else if mq.msgQueueHead = 0 then .error .wild
  else .ok (k, mq.unlink m, .took mq.msgQueueHead)

/-- `rt_mq_recv`, up to its first call of `rt_schedule` or the copying. -/
def rtMqRecv (m : Bytes) (mq : MsgQueue) (buffer size : ℕ) (time : ℤ) :
    Except Fault (Kernel n × MsgQueue × MqRecv) :=
  if buffer = 0 ∨ size = 0 then .error .assertion
  else if mq.entry = 0 ∧ time = 0 then .ok (k, mq, .ret (-RT_ETIMEOUT))
  else rtMqRecvLoop k m mq time

/-- The copying in `rt_mq_recv`, with interrupts enabled. -/
def rtMqRecvCopy (msg buffer size : ℕ) : Bytes :=
  rtMemcpy m buffer (msg + mqMessageSize) (if mq.msgSize < size then mq.msgSize else size)

/-- The last part of `rt_mq_recv`. -/
def rtMqRecvFree (msg : ℕ) : Bytes × MsgQueue :=
  (m.store msg 4 mq.msgQueueFree, { mq with msgQueueFree := msg })

/-- The loop of `rt_mq_control` with `RT_IPC_CMD_RESET`. -/
def rtMqResetLoop : ℕ → Bytes → MsgQueue → Except Fault (Bytes × MsgQueue)
  | 0, _, _ => .error .fuel
  | fuel + 1, m, mq =>
    if mq.msgQueueHead = 0 then .ok (m, mq)
    else
      let msg := mq.msgQueueHead
      rtMqResetLoop fuel (m.store msg 4 mq.msgQueueFree)
        { mq with
          msgQueueHead := link m msg
          msgQueueTail := if mq.msgQueueTail = msg then 0 else mq.msgQueueTail
          msgQueueFree := msg }

/-- `rt_mq_control` with `RT_IPC_CMD_RESET`, up to its call of `rt_schedule`. -/
def rtMqReset (m : Bytes) (mq : MsgQueue) : Except Fault (Kernel n × Bytes × MsgQueue) := do
  let k ← rtIpcListResumeAll k 0
  let (m, mq) ← rtMqResetLoop (mq.maxMsgs + 1) m mq
  return (k, m, { mq with entry := 0 })

/-! ## Runs -/

/-- A receive that waits, with what it keeps for when it goes on. -/
inductive MqCall
  | recv (buffer size : ℕ) (time : ℤ) (tick : ℕ)
  deriving DecidableEq

/-- The suspend list of a call. -/
def MqCall.list : MqCall → Option ℕ
  | .recv _ _ _ _ => some 0

/-- What a party that has a cell in its hand does next. -/
inductive MqWork
  /-- A sender copies its buffer into the cell. -/
  | copyIn (urgent : Bool) (msg buffer size : ℕ)
  /-- A sender links the cell in. It has copied `data`. -/
  | linkIn (urgent : Bool) (msg : ℕ) (data : List UInt8)
  /-- A receiver copies the cell into its buffer. The abstract deque had `data` for it. -/
  | copyOut (msg buffer size : ℕ) (data : List UInt8)
  /-- A receiver puts the cell back. -/
  | giveBack (msg : ℕ)
  deriving DecidableEq

/-- The cell in the hand of the party. -/
def MqWork.msg : MqWork → ℕ
  | .copyIn _ msg _ _ | .linkIn _ msg _ | .copyOut msg _ _ _ | .giveBack msg => msg

/-- A message that was received. -/
structure MqReceipt where
  /-- What the sender of the message had copied. -/
  data : List UInt8
  size : ℕ
  /-- The buffer after the copying. -/
  got : List UInt8
  deriving DecidableEq

/-- The system with one message queue. A party is a thread or an interrupt handler. -/
structure MqSys (n q : ℕ) extends Callers MqCall n where
  m : Bytes
  mq : MsgQueue
  work : Fin n ⊕ Fin q → Option MqWork
  /-- The abstract deque: a send appends to it, an urgent send puts in front, and a receive takes
  the first one. -/
  queue : List (List UInt8)
  received : List MqReceipt

/-- The steps of the threads and the other parties. -/
inductive MqAct (n q : ℕ)
  | env (e : Env n)
  /-- `rt_mq_send` or `rt_mq_urgent` takes a cell. -/
  | send (p : Fin n ⊕ Fin q) (urgent : Bool) (buffer size : ℕ)
  | recv (t : Fin n) (buffer size : ℕ) (time : ℤ)
  /-- A call that was waiting goes on. -/
  | go (t : Fin n)
  /-- `rt_mq_recv` with a timeout of `0` by an interrupt handler. -/
  | recvNow (i : Fin q) (buffer size : ℕ)
  /-- A party with a cell in its hand goes on. -/
  | next (p : Fin n ⊕ Fin q)
  | reset
  /-- The rest of the program writes a byte that is not of the pool. -/
  | write (a : ℕ) (v : UInt8)
  deriving DecidableEq

/-- The size of a cell. -/
def MsgQueue.stride : ℕ := mq.msgSize + mqMessageSize

/-- The cells of the pool. -/
def MsgQueue.nodes : List ℕ := cells mq.msgPool mq.stride mq.maxMsgs

/-- The `size` bytes from `a` on are not of the pool. -/
def MsgQueue.Outside (a size : ℕ) : Prop :=
  a + size ≤ mq.msgPool ∨ mq.msgPool + mq.maxMsgs * mq.stride ≤ a

instance (mq : MsgQueue) (a size : ℕ) : Decidable (mq.Outside a size) := by
  unfold MsgQueue.Outside; infer_instance

theorem MsgQueue.unlink_outside (m : Bytes) (a size : ℕ) :
    (mq.unlink m).Outside a size ↔ mq.Outside a size := by
  have hpool : (mq.unlink m).msgPool = mq.msgPool := by rw [MsgQueue.unlink]
  have hmax : (mq.unlink m).maxMsgs = mq.maxMsgs := by rw [MsgQueue.unlink]
  have hsize : (mq.unlink m).msgSize = mq.msgSize := by rw [MsgQueue.unlink]
  unfold MsgQueue.Outside MsgQueue.stride
  rw [hpool, hmax, hsize]

theorem MsgQueue.unlink_entry (m : Bytes) : (mq.unlink m).entry = (mq.entry + (2^16 - 1)) % 2^16 := by
  unfold MsgQueue.unlink
  generalize (mq.entry + (2^16 - 1)) % 2^16 = entry
  rfl

variable (s : MqSys n q)

/-- A party can run: a thread that is in no call runs when it is the current one. -/
def MqSys.Runs : Fin n ⊕ Fin q → Prop
  | .inl t => s.k.current = some t ∧ s.doing t = .free
  | .inr _ => True

instance (s : MqSys n q) : (p : Fin n ⊕ Fin q) → Decidable (s.Runs p)
  | .inl t => inferInstanceAs (Decidable (s.k.current = some t ∧ s.doing t = .free))
  | .inr _ => isTrue trivial

/-- The state after a party has taken the first message. -/
def MqSys.took (p : Fin n ⊕ Fin q) (k : Kernel n) (mq : MsgQueue) (msg buffer size : ℕ) : MqSys n q :=
  { s with
    k := k
    mq := mq
    work := update s.work p (some (.copyOut msg buffer size (s.queue.headD [])))
    queue := s.queue.tail }

/-- A thread that is in no call runs `rt_mq_recv`. -/
def MqSys.recvBy (t : Fin n) (buffer size : ℕ) (time : ℤ) :
    Except Fault (Kernel n × MsgQueue × MqRecv) → Option (MqSys n q)
  | .ok (k, mq, .ret _) => some { s with k := k, mq := mq }
  | .ok (k, mq, .wait) =>
    some { s with
      k := k, mq := mq, doing := update s.doing t (.call (.recv buffer size time s.k.timers.tick)) }
  | .ok (k, mq, .took msg) => some (s.took (.inl t) k mq msg buffer size)
  | .error _ => none

/-- The next part of what a party does with the cell in its hand. -/
def MqSys.goOn (p : Fin n ⊕ Fin q) : MqWork → Option (MqSys n q)
  | .copyIn urgent msg buffer size =>
    let m := if urgent then rtMqUrgentCopy s.m msg buffer size else rtMqSendCopy s.m msg buffer size
    some { s with m := m, work := update s.work p (some (.linkIn urgent msg (bytes s.m buffer size))) }
  | .linkIn urgent msg data =>
    match if urgent then rtMqUrgentLink s.k s.m s.mq msg else rtMqSendLink s.k s.m s.mq msg with
    | .ok (k, m, mq) =>
      some { s with
        k := k, m := m, mq := mq, work := update s.work p none
        queue := if urgent then data :: s.queue else s.queue ++ [data] }
    | .error _ => none
  | .copyOut msg buffer size data =>
    let m := rtMqRecvCopy s.m s.mq msg buffer size
    some { s with
      m := m, work := update s.work p (some (.giveBack msg))
      received := s.received ++ [⟨data, size, bytes m buffer size⟩] }
  | .giveBack msg =>
    let (m, mq) := rtMqRecvFree s.m s.mq msg
    some { s with m := m, mq := mq, work := update s.work p none }

/-- A step, unless it does not return. The buffers that are passed are not of the pool. -/
def MqSys.exec : MqAct n q → Option (MqSys n q)
  | .env e => (s.toCallers.env e).map fun c => { s with toCallers := c }
  | .send p urgent buffer size =>
    if s.Runs p ∧ s.work p = none ∧ s.mq.Outside buffer size then
      match rtMqSendTake s.m s.mq buffer size with
      | .ok (mq, .ok msg) =>
        some { s with mq := mq, work := update s.work p (some (.copyIn urgent msg buffer size)) }
      | .ok (mq, .error _) => some { s with mq := mq }
      | .error _ => none
    else none
  | .recv t buffer size time =>
    if s.Runs (.inl t) ∧ s.work (.inl t) = none ∧ s.mq.Outside buffer size then
      s.recvBy t buffer size time (rtMqRecv s.k s.m s.mq buffer size time)
    else none
  | .go t =>
    if s.k.current = some t ∧ s.k.sched.stat t = .ready then
      let s' := { s with doing := update s.doing t .free }
      match s.doing t with
      | .call (.recv buffer size time tick) =>
        if s.k.error t ≠ RT_EOK then some s'
        else
          let time := timeLeft time (sub32 s.k.timers.tick tick)
          s'.recvBy t buffer size time (rtMqRecvLoop s.k s.m s.mq time)
      | _ => none
    else none
  | .recvNow i buffer size =>
    if s.work (.inr i) = none ∧ s.mq.Outside buffer size then
      match rtMqRecv s.k s.m s.mq buffer size 0 with
      | .ok (k, mq, .took msg) => some (s.took (.inr i) k mq msg buffer size)
      | .ok (k, mq, .ret _) => some { s with k := k, mq := mq }
      | _ => none
    else none
  | .next p =>
    match s.work p with
    | some w => if s.Runs p then s.goOn p w else none
    | none => none
  | .reset =>
    match rtMqReset s.k s.m s.mq with
    | .ok (k, m, mq) => some { s with k := k, m := m, mq := mq, queue := [] }
    | .error _ => none
  | .write a v => if s.mq.Outside a 1 then some { s with m := update s.m a v } else none

/-- A queue that `rt_mq_init` or `rt_mq_create` has built, on a pool that is a part of the memory.
-/
def MqBuilt : Prop :=
  (∃ m₀ msgPool msgSize poolSize flag, 0 < msgPool ∧ msgPool + poolSize ≤ 2^32 ∧
    (m, mq) = rtMqInit m₀ msgPool msgSize poolSize flag) ∨
  ∃ m₀ msgPool msgSize maxMsgs flag, 0 < msgPool ∧ msgPool + mqCreateSize msgSize maxMsgs ≤ 2^32 ∧
    (m, mq) = rtMqCreate m₀ msgPool msgSize maxMsgs flag

/-- One message queue, `n` threads and `q` interrupt handlers. -/
def mqSystem (n q : ℕ) : System (MqSys n q) (MqAct n q) where
  init := fun s => s.toCallers.Boot ∧ MqBuilt s.m s.mq ∧ s.work = (fun _ => none) ∧ s.queue = [] ∧ s.received = []
  step := fun s a s' => s.exec a = some s'

/-! ## The cells -/

/-- Where a cell is. -/
inductive MqPlace (n q : ℕ)
  | free
  | queued
  | hand (p : Fin n ⊕ Fin q)
  deriving DecidableEq

/-- What a party relies on between its parts, if the cells hold `data`. -/
def MqWork.Ok (data : ℕ → List UInt8) : MqWork → Prop
  | .copyIn _ _ buffer size => size ≤ mq.msgSize ∧ mq.Outside buffer size
  | .linkIn urgent msg d => data msg = d ∧ (urgent = false → link m msg = 0)
  | .copyOut msg buffer size d => data msg = d ∧ mq.Outside buffer size
  | .giveBack _ => True

variable {mq mq' : MsgQueue}

theorem MqWork.Ok.congr {m m' : Bytes} {data data' : ℕ → List UInt8} {w : MqWork}
    (h : w.Ok m mq data) (hlink : link m' w.msg = link m w.msg) (hdata : data' w.msg = data w.msg)
    (hsize : mq'.msgSize = mq.msgSize) (hpool : mq'.msgPool = mq.msgPool) (hmax : mq'.maxMsgs = mq.maxMsgs) :
    w.Ok m' mq' data' := by
  have hout : ∀ a size, mq'.Outside a size ↔ mq.Outside a size := by
    intro a size
    unfold MsgQueue.Outside MsgQueue.stride
    rw [hsize, hpool, hmax]
  cases w with
  | copyIn urgent msg buffer size => exact ⟨hsize ▸ h.1, (hout _ _).mpr h.2⟩
  | linkIn urgent msg d => exact ⟨hdata.trans h.1, fun hu => hlink.trans (h.2 hu)⟩
  | copyOut msg buffer size d => exact ⟨hdata.trans h.1, (hout _ _).mpr h.2⟩
  | giveBack msg => trivial

/-- The lists in memory. The list of messages is `msgs`, and the free list is `free`; `place` says
where each cell is, and `data` what was copied into it last. -/
structure MqLayout (m : Bytes) (mq : MsgQueue) (work : Fin n ⊕ Fin q → Option MqWork) (free msgs : List ℕ)
    (place : ℕ → MqPlace n q) (data : ℕ → List UInt8) : Prop where
  pool_pos : 0 < mq.msgPool
  pool_le : mq.msgPool + mq.maxMsgs * mq.stride ≤ 2^32
  max_lt : mq.maxMsgs < 2^16
  free_chain : Chain (link m) 0 mq.msgQueueFree free
  msgs_chain : Chain (link m) 0 mq.msgQueueHead msgs
  tail : mq.msgQueueTail = msgs.getLast?.getD 0
  free_holds : Holds mq.nodes place .free free
  msgs_holds : Holds mq.nodes place .queued msgs
  hand_holds : ∀ p, Holds mq.nodes place (.hand p) ((work p).map MqWork.msg).toList
  stored : ∀ a ∈ mq.nodes, (data a).length ≤ mq.msgSize ∧ bytes m (a + 4) (data a).length = data a
  work_ok : ∀ p w, work p = some w → w.Ok m mq data

variable {urgent : Bool} {d : List UInt8} {buffer size : ℕ}

namespace MqLayout

variable {m m' : Bytes} {mq : MsgQueue} {work : Fin n ⊕ Fin q → Option MqWork} {free msgs : List ℕ}
  {place : ℕ → MqPlace n q} {data : ℕ → List UInt8} {p : Fin n ⊕ Fin q} {w : MqWork} {a b : ℕ}

variable {w' : MqWork}

section

variable (h : MqLayout m mq work free msgs place data)
include h

theorem node_bounds (ha : a ∈ mq.nodes) :
    a ≠ 0 ∧ a < 2^32 ∧ mq.msgPool ≤ a ∧ a + mq.stride ≤ mq.msgPool + mq.maxMsgs * mq.stride := by
  have hpos := h.pool_pos
  have hle := h.pool_le
  have hbounds := cells_bounds ha
  have hstride : mq.stride = mq.msgSize + 4 := rfl
  exact ⟨by omega, by omega, hbounds.1, hbounds.2⟩

theorem first_lt {y : MqPlace n q} {l : List ℕ} {c : ℕ}
    (hl : Holds mq.nodes place y l) (hc : Chain (link m) 0 c l) : c < 2^32 := by
  cases l with
  | nil =>
    rw [show c = 0 from hc]
    norm_num
  | cons x l =>
    rw [hc.1]
    exact (h.node_bounds ((hl.mem x).mp mem_cons_self).1).2.1

theorem head_lt : mq.msgQueueHead < 2^32 :=
  h.first_lt h.msgs_holds h.msgs_chain

theorem free_lt : mq.msgQueueFree < 2^32 :=
  h.first_lt h.free_holds h.free_chain

theorem hand_mem (hw : work p = some w) : w.msg ∈ mq.nodes ∧ place w.msg = .hand p := by
  apply ((h.hand_holds p).mem w.msg).mp
  rw [hw]
  exact mem_singleton.mpr rfl

theorem hand_ne {p' : Fin n ⊕ Fin q}
    (hw : work p = some w) (hw' : work p' = some w') (hne : p' ≠ p) : w'.msg ≠ w.msg := by
  intro heq
  have hplace := (h.hand_mem hw').2
  rw [heq, (h.hand_mem hw).2] at hplace
  exact hne (MqPlace.hand.inj hplace).symm

theorem hands_update {x : MqPlace n q} {w' : Option MqWork}
    (hp : Holds mq.nodes (update place a x) (.hand p) (w'.map MqWork.msg).toList)
    (hplace : ∀ p', p' ≠ p → place a ≠ .hand p') (hx : ∀ p', p' ≠ p → x ≠ .hand p') (p' : Fin n ⊕ Fin q) :
    Holds mq.nodes (update place a x) (.hand p') ((update work p w' p').map MqWork.msg).toList := by
  by_cases hne : p' = p
  · subst hne
    rw [update_self]
    exact hp
  · rw [update_of_ne hne]
    exact (h.hand_holds p').other (hplace p' hne) (hx p' hne)

theorem hands_take (hw : work p = none) (ha : w.msg ∈ mq.nodes)
    (hplace : ∀ p', place w.msg ≠ .hand p') (p' : Fin n ⊕ Fin q) :
    Holds mq.nodes (update place w.msg (.hand p)) (.hand p')
      ((update work p (some w) p').map MqWork.msg).toList := by
  refine h.hands_update ?_ (fun p' _ => hplace p') (fun p' hne heq => hne (MqPlace.hand.inj heq).symm) p'
  have hp := h.hand_holds p
  rw [hw] at hp
  exact hp.cons ha (hplace p)

theorem hands_give (hw : work p = some w) {x : MqPlace n q}
    (hx : ∀ p', x ≠ .hand p') (p' : Fin n ⊕ Fin q) :
    Holds mq.nodes (update place w.msg x) (.hand p')
      ((update work p none p').map MqWork.msg).toList := by
  have hplace := (h.hand_mem hw).2
  refine h.hands_update ?_ (fun p' hne heq => hne ?_) (fun p' _ => hx p') p'
  · have hp := h.hand_holds p
    rw [hw] at hp
    exact hp.uncons (hx p)
  · exact (MqPlace.hand.inj (hplace.symm.trans heq)).symm

theorem hand_keep (hw : work p = some w) (hmsg : w'.msg = w.msg) (p' : Fin n ⊕ Fin q) :
    Holds mq.nodes place (.hand p') ((update work p (some w') p').map MqWork.msg).toList := by
  by_cases hne : p' = p
  · subst hne
    have hp := h.hand_holds p'
    rw [hw] at hp
    rw [update_self]
    change Holds _ _ _ [w'.msg]
    rw [hmsg]
    exact hp
  · rw [update_of_ne hne]
    exact h.hand_holds p'

theorem works_update {data' : ℕ → List UInt8}
    {w' : Option MqWork} (hp : ∀ w, w' = some w → w.Ok m' mq' data')
    (hother : ∀ p' w, p' ≠ p → work p' = some w → w.Ok m mq data → w.Ok m' mq' data') (p' : Fin n ⊕ Fin q) (w : MqWork)
    (hw : update work p w' p' = some w) : w.Ok m' mq' data' := by
  by_cases hne : p' = p
  · subst hne
    rw [update_self] at hw
    exact hp w hw
  · rw [update_of_ne hne] at hw
    exact hother p' w hne hw (h.work_ok p' w hw)

end

/-! ### Changes of the memory -/

theorem stored_store (h : MqLayout m mq work free msgs place data) (ha : a ∈ mq.nodes) (x : ℕ) :
    ∀ b ∈ mq.nodes, (data b).length ≤ mq.msgSize ∧ bytes (m.store a 4 x) (b + 4) (data b).length = data b := by
  intro b hb
  obtain ⟨hle, hbytes⟩ := h.stored b hb
  have hstride : mq.stride = mq.msgSize + 4 := rfl
  refine ⟨hle, ?_⟩
  rw [bytes_store ha hb (by omega)]
  exact hbytes

theorem chain_store (ha : a ∈ mq.nodes) {y : MqPlace n q} {l : List ℕ} (hl : Holds mq.nodes place y l)
    (hy : place a ≠ y) (x : ℕ) {c : ℕ} (hc : Chain (link m) 0 c l) : Chain (link (m.store a 4 x)) 0 c l := by
  refine hc.congr fun b hb => ?_
  have hmem := (hl.mem b).mp hb
  refine link_store_of_ne ha hmem.1 (fun heq => hy ?_) (le_add_left _ _)
  rw [← heq]
  exact hmem.2

section

variable (h : MqLayout m mq work free msgs place data)
include h

theorem work_store (ha : a ∈ mq.nodes) (x : ℕ)
    (hw : work p = some w) (hne : w.msg ≠ a) (hok : w.Ok m mq data) : w.Ok (m.store a 4 x) mq data :=
  hok.congr (link_store_of_ne ha (h.hand_mem hw).1 hne (le_add_left _ _)) rfl rfl rfl rfl

theorem outside
    (hsame : ∀ x, mq.msgPool ≤ x → x < mq.msgPool + mq.maxMsgs * mq.stride → m' x = m x) :
    MqLayout m' mq work free msgs place data := by
  have hstride : mq.stride = mq.msgSize + 4 := rfl
  have hlink : ∀ b ∈ mq.nodes, link m' b = link m b := by
    intro b hb
    obtain ⟨-, -, hle, hge⟩ := h.node_bounds hb
    exact Bytes.load_congr fun x hx hx' => hsame x (by omega) (by omega)
  refine { h with
    free_chain := h.free_chain.congr fun b hb => hlink b ((h.free_holds.mem b).mp hb).1
    msgs_chain := h.msgs_chain.congr fun b hb => hlink b ((h.msgs_holds.mem b).mp hb).1
    stored := fun b hb => ?_
    work_ok := fun p w hw => (h.work_ok p w hw).congr (hlink _ (h.hand_mem hw).1) rfl rfl rfl rfl }
  obtain ⟨hle, hbytes⟩ := h.stored b hb
  obtain ⟨-, -, hlo, hhi⟩ := h.node_bounds hb
  refine ⟨hle, ?_⟩
  rw [bytes_congr fun x hx hx' => hsame x (by omega) (by omega)]
  exact hbytes

theorem setWork (hw : work p = some w) (hmsg : w'.msg = w.msg) (hok : w'.Ok m mq data) :
    MqLayout m mq (update work p (some w')) free msgs place data := by
  refine { h with hand_holds := h.hand_keep hw hmsg, work_ok := h.works_update ?_ fun _ _ _ _ hok => hok }
  rintro w'' heq
  rwa [← some.inj heq]

/-- Copying into a cell in hand changes no list. -/
theorem copyIn (hw : work p = some w) (hsame : ∀ x, x < w.msg ∨ w.msg + mq.stride ≤ x → m' x = m x)
    (hself : urgent = false → link m' w.msg = 0) (hd : d.length ≤ mq.msgSize)
    (hbytes : bytes m' (w.msg + 4) d.length = d) :
    MqLayout m' mq (update work p (some (.linkIn urgent w.msg d))) free msgs place
      (update data w.msg d) := by
  obtain ⟨hnode, hplace⟩ := h.hand_mem hw
  have hstride : mq.stride = mq.msgSize + 4 := rfl
  -- The other cells are apart from the one that changes.
  have hlink : ∀ b ∈ mq.nodes, b ≠ w.msg → link m' b = link m b := by
    intro b hb hne
    refine Bytes.load_congr fun x hx hx' => hsame x ?_
    have := cells_apart hnode hb hne.symm
    omega
  have hoff : ∀ {y l}, Holds mq.nodes place y l → y ≠ .hand p → ∀ b ∈ l, link m' b = link m b := by
    intro y l hl hy b hb
    obtain ⟨hbn, hby⟩ := (hl.mem b).mp hb
    refine hlink b hbn ?_
    rintro rfl
    exact hy (hby.symm.trans hplace)
  refine { h with
    free_chain := h.free_chain.congr (hoff h.free_holds (by simp))
    msgs_chain := h.msgs_chain.congr (hoff h.msgs_holds (by simp))
    hand_holds := h.hand_keep hw rfl
    stored := fun b hb => ?_
    work_ok := h.works_update ?_ fun p' w' hne hw' hok => ?_ }
  · by_cases hne : b = w.msg
    · subst hne
      rw [update_self]
      exact ⟨hd, hbytes⟩
    · obtain ⟨hle, hb'⟩ := h.stored b hb
      rw [update_of_ne hne]
      refine ⟨hle, ?_⟩
      rw [bytes_congr fun x hx hx' => hsame x ?_]
      · exact hb'
      · have := cells_apart hnode hb (Ne.symm hne)
        omega
  · rintro w'' heq
    rw [← some.inj heq]
    exact ⟨update_self .., hself⟩
  · have hother := h.hand_ne hw hw' hne
    exact hok.congr (hlink _ (h.hand_mem hw').1 hother) (update_of_ne hother ..) rfl rfl rfl

end

/-! ### Moves of a cell -/

section

variable (h : MqLayout m mq work free msgs place data)
include h

theorem sendTake (hw : work p = none) (hne : mq.msgQueueFree ≠ 0)
    (urgent : Bool) (hsize : size ≤ mq.msgSize) (hout : mq.Outside buffer size) :
    ∃ free' place', MqLayout m { mq with msgQueueFree := link m mq.msgQueueFree }
      (update work p (some (.copyIn urgent mq.msgQueueFree buffer size))) free' msgs place' data := by
  obtain ⟨free', rfl, hchain⟩ := h.free_chain.uncons hne
  obtain ⟨hnode, hplace⟩ := (h.free_holds.mem _).mp mem_cons_self
  refine ⟨free', update place mq.msgQueueFree (.hand p), { h with
    free_chain := hchain
    free_holds := h.free_holds.uncons (by simp)
    msgs_holds := h.msgs_holds.other (by simp [hplace]) (by simp)
    hand_holds := h.hands_take (w := .copyIn urgent mq.msgQueueFree buffer size) hw hnode fun p' => by
      simp [MqWork.msg, hplace]
    work_ok := h.works_update ?_ fun _ _ _ _ hok => hok.congr rfl rfl rfl rfl rfl }⟩
  rintro w heq
  rw [← some.inj heq]
  exact ⟨hsize, hout⟩

theorem tail_eq_zero : mq.msgQueueTail = 0 ↔ msgs = [] := by
  rw [h.tail]
  rcases eq_nil_or_concat' msgs with rfl | ⟨l, y, rfl⟩
  · simp
  · have hy := ((h.msgs_holds.mem y).mp (by simp)).1
    simp [(h.node_bounds hy).1]

/-- Linking a cell in hand makes it the last message. -/
theorem linkLast (hw : work p = some (.linkIn false a d)) :
    MqLayout (mq.linkLast m a).1 (mq.linkLast m a).2 (update work p none) free (msgs ++ [a])
      (update place a .queued) data := by
  obtain ⟨hnode, hplace⟩ : a ∈ mq.nodes ∧ place a = .hand p := h.hand_mem hw
  obtain ⟨hne, hlt, -⟩ := h.node_bounds hnode
  have hzero : link m a = 0 := (h.work_ok p _ hw).2 rfl
  have hhands := h.hands_give (x := .queued) hw (by simp)
  have hfree := h.free_holds.other (y := .queued) (a := a) (by simp [hplace]) (by simp)
  have hmsgs := h.msgs_holds.concat hnode (by simp [hplace])
  rcases eq_nil_or_concat' msgs with rfl | ⟨l, y, rfl⟩
  · -- The cell is the first message and the last one.
    have htail : mq.msgQueueTail = 0 := h.tail_eq_zero.mpr rfl
    have hhead : mq.msgQueueHead = 0 := h.msgs_chain
    have hm : (mq.linkLast m a).1 = m := if_neg (not_not.mpr htail)
    rw [hm]
    refine { h with
      msgs_chain := ?_
      tail := rfl
      free_holds := hfree
      msgs_holds := hmsgs
      hand_holds := hhands
      work_ok := h.works_update (by simp) fun _ _ _ _ hok => hok.congr rfl rfl rfl rfl rfl }
    change Chain (link m) 0 (if mq.msgQueueHead = 0 then a else mq.msgQueueHead) [a]
    rw [if_pos hhead]
    exact ⟨rfl, hne, hzero⟩
  · -- The link of the last message is set.
    obtain ⟨hynode, hyplace⟩ := (h.msgs_holds.mem y).mp (by simp)
    have hya : y ≠ a := by
      rintro rfl
      rw [hplace] at hyplace
      cases hyplace
    have htail : mq.msgQueueTail = y := by rw [h.tail]; simp
    have hy0 := (h.node_bounds hynode).1
    have hm : (mq.linkLast m a).1 = m.store y 4 a := by
      change (if mq.msgQueueTail ≠ 0 then m.store mq.msgQueueTail 4 a else m) = _
      rw [htail, if_pos hy0]
    have hhead : mq.msgQueueHead ≠ 0 := by
      intro hnil
      have := h.msgs_chain.nil_iff.mpr hnil
      simp at this
    rw [hm]
    refine { h with
      free_chain := chain_store hynode h.free_holds (by simp [hyplace]) a h.free_chain
      msgs_chain := ?_
      tail := by simp [MsgQueue.linkLast]
      free_holds := hfree
      msgs_holds := hmsgs
      hand_holds := hhands
      stored := h.stored_store hynode a
      work_ok := h.works_update (by simp) fun p' w hp' hw' hok => ?_ }
    · change Chain _ 0 (if mq.msgQueueHead = 0 then a else mq.msgQueueHead) _
      rw [if_neg hhead]
      refine h.msgs_chain.append hne (link_store_self m y hlt) ?_ fun z hz => ?_
      · rw [link_store_of_ne hynode hnode hya.symm (le_add_left _ _)]
        exact hzero
      · have hznode := ((h.msgs_holds.mem z).mp (by simp [hz])).1
        refine link_store_of_ne hynode hznode ?_ (le_add_left _ _)
        rintro rfl
        exact disjoint_of_nodup_append h.msgs_holds.nodup hz mem_cons_self
    · refine (h.work_store hynode a hw' ?_ hok).congr rfl rfl rfl rfl rfl
      intro heq
      have := (h.hand_mem hw').2
      rw [heq, hyplace] at this
      cases this

theorem linkFirst (hw : work p = some (.linkIn urgent a d)) :
    MqLayout (mq.linkFirst m a).1 (mq.linkFirst m a).2 (update work p none) free (a :: msgs)
      (update place a .queued) data := by
  obtain ⟨hnode, hplace⟩ : a ∈ mq.nodes ∧ place a = .hand p := h.hand_mem hw
  refine { h with
    free_chain := chain_store hnode h.free_holds (by simp [hplace]) _ h.free_chain
    msgs_chain := ⟨rfl, (h.node_bounds hnode).1, ?_⟩
    tail := ?_
    free_holds := h.free_holds.other (by simp [hplace]) (by simp)
    msgs_holds := h.msgs_holds.cons hnode (by simp [hplace])
    hand_holds := h.hands_give hw (by simp)
    stored := h.stored_store hnode _
    work_ok := h.works_update (by simp) fun p' w hne hw' hok =>
      (h.work_store hnode _ hw' (h.hand_ne hw hw' hne) hok).congr rfl rfl rfl rfl rfl }
  · change Chain (link (m.store a 4 mq.msgQueueHead)) 0 (link (m.store a 4 mq.msgQueueHead) a) msgs
    rw [link_store_self m a h.head_lt]
    exact chain_store hnode h.msgs_holds (by simp [hplace]) _ h.msgs_chain
  · change (if mq.msgQueueTail = 0 then a else mq.msgQueueTail) = _
    cases hmsgs : msgs with
    | nil =>
      rw [if_pos (h.tail_eq_zero.mpr hmsgs)]
      rfl
    | cons b l =>
      have hne : mq.msgQueueTail ≠ 0 := fun hzero => by
        rw [h.tail_eq_zero.mp hzero] at hmsgs
        cases hmsgs
      rw [if_neg hne, h.tail, hmsgs, getLast?_cons_cons]

end

theorem tail_unlink (h : MqLayout m mq work free (a :: msgs) place data) :
    (if mq.msgQueueTail = a then 0 else mq.msgQueueTail) = msgs.getLast?.getD 0 := by
  rw [h.tail]
  rcases eq_nil_or_concat' msgs with rfl | ⟨l, y, rfl⟩
  · simp
  · have hya : y ≠ a := by
      rintro rfl
      have hnodup := h.msgs_holds.nodup
      simp at hnodup
    rw [getLast?_cons, getLast?_append]
    simp [hya]

section

variable (h : MqLayout m mq work free msgs place data)
include h

theorem unlinkHead (hw : work p = none) (hne : mq.msgQueueHead ≠ 0)
    (hout : mq.Outside buffer size) (entry : ℕ) :
    ∃ msgs' place', msgs = mq.msgQueueHead :: msgs' ∧ MqLayout m
      { mq with
        msgQueueHead := link m mq.msgQueueHead
        msgQueueTail := if mq.msgQueueTail = mq.msgQueueHead then 0 else mq.msgQueueTail
        entry := entry }
      (update work p (some (.copyOut mq.msgQueueHead buffer size (data mq.msgQueueHead)))) free msgs' place'
      data := by
  obtain ⟨msgs', rfl, hchain⟩ := h.msgs_chain.uncons hne
  obtain ⟨hnode, hplace⟩ := (h.msgs_holds.mem _).mp mem_cons_self
  refine ⟨msgs', update place mq.msgQueueHead (.hand p), rfl, { h with
    msgs_chain := hchain
    tail := h.tail_unlink
    free_holds := h.free_holds.other (by simp [hplace]) (by simp)
    msgs_holds := h.msgs_holds.uncons (by simp)
    hand_holds := h.hands_take (w := .copyOut mq.msgQueueHead buffer size (data mq.msgQueueHead)) hw hnode fun p' => by
      simp [MqWork.msg, hplace]
    work_ok := h.works_update ?_ fun _ _ _ _ hok => hok.congr rfl rfl rfl rfl rfl }⟩
  rintro w heq
  rw [← some.inj heq]
  exact ⟨rfl, hout⟩

theorem unlink (hw : work p = none) (hne : mq.msgQueueHead ≠ 0) (hout : mq.Outside buffer size) :
    ∃ msgs' place', msgs = mq.msgQueueHead :: msgs' ∧ MqLayout m (mq.unlink m)
      (update work p (some (.copyOut mq.msgQueueHead buffer size (data mq.msgQueueHead)))) free msgs' place'
      data := by
  obtain ⟨msgs', place', hmsgs, hlayout⟩ := h.unlinkHead hw hne hout ((mq.entry + (2^16 - 1)) % 2^16)
  refine ⟨msgs', place', hmsgs, ?_⟩
  rw [MsgQueue.unlink]
  exact hlayout

theorem giveBack (hw : work p = some (.giveBack a)) :
    MqLayout (rtMqRecvFree m mq a).1 (rtMqRecvFree m mq a).2 (update work p none) (a :: free) msgs
      (update place a .free) data := by
  obtain ⟨hnode, hplace⟩ : a ∈ mq.nodes ∧ place a = .hand p := h.hand_mem hw
  refine { h with
    free_chain := ⟨rfl, (h.node_bounds hnode).1, ?_⟩
    msgs_chain := chain_store hnode h.msgs_holds (by simp [hplace]) _ h.msgs_chain
    free_holds := h.free_holds.cons hnode (by simp [hplace])
    msgs_holds := h.msgs_holds.other (by simp [hplace]) (by simp)
    hand_holds := h.hands_give hw (by simp)
    stored := h.stored_store hnode _
    work_ok := h.works_update (by simp) fun p' w hne hw' hok =>
      (h.work_store hnode _ hw' (h.hand_ne hw hw' hne) hok).congr rfl rfl rfl rfl rfl }
  change Chain (link (m.store a 4 mq.msgQueueFree)) 0 (link (m.store a 4 mq.msgQueueFree) a) free
  rw [link_store_self m a h.free_lt]
  exact chain_store hnode h.free_holds (by simp [hplace]) _ h.free_chain

end

theorem resetStep (h : MqLayout m mq work free (a :: msgs) place data) :
    MqLayout (m.store a 4 mq.msgQueueFree)
      { mq with
        msgQueueHead := link m a
        msgQueueTail := if mq.msgQueueTail = a then 0 else mq.msgQueueTail
        msgQueueFree := a } work (a :: free) msgs (update place a .free) data := by
  obtain ⟨hnode, hplace⟩ := (h.msgs_holds.mem _).mp mem_cons_self
  have hmsgs := h.msgs_holds.uncons (y := .free) (by simp)
  refine { h with
    free_chain := ⟨rfl, (h.node_bounds hnode).1, ?_⟩
    msgs_chain := ?_
    tail := h.tail_unlink
    free_holds := h.free_holds.cons hnode (by simp [hplace])
    msgs_holds := hmsgs
    hand_holds := fun p => (h.hand_holds p).other (by simp [hplace]) (by simp)
    stored := h.stored_store hnode _
    work_ok := fun p w hw => (h.work_store hnode _ hw ?_ (h.work_ok p w hw)).congr rfl rfl rfl rfl rfl }
  · rw [link_store_self m a h.free_lt]
    exact chain_store hnode h.free_holds (by simp [hplace]) _ h.free_chain
  · exact chain_store hnode hmsgs (by simp) _ h.msgs_chain.2.2
  · intro heq
    have hhand := (h.hand_mem hw).2
    rw [heq, hplace] at hhand
    cases hhand

theorem resetLoop (h : MqLayout m mq work free msgs place data) {fuel : ℕ} (hfuel : msgs.length < fuel) :
    ∃ m' mq' free' place', rtMqResetLoop fuel m mq = .ok (m', mq') ∧
      (∀ a size, mq'.Outside a size ↔ mq.Outside a size) ∧ MqLayout m' mq' work free' [] place' data := by
  -- Each turn of the loop takes one message off the list.
  induction msgs generalizing m mq free place fuel with
  | nil =>
    obtain ⟨fuel, rfl⟩ := exists_eq_succ_of_ne_zero (ne_zero_of_lt hfuel)
    exact ⟨m, mq, free, place, if_pos h.msgs_chain, fun _ _ => .rfl, h⟩
  | cons a msgs ih =>
    obtain ⟨fuel, rfl⟩ := exists_eq_succ_of_ne_zero (ne_zero_of_lt hfuel)
    obtain ⟨hhead, hne, -⟩ := h.msgs_chain
    obtain ⟨m', mq', free', place', hloop, hout, hlayout⟩ := ih h.resetStep (lt_of_succ_lt_succ hfuel)
    refine ⟨m', mq', free', place', ?_, hout, hlayout⟩
    rw [rtMqResetLoop, if_neg (by rw [hhead]; exact hne), hhead]
    exact hloop

theorem length_le (h : MqLayout m mq work free msgs place data) : msgs.length ≤ mq.maxMsgs := by
  have hle := (h.msgs_holds.nodup.subperm fun a ha => ((h.msgs_holds.mem a).mp ha).1).length_le
  rwa [MsgQueue.nodes, length_cells] at hle

end MqLayout

/-! ### The start -/

theorem mqFreeLoop_chain {msgPool stride count : ℕ} (hpos : 0 < msgPool) (hstride : 4 ≤ stride)
    (hle : msgPool + count * stride ≤ 2^32) :
    Chain (link (mqFreeLoop m msgPool stride count).1) 0 (mqFreeLoop m msgPool stride count).2
      (cells msgPool stride count).reverse := by
  induction count with
  | zero => rfl
  | succ count ih =>
    rw [succ_mul] at hle
    have ih := ih (by omega)
    have haddr : add32 msgPool (mul32 count stride) = msgPool + count * stride := by
      rw [mul32_eq (by omega), add32_eq (by omega)]
    rw [cells_succ, reverse_append]
    change Chain (link ((mqFreeLoop m msgPool stride count).1.store (add32 msgPool (mul32 count stride)) 4
      (mqFreeLoop m msgPool stride count).2)) 0 (add32 msgPool (mul32 count stride)) _
    rw [haddr]
    have hlt : (mqFreeLoop m msgPool stride count).2 < 2^32 := by
      cases count with
      | zero => exact Nat.two_pow_pos 32
      | succ count => exact Nat.mod_lt _ (Nat.two_pow_pos 32)
    refine ih.push (by omega) (link_store_self _ _ hlt) fun z hz => ?_
    have hbounds := cells_bounds (mem_reverse.mp hz)
    exact link_store_of_apart _ _ (.inr (by omega))

theorem mqSetup_layout {msgPool msgSize maxMsgs : ℕ} (flag : IpcFlag) (hpos : 0 < msgPool)
    (hmax : maxMsgs < 2^16) (hle : msgPool + maxMsgs * (msgSize + mqMessageSize) ≤ 2^32) :
    MqLayout (n := n) (q := q) (mqSetup m msgPool msgSize maxMsgs flag).1 (mqSetup m msgPool msgSize maxMsgs flag).2
      (fun _ => none) (cells msgPool (msgSize + mqMessageSize) maxMsgs).reverse [] (fun _ => .free) fun _ => [] where
  pool_pos := hpos
  pool_le := hle
  max_lt := hmax
  free_chain := mqFreeLoop_chain m hpos (le_add_left _ _) hle
  msgs_chain := rfl
  tail := rfl
  free_holds := ⟨nodup_reverse.mpr (nodup_cells (succ_pos _)), fun a => by
    rw [mem_reverse]
    exact ⟨fun ha => ⟨ha, rfl⟩, fun ha => ha.1⟩⟩
  msgs_holds := ⟨nodup_nil, fun a => by simp⟩
  hand_holds := fun p => ⟨nodup_nil, fun a => by simp⟩
  stored := fun a _ => ⟨zero_le _, rfl⟩
  work_ok := fun p w hw => by cases hw

variable {m : Bytes} {mq : MsgQueue}

theorem MqBuilt.layout (h : MqBuilt m mq) :
    mq.entry = 0 ∧ ∃ free, MqLayout (n := n) (q := q) m mq (fun _ => none) free [] (fun _ => .free) fun _ => [] := by
  rcases h with ⟨m₀, msgPool, msgSize, poolSize, flag, hpos, hle, heq⟩ |
    ⟨m₀, msgPool, msgSize, maxMsgs, flag, hpos, hle, heq⟩
  · obtain ⟨rfl, rfl⟩ := Prod.mk.inj heq
    refine ⟨rfl, _, mqSetup_layout m₀ flag hpos (Nat.mod_lt _ (Nat.two_pow_pos 16)) (le_trans ?_ hle)⟩
    -- As many messages as fit into the pool.
    refine Nat.add_le_add_left ?_ _
    calc poolSize / (rtAlign msgSize RT_ALIGN_SIZE % 2^16 + mqMessageSize) % 2^16 *
          (rtAlign msgSize RT_ALIGN_SIZE % 2^16 + mqMessageSize)
        ≤ poolSize / (rtAlign msgSize RT_ALIGN_SIZE % 2^16 + mqMessageSize) *
          (rtAlign msgSize RT_ALIGN_SIZE % 2^16 + mqMessageSize) := mul_le_mul_right _ (mod_le _ _)
      _ ≤ poolSize := div_mul_le_self _ _
  · obtain ⟨rfl, rfl⟩ := Prod.mk.inj heq
    have hmax : maxMsgs % 2^16 < 2^16 := Nat.mod_lt _ (Nat.two_pow_pos 16)
    have halign : rtAlign msgSize RT_ALIGN_SIZE % 2^16 + mqMessageSize ≤ 2^16 := by
      rw [rtAlign_four]
      unfold mqMessageSize
      omega
    refine ⟨rfl, _, mqSetup_layout m₀ flag hpos hmax (le_trans (Nat.add_le_add_left ?_ _) hle)⟩
    -- The product does not wrap, since both factors are 16-bit words.
    have hprod : (rtAlign msgSize RT_ALIGN_SIZE % 2^16 + mqMessageSize) * (maxMsgs % 2^16) < 2^32 :=
      calc (rtAlign msgSize RT_ALIGN_SIZE % 2^16 + mqMessageSize) * (maxMsgs % 2^16)
          ≤ 2^16 * (maxMsgs % 2^16) := mul_le_mul_right _ halign
        _ < 2^16 * 2^16 := mul_lt_mul_of_pos_left hmax (Nat.two_pow_pos 16)
        _ = 2^32 := by norm_num
    unfold mqCreateSize
    rw [mul32_eq hprod, mul_comm]

/-! ## What the functions do -/

theorem bytes_rtMemcpy {dst src count : ℕ} (h : dst + count ≤ src ∨ src + count ≤ dst) :
    bytes (rtMemcpy m dst src count) dst count = bytes m src count := by
  refine map_congr_left fun i hi => ?_
  exact rtMemcpy_of_mem h (mem_range.mp hi)

theorem link_rtMqSendCopy (m : Bytes) (msg buffer size : ℕ) : link (rtMqSendCopy m msg buffer size) msg = 0 := by
  have hsame : link (rtMqSendCopy m msg buffer size) msg = link (m.store msg 4 0) msg :=
    Bytes.load_congr fun x hx hx' => rtMemcpy_of_out (.inl hx')
  rw [hsame, link_store_self m msg (Nat.two_pow_pos 32)]

theorem rtMqSendTake_ok {msg : ℕ}
    (h : rtMqSendTake m mq buffer size = .ok (mq', .ok msg)) :
    msg = mq.msgQueueFree ∧ mq.msgQueueFree ≠ 0 ∧ size ≤ mq.msgSize ∧
      mq' = { mq with msgQueueFree := link m mq.msgQueueFree } := by
  unfold rtMqSendTake at h
  split_ifs at h with hzero hsize hfull
  · simp at h
  · simp at h
  · obtain ⟨hmq, hmsg⟩ := Prod.mk.inj (Except.ok.inj h)
    exact ⟨(Except.ok.inj hmsg).symm, hfull, Nat.le_of_not_lt hsize, hmq.symm⟩

theorem rtMqSendTake_error {e : ℤ}
    (h : rtMqSendTake m mq buffer size = .ok (mq', .error e)) : mq' = mq := by
  unfold rtMqSendTake at h
  split_ifs at h
  · exact (Prod.mk.inj (Except.ok.inj h)).1.symm
  · exact (Prod.mk.inj (Except.ok.inj h)).1.symm
  · simp at h

/-! ## Every run -/

theorem Clean.mqWake {s : Callers MqCall n} (h : Clean MqCall.list s) :
    ∃ k, RtThread.mqWake s.k = .ok k ∧ Clean MqCall.list { s with k := k } ∧
      (k.sched.waiters 0 ≠ [] → s.k.sched.waiters 0 ≠ [] ∧
        wokenCount MqCall.list { s with k := k } 0 = wokenCount MqCall.list s 0 + 1) := by
  cases hl : s.k.sched.waiters 0 with
  | nil => exact ⟨s.k, if_neg (not_not.mpr (h.isempty.mpr hl)), h, fun hne => absurd hl hne⟩
  | cons u l =>
    obtain ⟨hresume, hclean, -, hwoken⟩ := h.wakeHead hl
    have hu : u ∈ s.k.sched.waiters 0 := by rw [hl]; exact mem_cons_self
    refine ⟨(rtThreadResume s.k u).1, (if_pos (h.not_isempty hl)).trans hresume, hclean, fun _ => ⟨by simp, ?_⟩⟩
    rw [h.wokenCount_wake hu hwoken, if_pos rfl]

/-- The first bytes of what was received are those of what was sent. -/
def MqReceipt.Faithful (e : MqReceipt) : Prop :=
  e.got.take (min e.data.length e.size) = e.data.take (min e.data.length e.size)

instance (e : MqReceipt) : Decidable e.Faithful := by
  unfold MqReceipt.Faithful; infer_instance

/-- What holds in every state of a run, with `r` receivers that were woken and have begun to go on.
-/
structure MqInv (s : MqSys n q) (r : ℕ) : Prop where
  clean : Clean MqCall.list s.toCallers
  /-- A thread that waits has no cell in its hand, and its buffer is not of the pool. -/
  idle : ∀ t buffer size time tick, s.doing t = .call (.recv buffer size time tick) →
    s.work (.inl t) = none ∧ s.mq.Outside buffer size
  receivers : s.k.sched.waiters 0 ≠ [] → s.mq.entry ≤ wokenCount MqCall.list s.toCallers 0 + r
  entry : s.mq.entry = s.queue.length
  layout : ∃ free msgs place data, MqLayout s.m s.mq s.work free msgs place data ∧ s.queue = msgs.map data
  received : ∀ e ∈ s.received, e.Faithful

namespace MqInv

variable {s s' : MqSys n q} {r : ℕ} {p : Fin n ⊕ Fin q} {t : Fin n} {buffer size : ℕ}

theorem mono (h : MqInv s r) {r' : ℕ} (hr : r ≤ r') : MqInv s r' :=
  { h with receivers := fun hne => (h.receivers hne).trans (Nat.add_le_add_left hr _) }

theorem same (h : MqInv s r) {c : Callers MqCall n} (hclean : Clean MqCall.list c)
    (hcalls : ∀ t d, c.doing t = .call d → s.doing t = .call d)
    (hsub : (c.k.sched.waiters 0).Sublist (s.k.sched.waiters 0))
    (hwoken : ∀ u d, Woken c u d ↔ Woken s.toCallers u d) : MqInv { s with toCallers := c } r := by
  refine { h with
    clean := hclean
    idle := fun t buffer size time tick hd => h.idle t buffer size time tick (hcalls t _ hd)
    receivers := fun hne => ?_ }
  have hne' : s.k.sched.waiters 0 ≠ [] := by
    intro hnil
    rw [hnil, sublist_nil] at hsub
    exact hne hsub
  rw [wokenCount_congr hwoken]
  exact h.receivers hne'

theorem setError (h : MqInv s r) (hfree : s.doing t = .free) (e : ℤ) :
    MqInv { s with k := s.k.setError t e } r := by
  obtain ⟨hclean, hwoken⟩ := h.clean.setError hfree e
  exact h.same hclean (fun _ _ hd => hd) (List.Sublist.refl _) hwoken

theorem idle_update (h : MqInv s r) (hruns : s.Runs p) (w : Option MqWork) :
    ∀ t buffer size time tick, s.doing t = .call (.recv buffer size time tick) →
      update s.work p w (.inl t) = none ∧ s.mq.Outside buffer size := by
  intro t buffer size time tick hd
  obtain ⟨hidle, hbuf⟩ := h.idle t buffer size time tick hd
  refine ⟨(update_of_ne ?_ ..).trans hidle, hbuf⟩
  rintro rfl
  rw [hruns.2] at hd
  cases hd

variable {msg : ℕ}

theorem sendTake (h : MqInv s r) (hruns : s.Runs p) (hw : s.work p = none) (hout : s.mq.Outside buffer size)
    (urgent : Bool) (heq : rtMqSendTake s.m s.mq buffer size = .ok (mq, .ok msg)) :
    MqInv { s with mq := mq, work := update s.work p (some (.copyIn urgent msg buffer size)) } r := by
  obtain ⟨free, msgs, place, data, hlayout, hqueue⟩ := h.layout
  obtain ⟨rfl, hne, hsize, rfl⟩ := rtMqSendTake_ok heq
  obtain ⟨free', place', hlayout'⟩ := hlayout.sendTake hw hne urgent hsize hout
  exact { h with
    idle := h.idle_update hruns _
    layout := ⟨free', msgs, place', data, hlayout', hqueue⟩ }

/-- The step that copies a message in. -/
theorem copyIn (h : MqInv s r) (hruns : s.Runs p)
    (hw : s.work p = some (.copyIn urgent msg buffer size)) (hs : s.goOn p (.copyIn urgent msg buffer size) = some s') :
    MqInv s' r := by
  obtain ⟨free, msgs, place, data, hlayout, hqueue⟩ := h.layout
  obtain ⟨hsize, hout⟩ : size ≤ s.mq.msgSize ∧ s.mq.Outside buffer size := hlayout.work_ok p _ hw
  obtain ⟨hnode, hplace⟩ : msg ∈ s.mq.nodes ∧ place msg = .hand p := hlayout.hand_mem hw
  obtain ⟨-, -, hlo, hhi⟩ := hlayout.node_bounds hnode
  have hstride : s.mq.stride = s.mq.msgSize + 4 := rfl
  have hapart : msg + 4 + size ≤ buffer ∨ buffer + size ≤ msg := by
    unfold MsgQueue.Outside at hout
    omega
  obtain rfl := some.inj hs
  -- The other messages are not the cell in the hand, so their data are the same.
  have hsame : msgs.map (update data msg (bytes s.m buffer size)) = msgs.map data := by
    refine map_congr_left fun b hb => update_of_ne ?_ ..
    rintro rfl
    have hqueued := ((hlayout.msgs_holds.mem b).mp hb).2
    rw [hplace] at hqueued
    cases hqueued
  refine { h with
    idle := h.idle_update hruns _
    layout := ⟨free, msgs, place, _, hlayout.copyIn hw ?_ ?_ ?_ ?_, hqueue.trans hsame.symm⟩ }
  · intro x hx
    change x < msg ∨ msg + s.mq.stride ≤ x at hx
    split_ifs
    · exact rtMemcpy_of_out (by unfold mqMessageSize; omega)
    · exact (rtMemcpy_of_out (by unfold mqMessageSize; omega)).trans (Bytes.store_apply_of_out (by omega))
  · rintro rfl
    exact link_rtMqSendCopy s.m msg buffer size
  · rw [length_bytes]
    exact hsize
  · rw [length_bytes]
    split_ifs
    · exact bytes_rtMemcpy (by unfold mqMessageSize; omega)
    · refine (bytes_rtMemcpy (by unfold mqMessageSize; omega)).trans ?_
      exact bytes_congr fun x hx hx' => Bytes.store_apply_of_out (by omega)

variable {k : Kernel n}

theorem added (h : MqInv s 0) (hruns : s.Runs p)
    {queue : List (List UInt8)} (hk : mqWake s.k = .ok k)
    (hout : ∀ a size, s.mq.Outside a size → mq.Outside a size) (hentry : mq.entry = (s.mq.entry + 1) % 2^16)
    (hqueue : queue = d :: s.queue ∨ queue = s.queue ++ [d])
    (hlayout : ∃ free msgs place data,
      MqLayout m mq (update s.work p none) free msgs place data ∧ queue = msgs.map data) :
    MqInv { s with k := k, m := m, mq := mq, work := update s.work p none, queue := queue } 0 := by
  obtain ⟨k', hk', hclean, hwoken⟩ := h.clean.mqWake
  obtain rfl := Except.ok.inj (hk.symm.trans hk')
  have hlength : queue.length = s.queue.length + 1 := by
    rcases hqueue with rfl | rfl <;> simp
  -- The count does not wrap, since there are no more messages than cells.
  have hcount : mq.entry = s.mq.entry + 1 := by
    obtain ⟨free, msgs, place, data, hlay, hq⟩ := hlayout
    have hmsgs : queue.length = msgs.length := by rw [hq, length_map]
    have hle := hlay.length_le
    have hlt := hlay.max_lt
    have hold := h.entry
    rw [hentry]
    exact mod_eq_of_lt (by omega)
  refine ⟨hclean, fun t buffer size time tick hd => ?_, fun hne => ?_, ?_, hlayout, h.received⟩
  · obtain ⟨hidle, hbuf⟩ := h.idle_update hruns none t buffer size time tick hd
    exact ⟨hidle, hout _ _ hbuf⟩
  · obtain ⟨hne', hcount'⟩ := hwoken hne
    have hreceivers := h.receivers hne'
    rw [hcount', hcount]
    omega
  · rw [hcount, h.entry]
    exact hlength.symm

theorem linkIn (h : MqInv s 0) (hruns : s.Runs p) (hw : s.work p = some (.linkIn urgent msg d)) :
    ∃ s', s.goOn p (.linkIn urgent msg d) = some s' ∧ MqInv s' 0 := by
  obtain ⟨free, msgs, place, data, hlayout, hqueue⟩ := h.layout
  obtain ⟨k, hk, -⟩ := h.clean.mqWake
  have hd : data msg = d := (hlayout.work_ok p _ hw).1
  cases urgent with
  | true =>
    have hlink : rtMqUrgentLink s.k s.m s.mq msg = .ok (k, s.mq.linkFirst s.m msg) := by
      unfold rtMqUrgentLink
      rw [hk]
      rfl
    rw [MqSys.goOn, if_pos rfl, hlink]
    refine ⟨_, rfl, h.added (d := d) hruns hk (fun _ _ hout => hout) rfl (.inl rfl) ⟨free, msg :: msgs,
      _, data, hlayout.linkFirst hw, ?_⟩⟩
    rw [if_pos rfl, map_cons, hd, hqueue]
  | false =>
    have hlink : rtMqSendLink s.k s.m s.mq msg = .ok (k, s.mq.linkLast s.m msg) := by
      unfold rtMqSendLink
      rw [hk]
      rfl
    rw [MqSys.goOn, if_neg (by simp), hlink]
    refine ⟨_, rfl, h.added (d := d) hruns hk (fun _ _ hout => hout) rfl (.inr rfl) ⟨free, msgs ++ [msg],
      _, data, hlayout.linkLast hw, ?_⟩⟩
    rw [if_neg (by simp), map_append, map_singleton, hd, hqueue]

/-- The step that copies a message out. -/
theorem copyOut (h : MqInv s r) (hruns : s.Runs p)
    (hw : s.work p = some (.copyOut msg buffer size d)) (hs : s.goOn p (.copyOut msg buffer size d) = some s') :
    MqInv s' r := by
  obtain ⟨free, msgs, place, data, hlayout, hqueue⟩ := h.layout
  obtain ⟨hd, hout⟩ : data msg = d ∧ s.mq.Outside buffer size := hlayout.work_ok p _ hw
  have hnode : msg ∈ s.mq.nodes := (hlayout.hand_mem hw).1
  obtain ⟨-, -, hlo, hhi⟩ := hlayout.node_bounds hnode
  obtain ⟨hle, hstored⟩ := hlayout.stored msg hnode
  have hstride : s.mq.stride = s.mq.msgSize + 4 := rfl
  rw [hd] at hle hstored
  obtain rfl := some.inj hs
  -- The number of bytes that are copied.
  obtain ⟨count, hcount⟩ : ∃ count, (if s.mq.msgSize < size then s.mq.msgSize else size) = count := ⟨_, rfl⟩
  have hbound : count ≤ s.mq.msgSize ∧ count ≤ size ∧ min d.length size ≤ count := by
    rw [← hcount]
    split_ifs <;> omega
  have hm : rtMqRecvCopy s.m s.mq msg buffer size = rtMemcpy s.m buffer (msg + 4) count := by
    unfold rtMqRecvCopy
    rw [hcount]
    rfl
  have hapart : buffer + size ≤ s.mq.msgPool ∨ s.mq.msgPool + s.mq.maxMsgs * s.mq.stride ≤ buffer := hout
  have hlayout' : MqLayout (rtMqRecvCopy s.m s.mq msg buffer size) s.mq s.work free msgs place data := by
    refine hlayout.outside fun x hx hx' => ?_
    rw [hm]
    exact rtMemcpy_of_out (by omega)
  refine { h with
    idle := h.idle_update hruns _
    layout := ⟨free, msgs, place, data, hlayout'.setWork hw rfl trivial, hqueue⟩
    received := fun e he => ?_ }
  rcases mem_append.mp he with he | he
  · exact h.received e he
  · obtain rfl := mem_singleton.mp he
    calc (bytes (rtMqRecvCopy s.m s.mq msg buffer size) buffer size).take (min d.length size)
        = (bytes (rtMemcpy s.m buffer (msg + 4) count) buffer count).take (min d.length size) := by
          rw [hm, take_bytes _ _ (min_le_right _ _), take_bytes _ _ hbound.2.2]
      _ = (bytes s.m (msg + 4) count).take (min d.length size) := by rw [bytes_rtMemcpy (by omega)]
      _ = (bytes s.m (msg + 4) d.length).take (min d.length size) := by
          rw [take_bytes _ _ hbound.2.2, take_bytes _ _ (min_le_left _ _)]
      _ = d.take (min d.length size) := by rw [hstored]

theorem goOn (h : MqInv s 0) (hruns : s.Runs p) {w : MqWork} (hw : s.work p = some w) (hs : s.goOn p w = some s') :
    MqInv s' 0 := by
  cases w with
  | copyIn urgent msg buffer size => exact h.copyIn hruns hw hs
  | linkIn urgent msg d =>
    obtain ⟨s'', hs'', hinv⟩ := h.linkIn hruns hw
    exact some.inj (hs''.symm.trans hs) ▸ hinv
  | copyOut msg buffer size d => exact h.copyOut hruns hw hs
  | giveBack msg =>
    obtain ⟨free, msgs, place, data, hlayout, hqueue⟩ := h.layout
    obtain rfl := some.inj hs
    exact { h with
      idle := h.idle_update hruns _
      layout := ⟨msg :: free, msgs, _, data, hlayout.giveBack hw, hqueue⟩ }

theorem took (h : MqInv s 1) (hruns : s.Runs p) (hentry : mq.entry = s.mq.entry - 1)
    (hout : ∀ a size, mq.Outside a size ↔ s.mq.Outside a size)
    (hlayout : ∃ free msgs place data, MqLayout s.m mq
      (update s.work p (some (.copyOut s.mq.msgQueueHead buffer size (s.queue.headD [])))) free msgs place
      data ∧ s.queue.tail = msgs.map data) :
    MqInv (s.took p s.k mq s.mq.msgQueueHead buffer size) 0 := by
  refine ⟨h.clean, fun t buffer size time tick hd => ?_, fun hwait => ?_, ?_, hlayout, h.received⟩
  · obtain ⟨hidle, hbuf⟩ := h.idle_update hruns _ t buffer size time tick hd
    exact ⟨hidle, (hout _ _).mpr hbuf⟩
  · have hreceivers := h.receivers hwait
    change mq.entry ≤ wokenCount MqCall.list s.toCallers 0 + 0
    omega
  · change mq.entry = s.queue.tail.length
    rw [hentry, h.entry, length_tail]

theorem take (h : MqInv s 1) (hruns : s.Runs p) (hw : s.work p = none) (hpos : s.mq.entry ≠ 0)
    (hout : s.mq.Outside buffer size) :
    (∀ time, rtMqRecvLoop s.k s.m s.mq time = .ok (s.k, s.mq.unlink s.m, .took s.mq.msgQueueHead)) ∧
      MqInv (s.took p s.k (s.mq.unlink s.m) s.mq.msgQueueHead buffer size) 0 := by
  obtain ⟨free, msgs, place, data, hlayout, hqueue⟩ := h.layout
  have hlength : s.mq.entry = msgs.length := by rw [h.entry, hqueue, length_map]
  have hne : s.mq.msgQueueHead ≠ 0 := by
    intro hzero
    rw [hlayout.msgs_chain.nil_iff.mpr hzero] at hlength
    exact hpos hlength
  obtain ⟨msgs', place', rfl, hlayout'⟩ := hlayout.unlink hw hne hout
  have hentry : (s.mq.unlink s.m).entry = s.mq.entry - 1 := by
    have hle := hlayout.length_le
    have hlt := hlayout.max_lt
    rw [MsgQueue.unlink_entry]
    omega
  refine ⟨fun time => ?_, h.took hruns hentry (s.mq.unlink_outside s.m) ⟨free, msgs', place', data, ?_, ?_⟩⟩
  · unfold rtMqRecvLoop
    rw [if_neg hpos, if_neg hne]
  · -- The first message of the deque is what the first cell holds.
    rw [hqueue, map_cons, headD_cons]
    exact hlayout'
  · rw [hqueue, map_cons, tail_cons]

variable {time : ℤ}

theorem block (h : MqInv s r) (hready : s.k.sched.stat t = .ready) (hfree : s.doing t = .free)
    (hw : s.work (.inl t) = none) (hout : s.mq.Outside buffer size) (hempty : s.mq.entry = 0)
    {flag : IpcFlag} {wait : Option ℕ} {tick : ℕ}
    (hk : (s.k.setError t RT_EOK).waitThread t 0 flag wait = .ok k) :
    MqInv { s with k := k, doing := update s.doing t (.call (.recv buffer size time tick)) } 0 := by
  obtain ⟨hclean, -, hwoken⟩ := h.clean.block (c := .recv buffer size time tick) hready rfl hk
  refine { h with
    clean := hclean
    idle := fun u buffer' size' time' tick' hd => ?_
    receivers := fun _ => ?_ }
  · by_cases hut : u = t
    · subst hut
      dsimp only at hd
      rw [update_self] at hd
      obtain ⟨rfl, rfl, -, -⟩ := MqCall.recv.inj (Doing.call.inj hd)
      exact ⟨hw, hout⟩
    · dsimp only at hd
      rw [update_of_ne hut] at hd
      exact h.idle u buffer' size' time' tick' hd
  · rw [hempty]
    exact zero_le _

theorem rtMqRecvLoop_wait (hcur : k.current = some t) (hempty : mq.entry = 0) (htime : time ≠ 0) :
    rtMqRecvLoop k m mq time =
      ((k.setError t RT_EOK).waitThread t 0 mq.flag (waitTime time)).map fun k => (k, mq, .wait) := by
  unfold rtMqRecvLoop
  rw [if_pos hempty, hcur]
  dsimp only
  rw [if_neg htime]
  cases (k.setError t RT_EOK).waitThread t 0 mq.flag (waitTime time) <;> rfl

theorem recvLoop (h : MqInv s 1) (hcur : s.k.current = some t) (hfree : s.doing t = .free)
    (hw : s.work (.inl t) = none) (hout : s.mq.Outside buffer size)
    (hs : s.recvBy t buffer size time (rtMqRecvLoop s.k s.m s.mq time) = some s') : MqInv s' 0 := by
  have hready := h.clean.ready hcur hfree
  by_cases hempty : s.mq.entry = 0
  swap
  · obtain ⟨hloop, hinv⟩ := h.take (p := .inl t) ⟨hcur, hfree⟩ hw hempty hout
    rw [hloop] at hs
    exact some.inj hs ▸ hinv
  have h' : MqInv s 0 := { h with receivers := fun _ => by omega }
  by_cases htime : time = 0
  · subst htime
    rw [rtMqRecvLoop, if_pos hempty, hcur] at hs
    exact some.inj hs ▸ (h'.setError hfree RT_EOK).setError hfree (-RT_ETIMEOUT)
  · rw [rtMqRecvLoop_wait hcur hempty htime] at hs
    cases hk : (s.k.setError t RT_EOK).waitThread t 0 s.mq.flag (waitTime time) with
    | error e =>
      rw [hk] at hs
      cases hs
    | ok k =>
      rw [hk] at hs
      exact some.inj hs ▸ h'.block hready hfree hw hout hempty hk

/-- A receive that was woken goes on. -/
theorem execGo (h : MqInv s 0) (hs : s.exec (.go t) = some s') : MqInv s' 0 := by
  rw [MqSys.exec] at hs
  obtain ⟨⟨hcur, hready⟩, hs⟩ := ite_none_right_eq_some.mp hs
  have hdrop : wokenCount MqCall.list s.toCallers 0 =
      wokenCount MqCall.list { s.toCallers with doing := update s.doing t .free } 0 +
        if WokenOn MqCall.list s.toCallers 0 t then 1 else 0 := wokenCount_drop (fun u c => woken_free) 0
  -- The call is not woken any more; one with an error was not woken before either.
  have hgo : MqInv { s with doing := update s.doing t .free }
      (if WokenOn MqCall.list s.toCallers 0 t then 1 else 0) := by
    refine { h with
      clean := h.clean.move hready .free
      idle := fun u buffer size time tick hd => h.idle u buffer size time tick ?_
      receivers := fun hne => ?_ }
    · by_cases hut : u = t
      · subst hut
        dsimp only at hd
        rw [update_self] at hd
        cases hd
      · dsimp only at hd
        rwa [update_of_ne hut] at hd
    · have hreceivers := h.receivers hne
      rw [hdrop] at hreceivers
      exact hreceivers
  cases hd : s.doing t with
  | free =>
    rw [hd] at hs
    cases hs
  | sleep =>
    rw [hd] at hs
    cases hs
  | call c =>
    obtain ⟨buffer, size, time, tick⟩ := c
    obtain ⟨hidle, hout⟩ := h.idle t buffer size time tick hd
    rw [hd] at hs
    dsimp only at hs
    by_cases herr : s.k.error t ≠ RT_EOK
    · rw [if_pos herr] at hs
      have hnot : ¬WokenOn MqCall.list s.toCallers 0 t := fun ⟨_, hw, _⟩ => herr hw.2.2
      rw [if_neg hnot] at hgo
      exact some.inj hs ▸ hgo
    · rw [if_neg herr] at hs
      exact MqInv.recvLoop (hgo.mono (by split_ifs <;> norm_num)) hcur (update_self ..) hidle hout hs

theorem reset (h : MqInv s r) : ∃ s', s.exec .reset = some s' ∧ MqInv s' 0 := by
  obtain ⟨free, msgs, place, data, hlayout, hqueue⟩ := h.layout
  obtain ⟨k, hk, hclean, hwaiters, -⟩ := h.clean.wakeAll 0
  obtain ⟨m, mq, free', place', hloop, hout, hlayout'⟩ := hlayout.resetLoop (lt_succ_of_le hlayout.length_le)
  have hreset : rtMqReset s.k s.m s.mq = .ok (k, m, { mq with entry := 0 }) := by
    unfold rtMqReset
    rw [hk]
    rw [hloop]
    rfl
  rw [MqSys.exec, hreset]
  refine ⟨_, rfl, hclean, fun t buffer size time tick hd => ?_, fun _ => zero_le _, rfl,
    ⟨free', [], place', data, { hlayout' with work_ok := fun p w hw => ?_ }, rfl⟩, h.received⟩
  · obtain ⟨hidle, hbuf⟩ := h.idle t buffer size time tick hd
    exact ⟨hidle, (hout _ _).mpr hbuf⟩
  · exact (hlayout'.work_ok p w hw).congr rfl rfl rfl rfl rfl

/-- Every step keeps the invariant. -/
theorem exec (h : MqInv s 0) {a : MqAct n q} (hs : s.exec a = some s') : MqInv s' 0 := by
  cases a with
  | env e =>
    obtain ⟨c, hc, rfl⟩ := map_eq_some_iff.mp hs
    obtain ⟨hclean, hcalls, hsub, hwoken⟩ := h.clean.env hc
    exact h.same hclean (fun t d hd => (hcalls t d).mp hd) (hsub 0) hwoken
  | send p urgent buffer size =>
    rw [MqSys.exec] at hs
    split_ifs at hs with hcond
    obtain ⟨hruns, hw, hout⟩ := hcond
    rcases htake : rtMqSendTake s.m s.mq buffer size with e | ⟨mq, e | msg⟩
    · rw [htake] at hs
      cases hs
    · rw [htake] at hs
      obtain rfl := rtMqSendTake_error htake
      exact some.inj hs ▸ h
    · rw [htake] at hs
      exact some.inj hs ▸ h.sendTake hruns hw hout urgent htake
  | recv t buffer size time =>
    rw [MqSys.exec] at hs
    split_ifs at hs with hcond
    obtain ⟨⟨hcur, hfree⟩, hw, hout⟩ := hcond
    unfold rtMqRecv at hs
    split_ifs at hs with hzero hempty
    · cases hs
    · exact some.inj hs ▸ h
    · exact (h.mono (zero_le 1)).recvLoop hcur hfree hw hout hs
  | go t => exact h.execGo hs
  | recvNow i buffer size =>
    rw [MqSys.exec] at hs
    split_ifs at hs with hcond
    obtain ⟨hw, hout⟩ := hcond
    unfold rtMqRecv at hs
    by_cases hzero : buffer = 0 ∨ size = 0
    · rw [if_pos hzero] at hs
      cases hs
    rw [if_neg hzero] at hs
    by_cases hempty : s.mq.entry = 0
    · rw [if_pos ⟨hempty, rfl⟩] at hs
      exact some.inj hs ▸ h
    · obtain ⟨hloop, hinv⟩ := (h.mono (zero_le 1)).take (p := .inr i) trivial hw hempty hout
      rw [if_neg (fun hcond => hempty hcond.1), hloop] at hs
      exact some.inj hs ▸ hinv
  | next p =>
    rw [MqSys.exec] at hs
    cases hw : s.work p with
    | none =>
      rw [hw] at hs
      cases hs
    | some w =>
      rw [hw] at hs
      split_ifs at hs with hruns
      exact h.goOn hruns hw hs
  | reset =>
    obtain ⟨s'', hs'', hinv⟩ := h.reset
    exact some.inj (hs''.symm.trans hs) ▸ hinv
  | write a v =>
    rw [MqSys.exec] at hs
    split_ifs at hs with hout
    obtain ⟨free, msgs, place, data, hlayout, hqueue⟩ := h.layout
    obtain rfl := some.inj hs
    -- Other memory may be written at any time: no cell of the pool is there.
    refine { h with layout := ⟨free, msgs, place, data, hlayout.outside fun x hx hx' => ?_, hqueue⟩ }
    unfold MsgQueue.Outside at hout
    exact update_of_ne (by omega) ..

theorem reachable {ok : MqSys n q → MqAct n q → Prop} (hs : Reachable (mqSystem n q) ok s) : MqInv s 0 := by
  refine hs.invariant ?_ ?_
  · rintro s ⟨hboot, hbuilt, hwork, hqueue, hreceived⟩
    obtain ⟨hclean, hwaiters⟩ : Clean MqCall.list s.toCallers ∧ _ := Clean.boot hboot
    obtain ⟨hentry, free, hlayout⟩ := hbuilt.layout (n := n) (q := q)
    refine ⟨hclean, fun t buffer size time tick hd => ?_, fun hne => ?_, ?_,
      ⟨free, [], fun _ => .free, fun _ => [], ?_, hqueue⟩, ?_⟩
    · obtain ⟨prioMax, prio, ticks, systemObject, cleanup, tick, -, -, hstart⟩ := hboot
      rw [hstart] at hd
      cases hd
    · rw [hwaiters] at hne
      exact absurd rfl hne
    · rw [hentry, hqueue]
      rfl
    · rw [hwork]
      exact hlayout
    · rw [hreceived]
      simp
  · exact fun s a s' h _ hstep => h.exec hstep

end MqInv

/-- The cells at a place: on the free list, on the list of messages, or in a hand. -/
def MqSys.held (free msgs : List ℕ) : MqPlace n q → List ℕ
  | .free => free
  | .queued => msgs
  | .hand p => ((s.work p).map MqWork.msg).toList

theorem MqLayout.held {s : MqSys n q} {free msgs : List ℕ} {place : ℕ → MqPlace n q} {data : ℕ → List UInt8}
    (h : MqLayout s.m s.mq s.work free msgs place data) (x : MqPlace n q) :
    Holds s.mq.nodes place x (s.held free msgs x) := by
  cases x with
  | free => exact h.free_holds
  | queued => exact h.msgs_holds
  | hand p => exact h.hand_holds p

/-- In every state of every run, with the free list `free` and the list of messages `msgs`:

* every cell of the pool is on one of the two lists, once, or in the hand of one party;
* `entry` is the number of messages, and `msg_queue_tail` is the last one, or null if there is none;
* the messages hold, in this order, what the abstract deque has;
* every message that was copied out has the first bytes of what its sender copied in, as many as both have;
* a reset returns, and so does the next part of a party that has a cell in its hand. -/
theorem mq_integrity {s : MqSys n q} (hs : Reachable (mqSystem n q) always s) :
    ∃ free msgs, Chain (link s.m) 0 s.mq.msgQueueFree free ∧ Chain (link s.m) 0 s.mq.msgQueueHead msgs ∧
      free.Nodup ∧ msgs.Nodup ∧ (∀ x, ∀ a ∈ s.held free msgs x, a ∈ s.mq.nodes) ∧
      (∀ a ∈ s.mq.nodes, ∃! x, a ∈ s.held free msgs x) ∧
      s.mq.entry = msgs.length ∧ s.mq.msgQueueTail = msgs.getLast?.getD 0 ∧ (s.mq.msgQueueTail = 0 ↔ msgs = []) ∧
      List.Forall₂ (fun a d => bytes s.m (a + 4) d.length = d) msgs s.queue ∧
      (∀ e ∈ s.received, e.got.take (min e.data.length e.size) = e.data.take (min e.data.length e.size)) ∧
      (∃ s', s.exec .reset = some s') ∧
      ∀ p, s.Runs p → s.work p ≠ none → ∃ s', s.exec (.next p) = some s' := by
  have h := MqInv.reachable hs
  obtain ⟨free, msgs, place, data, hlayout, hqueue⟩ := h.layout
  have hheld := hlayout.held
  refine ⟨free, msgs, hlayout.free_chain, hlayout.msgs_chain, hlayout.free_holds.nodup, hlayout.msgs_holds.nodup,
    fun x a ha => (((hheld x).mem a).mp ha).1, fun a ha => ?_, ?_, hlayout.tail, hlayout.tail_eq_zero, ?_,
    h.received, ?_, fun p hruns hw => ?_⟩
  · refine ⟨place a, ((hheld _).mem a).mpr ⟨ha, rfl⟩, fun y hy => ?_⟩
    exact (((hheld y).mem a).mp hy).2.symm
  · rw [h.entry, hqueue, length_map]
  · rw [hqueue, forall₂_map_right_iff, forall₂_same]
    intro a ha
    exact (hlayout.stored a ((hlayout.msgs_holds.mem a).mp ha).1).2
  · obtain ⟨s', hs', -⟩ := h.reset
    exact ⟨s', hs'⟩
  · obtain ⟨w, hw⟩ := ne_none_iff_exists'.mp hw
    rw [MqSys.exec, hw]
    dsimp only
    rw [if_pos hruns]
    cases w with
    | copyIn urgent msg buffer size | copyOut msg buffer size d | giveBack msg => exact ⟨_, rfl⟩
    | linkIn urgent msg d =>
      obtain ⟨s', hs', -⟩ := h.linkIn hruns hw
      exact ⟨s', hs'⟩

/-- An interrupt handler sends an urgent message while a thread has a cell in its hand. The
receiver, which was waiting, gets the urgent message, and the other one stays. -/
theorem mq_integrity_run : ∃ s : MqSys 2 1, Reachable (mqSystem 2 1) always s ∧
    (s.received = [⟨[9], 2, [9, 0]⟩] ∧ s.queue = [[7, 0]] ∧ s.mq.entry = 1) ∧
    ∃ free msgs, Chain (link s.m) 0 s.mq.msgQueueFree free ∧ Chain (link s.m) 0 s.mq.msgQueueHead msgs := by
  refine exists_reachable_and ?_ fun s hs _ => ?_
  · refine exists_reachable_of_exec (s := ⟨.idle ![3, 4],
        (rtMqInit (fun _ => 0) 8 4 24 .fifo).1, (rtMqInit (fun _ => 0) 8 4 24 .fifo).2, fun _ => none, [], []⟩)
      ⟨Callers.boot_idle (by decide),
        .inl ⟨fun _ => 0, 8, 4, 24, .fifo, by norm_num, by norm_num, rfl⟩, rfl, rfl, rfl⟩
      [.env (.startup 0), .env (.startup 1), .env .start, .recv 0 60 2 (-1), .env .schedule, .write 40 7,
        .send (.inl 1) false 40 2, .write 50 9, .send (.inr 0) true 50 1, .next (.inr 0), .next (.inl 1),
        .next (.inl 1), .next (.inr 0), .env .schedule, .go 0, .next (.inl 0), .next (.inl 0)] ?_
    decide +kernel
  · obtain ⟨free, msgs, hfree, hmsgs, -⟩ := mq_integrity hs
    exact ⟨free, msgs, hfree, hmsgs⟩

/-! ## No wake-up is lost -/

/-- In every state of every run of a mailbox and of a message queue: as long as a receiver waits,
there are no more messages than receivers that were woken without an error and have not gone on; as
long as a sender waits for room in the mailbox, there is no more room than such senders. -/
theorem no_lost_wakeup {l n q : ℕ} {s : MailSys l} {m : MqSys n q} (hs : Reachable (mailSystem l) always s)
    (hm : Reachable (mqSystem n q) always m) :
    (s.k.sched.waiters 0 ≠ [] → s.mb.entry ≤ wokenCount MailCall.list s.toCallers 0) ∧
      (s.k.sched.waiters 1 ≠ [] → s.mb.size - s.mb.entry ≤ wokenCount MailCall.list s.toCallers 1) ∧
      (m.k.sched.waiters 0 ≠ [] → m.mq.entry ≤ wokenCount MqCall.list m.toCallers 0) :=
  ⟨(MailInv.reachable hs).receivers, (MailInv.reachable hs).senders, (MqInv.reachable hm).receivers⟩

/-- Two receivers wait for mail and two for a message, and one of each two is woken. -/
theorem no_lost_wakeup_run : ∃ (s : MailSys 3) (m : MqSys 3 0), Reachable (mailSystem 3) always s ∧
    Reachable (mqSystem 3 0) always m ∧
    (s.k.sched.waiters 0 ≠ [] ∧ s.mb.entry = 1 ∧ m.k.sched.waiters 0 ≠ [] ∧ m.mq.entry = 1) ∧
    1 ≤ wokenCount MailCall.list s.toCallers 0 ∧ 1 ≤ wokenCount MqCall.list m.toCallers 0 := by
  obtain ⟨s, hs, hwait, hentry⟩ : ∃ s : MailSys 3, Reachable (mailSystem 3) always s ∧
      (s.k.sched.waiters 0 ≠ [] ∧ s.mb.entry = 1) := by
    refine exists_reachable_of_exec (s := ⟨.idle ![3, 4, 5],
        rtMbInit (fun _ => 0) 2 .fifo, [], []⟩)
      ⟨Callers.boot_idle (by decide), ⟨_, _, _, rfl⟩, rfl, rfl⟩
      [.env (.startup 0), .env (.startup 1), .env (.startup 2), .env .start, .recv 0 (-1), .env .schedule,
        .recv 1 (-1), .env .schedule, .send 2 8 0] ?_
    decide
  obtain ⟨m, hm, hwait', hentry'⟩ : ∃ m : MqSys 3 0, Reachable (mqSystem 3 0) always m ∧
      (m.k.sched.waiters 0 ≠ [] ∧ m.mq.entry = 1) := by
    refine exists_reachable_of_exec (s := ⟨.idle ![3, 4, 5],
        (rtMqCreate (fun _ => 0) 8 4 2 .fifo).1, (rtMqCreate (fun _ => 0) 8 4 2 .fifo).2, fun _ => none, [], []⟩)
      ⟨Callers.boot_idle (by decide),
        .inr ⟨fun _ => 0, 8, 4, 2, .fifo, by norm_num, by decide, rfl⟩, rfl, rfl, rfl⟩
      [.env (.startup 0), .env (.startup 1), .env (.startup 2), .env .start, .recv 0 60 2 (-1), .env .schedule,
        .recv 1 70 2 (-1), .env .schedule, .send (.inl 2) false 40 2, .next (.inl 2), .next (.inl 2)] ?_
    decide
  obtain ⟨hmail, -, hmq⟩ := no_lost_wakeup hs hm
  refine ⟨s, m, hs, hm, ⟨hwait, hentry, hwait', hentry'⟩, ?_, ?_⟩
  · exact hentry ▸ hmail hwait
  · exact hentry' ▸ hmq hwait'

end RtThread
