import Mathlib.Data.Fin.VecNotation
import Mathlib.Data.Fintype.Pi
import RtThread.Ipc.Woken
import RtThread.Lib.Queue

/-!
# Mailboxes

The mailbox of `ipc.c`, for one mailbox and any number of threads. Mails are words in a ring of
slots. A receiver waits while there is no mail, and a sender while there is no room; each of them
looks again when it goes on, since another thread may have been faster. A send wakes one receiver,
and a receive wakes one sender. `MailInv` counts the calls that were woken and have not gone on.
-/

namespace RtThread

open Lib Function List Option Nat

variable {n : ℕ}

/-! ## The functions -/

/-- `struct rt_mailbox`. Its suspend lists are the list `0` of receivers and the list `1` of
senders. -/
structure Mailbox where
  msgPool : ℕ → BitVec 32
  /-- The size, the count of mails and the offsets are 16-bit words. -/
  size : ℕ
  entry : ℕ
  inOffset : ℕ
  outOffset : ℕ
  flag : IpcFlag

/-- `rt_mb_init`, on a pool of any contents. -/
def rtMbInit (msgPool : ℕ → BitVec 32) (size : ℕ) (flag : IpcFlag) : Mailbox :=
  ⟨msgPool, size % 2^16, 0, 0, 0, flag⟩

variable (mb : Mailbox)

/-- The next slot of the ring. -/
def Mailbox.advance (offset : ℕ) : ℕ :=
  let offset := (offset + 1) % 2^16
  if mb.size ≤ offset then 0 else offset

/-- A mail is put behind the last one. -/
def Mailbox.put (value : BitVec 32) : Mailbox :=
  { mb with
    msgPool := update mb.msgPool mb.inOffset value
    inOffset := mb.advance mb.inOffset
    entry := (mb.entry + 1) % 2^16 }

/-- The first mail is taken off. -/
@[irreducible] def Mailbox.take : Mailbox :=
  { mb with
    outOffset := mb.advance mb.outOffset
    entry := (mb.entry + (2^16 - 1)) % 2^16 }

variable (k : Kernel n) (mb : Mailbox)

/-- `rt_mb_send_wait` from its loop on, up to a call of `rt_schedule`. It returns an error code
unless the thread waits. -/
def rtMbSendLoop (value : BitVec 32) (time : ℤ) :
    Except Fault (Kernel n × Mailbox × Option ℤ) :=
  if mb.entry = mb.size then
    match k.current with
    | none => .error .assertion
    | some thread =>
      let k := k.setError thread RT_EOK
      if time = 0 then .ok (k, mb, some (-RT_EFULL))
      else do
        let k ← k.waitThread thread 1 mb.flag (waitTime time)
        return (k, mb, none)
  else if ¬rtListIsempty k.sched.tlist (.head (.wait 0)) then do
    let k ← rtIpcListResume k 0
    return (k, mb.put value, some RT_EOK)
  else .ok (k, mb.put value, some RT_EOK)

/-- `rt_mb_send_wait`, up to its first call of `rt_schedule`. -/
def rtMbSendWait (value : BitVec 32) (time : ℤ) :
    Except Fault (Kernel n × Mailbox × Option ℤ) :=
  if mb.entry = mb.size ∧ time = 0 then .ok (k, mb, some (-RT_EFULL)) else rtMbSendLoop k mb value time

/-- `rt_mb_send`. -/
def rtMbSend (value : BitVec 32) : Except Fault (Kernel n × Mailbox × Option ℤ) :=
  rtMbSendWait k mb value 0

/-- `rt_mb_recv` from its loop on, up to a call of `rt_schedule`. Unless the thread waits, it
returns an error code and the mail. -/
def rtMbRecvLoop (time : ℤ) :
    Except Fault (Kernel n × Mailbox × Option (ℤ × Option (BitVec 32))) :=
  if mb.entry = 0 then
    match k.current with
    | none => .error .assertion
    | some thread =>
      let k := k.setError thread RT_EOK
      if time = 0 then .ok (k.setError thread (-RT_ETIMEOUT), mb, some (-RT_ETIMEOUT, none))
      else do
        let k ← k.waitThread thread 0 mb.flag (waitTime time)
        return (k, mb, none)
  else if ¬rtListIsempty k.sched.tlist (.head (.wait 1)) then do
    let k ← rtIpcListResume k 1
    return (k, mb.take, some (RT_EOK, some (mb.msgPool mb.outOffset)))
  else .ok (k, mb.take, some (RT_EOK, some (mb.msgPool mb.outOffset)))

/-- `rt_mb_recv`, up to its first call of `rt_schedule`. -/
def rtMbRecv (time : ℤ) :
    Except Fault (Kernel n × Mailbox × Option (ℤ × Option (BitVec 32))) :=
  if mb.entry = 0 ∧ time = 0 then .ok (k, mb, some (-RT_ETIMEOUT, none)) else rtMbRecvLoop k mb time

/-- `rt_mb_control` with `RT_IPC_CMD_RESET`, up to its call of `rt_schedule`. -/
def rtMbReset : Except Fault (Kernel n × Mailbox) := do
  let k ← rtIpcListResumeAll k 0
  let k ← rtIpcListResumeAll k 1
  return (k, { mb with entry := 0, inOffset := 0, outOffset := 0 })

/-! ## Runs -/

/-- The calls that wait, with what they keep for when they go on: the mail, the timeout, and the
tick at which the wait began. -/
inductive MailCall
  | recv (time : ℤ) (tick : ℕ)
  | send (value : BitVec 32) (time : ℤ) (tick : ℕ)
  deriving DecidableEq

/-- The suspend list of a call. -/
def MailCall.list : MailCall → Option ℕ
  | .recv _ _ => some 0
  | .send _ _ _ => some 1

/-- The threads and the mailbox, with the mails sent and received. -/
structure MailSys (n : ℕ) extends Callers MailCall n where
  mb : Mailbox
  /-- The mails of the sends that have returned `RT_EOK`, since the start or the last reset. -/
  sent : List (BitVec 32)
  /-- The mails of the receives that have returned `RT_EOK`, since then. -/
  delivered : List (BitVec 32)

/-- The steps of the threads. -/
inductive MailAct (n : ℕ)
  | env (e : Env n)
  | send (t : Fin n) (value : BitVec 32) (time : ℤ)
  | recv (t : Fin n) (time : ℤ)
  /-- A call that was waiting goes on. -/
  | go (t : Fin n)
  /-- `rt_mb_send` by an interrupt handler. -/
  | sendNow (value : BitVec 32)
  /-- `rt_mb_recv` with a timeout of `0` by an interrupt handler. -/
  | recvNow
  | reset
  deriving DecidableEq

variable (s : MailSys n)

/-- The state after a part of `rt_mb_send_wait`. -/
def MailSys.sendResult (value : BitVec 32) (k : Kernel n) (mb : Mailbox) (e : ℤ) : MailSys n :=
  { s with k := k, mb := mb, sent := if e = RT_EOK then s.sent ++ [value] else s.sent }

/-- A receive has returned, with a mail or without. -/
def MailSys.recvResult (k : Kernel n) (mb : Mailbox) (mail : Option (BitVec 32)) : MailSys n :=
  { s with k := k, mb := mb, delivered := s.delivered ++ mail.toList }

/-- A thread that is in no call runs `rt_mb_send_wait`. -/
def MailSys.sendBy (t : Fin n) (value : BitVec 32) (time : ℤ) :
    Except Fault (Kernel n × Mailbox × Option ℤ) → Option (MailSys n)
  | .ok (k, mb, some e) => some (s.sendResult value k mb e)
  | .ok (k, mb, none) =>
    some { s with k := k, mb := mb, doing := update s.doing t (.call (.send value time s.k.timers.tick)) }
  | .error _ => none

/-- A thread that is in no call runs `rt_mb_recv`. -/
def MailSys.recvBy (t : Fin n) (time : ℤ) :
    Except Fault (Kernel n × Mailbox × Option (ℤ × Option (BitVec 32))) → Option (MailSys n)
  | .ok (k, mb, some (_, mail)) => some (s.recvResult k mb mail)
  | .ok (k, mb, none) =>
    some { s with k := k, mb := mb, doing := update s.doing t (.call (.recv time s.k.timers.tick)) }
  | .error _ => none

/-- One step. -/
def MailSys.exec : MailAct n → Option (MailSys n)
  | .env e => (s.toCallers.env e).map fun c => { s with toCallers := c }
  | .send t value time =>
    if s.k.current = some t ∧ s.doing t = .free then s.sendBy t value time (rtMbSendWait s.k s.mb value time)
    else none
  | .recv t time =>
    if s.k.current = some t ∧ s.doing t = .free then s.recvBy t time (rtMbRecv s.k s.mb time)
    else none
  | .go t =>
    if s.k.current = some t ∧ s.k.sched.stat t = .ready then
      let s' := { s with doing := update s.doing t .free }
      match s.doing t with
      | .call (.recv time tick) =>
        if s.k.error t ≠ RT_EOK then some s'
        else
          let time := timeLeft time (sub32 s.k.timers.tick tick)
          s'.recvBy t time (rtMbRecvLoop s.k s.mb time)
      | .call (.send value time tick) =>
        if s.k.error t ≠ RT_EOK then some s'
        else
          let time := timeLeft time (sub32 s.k.timers.tick tick)
          s'.sendBy t value time (rtMbSendLoop s.k s.mb value time)
      | _ => none
    else none
  | .sendNow value =>
    match rtMbSend s.k s.mb value with
    | .ok (k, mb, some e) => some (s.sendResult value k mb e)
    | _ => none
  | .recvNow =>
    match rtMbRecv s.k s.mb 0 with
    | .ok (k, mb, some (_, mail)) => some (s.recvResult k mb mail)
    | _ => none
  | .reset =>
    match rtMbReset s.k s.mb with
    | .ok (k, mb) => some { s with k := k, mb := mb, sent := [], delivered := [] }
    | .error _ => none

/-- The runs from a kernel that has been booted, with a mailbox that is initialised. -/
def mailSystem (n : ℕ) : System (MailSys n) (MailAct n) where
  init := fun s => s.toCallers.Boot ∧ (∃ msgPool size flag, s.mb = rtMbInit msgPool size flag) ∧
    s.sent = [] ∧ s.delivered = []
  step := fun s a s' => s.exec a = some s'

/-! ## The ring -/

/-- The offsets and the number of mails agree. -/
structure Mailbox.Ok (mb : Mailbox) : Prop where
  size_lt : mb.size < 2^16
  entry_le : mb.entry ≤ mb.size
  offsets : 0 < mb.size → mb.outOffset < mb.size ∧ mb.inOffset = (mb.outOffset + mb.entry) % mb.size

/-- The mails in the ring, the next one to be received first. -/
def Mailbox.contents : List (BitVec 32) := fifo mb.msgPool mb.size mb.outOffset mb.entry

theorem Mailbox.take_eq : mb.take.msgPool = mb.msgPool ∧ mb.take.size = mb.size ∧
    mb.take.inOffset = mb.inOffset ∧ mb.take.outOffset = mb.advance mb.outOffset := by
  unfold Mailbox.take
  exact ⟨rfl, rfl, rfl, rfl⟩

namespace Mailbox.Ok

variable {mb : Mailbox}

theorem init (msgPool : ℕ → BitVec 32) (size : ℕ) (flag : IpcFlag) : (rtMbInit msgPool size flag).Ok :=
  ⟨mod_lt _ (by norm_num), Nat.zero_le _, fun h => ⟨h, (zero_mod _).symm⟩⟩

theorem advance_eq (h : mb.Ok) {offset : ℕ} (hoffset : offset < mb.size) :
    mb.advance offset = (offset + 1) % mb.size := by
  have hlt := h.size_lt
  unfold advance
  rw [mod_eq_of_lt (by omega)]
  exact wrap_eq_mod hoffset

theorem put_entry (h : mb.Ok) (hroom : mb.entry ≠ mb.size) (value : BitVec 32) :
    (mb.put value).entry = mb.entry + 1 := by
  have hle := h.entry_le
  have hlt := h.size_lt
  exact mod_eq_of_lt (by omega)

theorem take_entry (h : mb.Ok) (hpos : mb.entry ≠ 0) : mb.take.entry = mb.entry - 1 := by
  have hle := h.entry_le
  have hlt := h.size_lt
  unfold take
  dsimp only
  omega

theorem put (h : mb.Ok) (hroom : mb.entry ≠ mb.size) (value : BitVec 32) :
    (mb.put value).Ok ∧ (mb.put value).contents = mb.contents ++ [value] := by
  have hle := h.entry_le
  obtain ⟨hout, hin⟩ := h.offsets (by omega)
  have hentry := h.put_entry hroom value
  have hlt : mb.inOffset < mb.size := by
    rw [hin]
    exact mod_lt _ (by omega)
  refine ⟨⟨h.size_lt, ?_, fun _ => ⟨hout, ?_⟩⟩, ?_⟩
  · rw [hentry]
    exact succ_le_of_lt (lt_of_le_of_ne hle hroom)
  · rw [hentry]
    change mb.advance mb.inOffset = _
    rw [h.advance_eq hlt, hin]
    exact slot_succ
  · unfold contents
    rw [hentry]
    change fifo (update mb.msgPool mb.inOffset value) mb.size mb.outOffset (mb.entry + 1) = _
    rw [hin]
    exact fifo_put (lt_of_le_of_ne hle hroom) value

theorem take (h : mb.Ok) (hpos : mb.entry ≠ 0) :
    mb.take.Ok ∧ mb.contents = mb.msgPool mb.outOffset :: mb.take.contents := by
  have hle := h.entry_le
  obtain ⟨hout, hin⟩ := h.offsets (by omega)
  have hentry := h.take_entry hpos
  have hout' : mb.take.outOffset = (mb.outOffset + 1) % mb.size := by
    rw [mb.take_eq.2.2.2, h.advance_eq hout]
  obtain ⟨hpool', hsize', hin', -⟩ := mb.take_eq
  refine ⟨⟨?_, ?_, fun hsize => ⟨?_, ?_⟩⟩, ?_⟩
  · rw [hsize']
    exact h.size_lt
  · rw [hentry, hsize']
    exact (sub_le _ _).trans hle
  · rw [hsize'] at hsize ⊢
    rw [hout']
    exact mod_lt _ hsize
  · rw [hentry, hin', hout', hsize', hin, mod_add_mod]
    congr 1
    omega
  · unfold contents
    rw [hentry, hout', hsize', hpool']
    exact fifo_take (pos_of_ne_zero hpos) hout

end Mailbox.Ok

/-! ## What the functions do -/

section Functions

variable {s : Callers MailCall n} {mb : Mailbox} {t u : Fin n} {value : BitVec 32} {time : ℤ} {l : List (Fin n)}

theorem rtMbSendLoop_wait (hcur : s.k.current = some t) (hfull : mb.entry = mb.size) (htime : time ≠ 0) :
    rtMbSendLoop s.k mb value time =
      ((s.k.setError t RT_EOK).waitThread t 1 mb.flag (waitTime time)).map fun k => (k, mb, none) := by
  unfold rtMbSendLoop
  rw [if_pos hfull, hcur]
  dsimp only
  rw [if_neg htime]
  cases (s.k.setError t RT_EOK).waitThread t 1 mb.flag (waitTime time) <;> rfl

theorem rtMbSendLoop_cons (h : Clean MailCall.list s) (hroom : mb.entry ≠ mb.size)
    (hl : s.k.sched.waiters 0 = u :: l) :
    rtMbSendLoop s.k mb value time = .ok ((rtThreadResume s.k u).1, mb.put value, some RT_EOK) := by
  unfold rtMbSendLoop
  rw [if_neg hroom, if_pos (h.not_isempty hl), (h.wakeHead hl).1]
  rfl

theorem rtMbRecvLoop_wait (hcur : s.k.current = some t) (hempty : mb.entry = 0) (htime : time ≠ 0) :
    rtMbRecvLoop s.k mb time =
      ((s.k.setError t RT_EOK).waitThread t 0 mb.flag (waitTime time)).map fun k => (k, mb, none) := by
  unfold rtMbRecvLoop
  rw [if_pos hempty, hcur]
  dsimp only
  rw [if_neg htime]
  cases (s.k.setError t RT_EOK).waitThread t 0 mb.flag (waitTime time) <;> rfl

theorem rtMbRecvLoop_cons (h : Clean MailCall.list s) (hpos : mb.entry ≠ 0)
    (hl : s.k.sched.waiters 1 = u :: l) : rtMbRecvLoop s.k mb time =
      .ok ((rtThreadResume s.k u).1, mb.take, some (RT_EOK, some (mb.msgPool mb.outOffset))) := by
  unfold rtMbRecvLoop
  rw [if_neg hpos, if_pos (h.not_isempty hl), (h.wakeHead hl).1]
  rfl

end Functions

/-! ## The order of mails, and the wake-ups -/

/-- What holds in every state of a run, with `r` receivers and `w` senders that were woken and have
begun to go on. -/
structure MailInv (s : MailSys n) (r w : ℕ) : Prop where
  clean : Clean MailCall.list s.toCallers
  ok : s.mb.Ok
  order : s.sent = s.delivered ++ s.mb.contents
  receivers : s.k.sched.waiters 0 ≠ [] → s.mb.entry ≤ wokenCount MailCall.list s.toCallers 0 + r
  senders : s.k.sched.waiters 1 ≠ [] → s.mb.size - s.mb.entry ≤ wokenCount MailCall.list s.toCallers 1 + w

namespace MailInv

variable {s s' : MailSys n} {t : Fin n} {r w : ℕ}

theorem mono (h : MailInv s r w) {r' w' : ℕ} (hr : r ≤ r') (hw : w ≤ w') : MailInv s r' w' :=
  ⟨h.clean, h.ok, h.order, fun hne => (h.receivers hne).trans (by omega),
    fun hne => (h.senders hne).trans (by omega)⟩

theorem same (h : MailInv s r w) {c : Callers MailCall n} (hclean : Clean MailCall.list c)
    (hsub : ∀ i, (c.k.sched.waiters i).Sublist (s.k.sched.waiters i))
    (hwoken : ∀ u d, Woken c u d ↔ Woken s.toCallers u d) : MailInv { s with toCallers := c } r w := by
  have hne : ∀ i, c.k.sched.waiters i ≠ [] → s.k.sched.waiters i ≠ [] := by
    intro i hne hnil
    have := hsub i
    rw [hnil, sublist_nil] at this
    exact hne this
  refine ⟨hclean, h.ok, h.order, fun hw => ?_, fun hw => ?_⟩
  · rw [wokenCount_congr hwoken]
    exact h.receivers (hne 0 hw)
  · rw [wokenCount_congr hwoken]
    exact h.senders (hne 1 hw)

theorem setError (h : MailInv s r w) (hfree : s.doing t = .free) (e : ℤ) :
    MailInv { s with k := s.k.setError t e } r w := by
  obtain ⟨hclean, hwoken⟩ := h.clean.setError hfree e
  exact h.same hclean (fun _ => List.Sublist.refl _) hwoken

/-- A send with room puts the mail and wakes a receiver. -/
theorem put (h : MailInv s 0 1) (hroom : s.mb.entry ≠ s.mb.size) (value : BitVec 32) :
    ∃ k, (∀ time, rtMbSendLoop s.k s.mb value time = .ok (k, s.mb.put value, some RT_EOK)) ∧
      MailInv (s.sendResult value k (s.mb.put value) RT_EOK) 0 0 := by
  obtain ⟨hok, hcontents⟩ := h.ok.put hroom value
  have hentry := h.ok.put_entry hroom value
  have hsize : (s.mb.put value).size = s.mb.size := rfl
  have horder : s.sent ++ [value] = s.delivered ++ (s.mb.put value).contents := by
    rw [hcontents, h.order, append_assoc]
  cases hl : s.k.sched.waiters 0 with
  | nil =>
    refine ⟨s.k, fun time => ?_, h.clean, hok, ?_, fun hne => absurd hl hne, fun hne => ?_⟩
    · rw [rtMbSendLoop, if_neg hroom, if_neg (not_not.mpr (h.clean.isempty.mpr hl))]
    · dsimp only [MailSys.sendResult]
      rw [if_pos rfl]
      exact horder
    · have hsenders := h.senders hne
      change (s.mb.put value).size - (s.mb.put value).entry ≤ wokenCount MailCall.list s.toCallers 1 + 0
      rw [hentry, hsize]
      omega
  | cons u l =>
    obtain ⟨-, hclean, hwaiters, hwoken⟩ := h.clean.wakeHead hl
    have hu : u ∈ s.k.sched.waiters 0 := by rw [hl]; exact mem_cons_self
    have hcount := h.clean.wokenCount_wake hu hwoken
    refine ⟨(rtThreadResume s.k u).1, fun time => rtMbSendLoop_cons h.clean hroom hl, hclean, hok, ?_, fun _ => ?_,
      fun hne => ?_⟩
    · dsimp only [MailSys.sendResult]
      rw [if_pos rfl]
      exact horder
    · have hreceivers := h.receivers (ne_nil_of_mem hu)
      dsimp only [MailSys.sendResult]
      rw [hentry, hcount, if_pos rfl]
      omega
    · dsimp only [MailSys.sendResult] at hne ⊢
      rw [hwaiters, update_of_ne (by norm_num)] at hne
      have hsenders := h.senders hne
      rw [hentry, hsize, hcount, if_neg (by norm_num)]
      omega

theorem took {mb : Mailbox} {mail : BitVec 32} (h : MailInv s 1 0) (hok : mb.Ok)
    (hcontents : s.mb.contents = mail :: mb.contents) (hentry : mb.entry = s.mb.entry - 1) (hsize : mb.size = s.mb.size) :
    (s.k.sched.waiters 1 = [] → MailInv (s.recvResult s.k mb (some mail)) 0 0) ∧
      ∀ u l, s.k.sched.waiters 1 = u :: l → MailInv (s.recvResult (rtThreadResume s.k u).1 mb (some mail)) 0 0 := by
  have horder : s.sent = s.delivered ++ [mail] ++ mb.contents := by
    rw [h.order, hcontents, append_assoc]
    rfl
  constructor
  · intro hl
    refine ⟨h.clean, hok, horder, fun hne => ?_, fun hne => absurd hl hne⟩
    have hreceivers := h.receivers hne
    change mb.entry ≤ wokenCount MailCall.list s.toCallers 0 + 0
    omega
  · intro u l hl
    obtain ⟨-, hclean, hwaiters, hwoken⟩ := h.clean.wakeHead hl
    have hu : u ∈ s.k.sched.waiters 1 := by rw [hl]; exact mem_cons_self
    have hcount := h.clean.wokenCount_wake hu hwoken
    refine ⟨hclean, hok, horder, fun hne => ?_, fun _ => ?_⟩
    · dsimp only [MailSys.recvResult] at hne ⊢
      rw [hwaiters, update_of_ne (by norm_num)] at hne
      have hreceivers := h.receivers hne
      rw [hcount, if_neg (by norm_num)]
      omega
    · have hsenders := h.senders (ne_nil_of_mem hu)
      dsimp only [MailSys.recvResult]
      rw [hentry, hsize, hcount, if_pos rfl]
      omega

theorem take (h : MailInv s 1 0) (hpos : s.mb.entry ≠ 0) :
    ∃ k, (∀ time, rtMbRecvLoop s.k s.mb time =
        .ok (k, s.mb.take, some (RT_EOK, some (s.mb.msgPool s.mb.outOffset)))) ∧
      MailInv (s.recvResult k s.mb.take (some (s.mb.msgPool s.mb.outOffset))) 0 0 := by
  obtain ⟨hok, hcontents⟩ := h.ok.take hpos
  obtain ⟨hnil, hcons⟩ := h.took hok hcontents (h.ok.take_entry hpos) s.mb.take_eq.2.1
  cases hl : s.k.sched.waiters 1 with
  | nil =>
    refine ⟨s.k, fun time => ?_, hnil hl⟩
    rw [rtMbRecvLoop, if_neg hpos, if_neg (not_not.mpr (h.clean.isempty.mpr hl))]
  | cons u l => exact ⟨_, fun time => rtMbRecvLoop_cons h.clean hpos hl, hcons u l hl⟩

/-- A call that finds nothing, or no room, waits. -/
theorem block (h : MailInv s r w) {c : MailCall} {i : ℕ} (hready : s.k.sched.stat t = .ready)
    (hfree : s.doing t = .free) (hc : c.list = some i)
    (hi : i = 0 ∧ s.mb.entry = 0 ∧ w = 0 ∨ i = 1 ∧ s.mb.entry = s.mb.size ∧ r = 0)
    {flag : IpcFlag} {time : Option ℕ} {k : Kernel n}
    (hw : (s.k.setError t RT_EOK).waitThread t i flag time = .ok k) :
    MailInv { s with k := k, doing := update s.doing t (.call c) } 0 0 := by
  obtain ⟨hclean, hwaiters, hwoken⟩ := h.clean.block hready hc hw
  have hcount : ∀ j, wokenCount MailCall.list ⟨k, update s.doing t (.call c)⟩ j =
      wokenCount MailCall.list s.toCallers j := by
    apply wokenCount_congr
    intro u d
    rw [hwoken]
    refine and_iff_right_of_imp fun hd hut => ?_
    rw [hut] at hd
    rw [hd.1] at hfree
    cases hfree
  refine ⟨hclean, h.ok, h.order, fun hne => ?_, fun hne => ?_⟩
  · rw [hcount]
    rcases hi with ⟨-, hzero, -⟩ | ⟨rfl, -, rfl⟩
    · rw [hzero]
      exact Nat.zero_le _
    · rw [hwaiters, update_of_ne (by norm_num)] at hne
      exact h.receivers hne
  · dsimp only at hne ⊢
    rw [hcount]
    rcases hi with ⟨rfl, -, rfl⟩ | ⟨-, hfull, -⟩
    · rw [hwaiters, update_of_ne (by norm_num)] at hne
      exact h.senders hne
    · rw [hfull, Nat.sub_self]
      exact Nat.zero_le _

theorem sendLoop (h : MailInv s 0 1) (hcur : s.k.current = some t) (hfree : s.doing t = .free) {value : BitVec 32}
    {time : ℤ} (hs : s.sendBy t value time (rtMbSendLoop s.k s.mb value time) = some s') : MailInv s' 0 0 := by
  have hready := h.clean.ready hcur hfree
  by_cases hfull : s.mb.entry = s.mb.size
  swap
  · obtain ⟨k, hloop, hinv⟩ := h.put hfull value
    rw [hloop] at hs
    exact some.inj hs ▸ hinv
  -- There is no room, so no room is left over either.
  have h' : MailInv s 0 0 := ⟨h.clean, h.ok, h.order, h.receivers, fun _ => by omega⟩
  by_cases htime : time = 0
  · subst htime
    rw [rtMbSendLoop, if_pos hfull, hcur] at hs
    exact some.inj hs ▸ h'.setError hfree RT_EOK
  · rw [rtMbSendLoop_wait (s := s.toCallers) hcur hfull htime] at hs
    cases hw : (s.k.setError t RT_EOK).waitThread t 1 s.mb.flag (waitTime time) with
    | error e =>
      rw [hw] at hs
      cases hs
    | ok k =>
      rw [hw] at hs
      exact some.inj hs ▸ h'.block hready hfree rfl (Or.inr ⟨rfl, hfull, rfl⟩) hw

theorem recvResult_none (s : MailSys n) (k : Kernel n) (mb : Mailbox) :
    s.recvResult k mb none = { s with k := k, mb := mb } := by
  unfold MailSys.recvResult
  rw [toList_none, append_nil]

theorem recvLoop (h : MailInv s 1 0) (hcur : s.k.current = some t) (hfree : s.doing t = .free) {time : ℤ}
    (hs : s.recvBy t time (rtMbRecvLoop s.k s.mb time) = some s') : MailInv s' 0 0 := by
  have hready := h.clean.ready hcur hfree
  by_cases hempty : s.mb.entry = 0
  swap
  · obtain ⟨k, hloop, hinv⟩ := h.take hempty
    rw [hloop] at hs
    exact some.inj hs ▸ hinv
  have h' : MailInv s 0 0 := ⟨h.clean, h.ok, h.order, fun _ => by omega, h.senders⟩
  by_cases htime : time = 0
  · subst htime
    rw [rtMbRecvLoop, if_pos hempty, hcur] at hs
    have hs' := some.inj hs
    rw [recvResult_none] at hs'
    exact hs' ▸ (h'.setError hfree RT_EOK).setError hfree (-RT_ETIMEOUT)
  · rw [rtMbRecvLoop_wait (s := s.toCallers) hcur hempty htime] at hs
    cases hw : (s.k.setError t RT_EOK).waitThread t 0 s.mb.flag (waitTime time) with
    | error e =>
      rw [hw] at hs
      cases hs
    | ok k =>
      rw [hw] at hs
      exact some.inj hs ▸ h'.block hready hfree rfl (Or.inl ⟨rfl, hempty, rfl⟩) hw

theorem go (h : MailInv s 0 0) (hready : s.k.sched.stat t = .ready) :
    MailInv { s with doing := update s.doing t .free }
      (if WokenOn MailCall.list s.toCallers 0 t then 1 else 0)
      (if WokenOn MailCall.list s.toCallers 1 t then 1 else 0) := by
  have hdrop : ∀ i, wokenCount MailCall.list s.toCallers i =
      wokenCount MailCall.list { s.toCallers with doing := update s.doing t .free } i +
        if WokenOn MailCall.list s.toCallers i t then 1 else 0 := wokenCount_drop fun u c => woken_free
  refine ⟨h.clean.move hready .free, h.ok, h.order, fun hne => ?_, fun hne => ?_⟩
  · have hreceivers := h.receivers hne
    rw [hdrop 0] at hreceivers
    exact hreceivers
  · have hsenders := h.senders hne
    rw [hdrop 1] at hsenders
    exact hsenders

/-- A call that was woken goes on. -/
theorem execGo (h : MailInv s 0 0) (hs : s.exec (.go t) = some s') : MailInv s' 0 0 := by
  rw [MailSys.exec] at hs
  obtain ⟨⟨hcur, hready⟩, hs⟩ := ite_none_right_eq_some.mp hs
  have hgo := h.go hready
  have hfree : update s.doing t .free t = .free := update_self ..
  -- A call with an error returns; it is not among the woken ones.
  have herror : s.k.error t ≠ RT_EOK → MailInv { s with doing := update s.doing t .free } 0 0 := by
    intro herr
    have hnot : ∀ i, ¬WokenOn MailCall.list s.toCallers i t := fun i ⟨_, hw, _⟩ => herr hw.2.2
    rwa [if_neg (hnot 0), if_neg (hnot 1)] at hgo
  have hon : ∀ {c i}, s.doing t = .call c → WokenOn MailCall.list s.toCallers i t → c.list = some i := by
    rintro c i hd ⟨c', hw, hc'⟩
    rwa [Doing.call.inj (hd.symm.trans hw.1)]
  cases hd : s.doing t with
  | free =>
    rw [hd] at hs
    cases hs
  | sleep =>
    rw [hd] at hs
    cases hs
  | call c =>
    cases c with
    | recv time tick =>
      rw [hd] at hs
      dsimp only at hs
      by_cases herr : s.k.error t ≠ RT_EOK
      · rw [if_pos herr] at hs
        exact some.inj hs ▸ herror herr
      · rw [if_neg herr] at hs
        have hnot : ¬WokenOn MailCall.list s.toCallers 1 t := fun hw => by simpa [MailCall.list] using hon hd hw
        rw [if_neg hnot] at hgo
        exact MailInv.recvLoop (hgo.mono (by split_ifs <;> norm_num) le_rfl) hcur hfree hs
    | send value time tick =>
      rw [hd] at hs
      dsimp only at hs
      by_cases herr : s.k.error t ≠ RT_EOK
      · rw [if_pos herr] at hs
        exact some.inj hs ▸ herror herr
      · rw [if_neg herr] at hs
        have hnot : ¬WokenOn MailCall.list s.toCallers 0 t := fun hw => by simpa [MailCall.list] using hon hd hw
        rw [if_neg hnot] at hgo
        exact MailInv.sendLoop (hgo.mono le_rfl (by split_ifs <;> norm_num)) hcur hfree hs

theorem reset (h : MailInv s r w) (hs : s.exec .reset = some s') : MailInv s' 0 0 := by
  obtain ⟨k, hk, hclean, hwaiters, -⟩ := h.clean.wakeAll 0
  obtain ⟨k', hk', hclean', hwaiters', -⟩ := hclean.wakeAll 1
  have hreset : rtMbReset s.k s.mb = .ok (k', { s.mb with entry := 0, inOffset := 0, outOffset := 0 }) := by
    unfold rtMbReset
    rw [hk]
    change (rtIpcListResumeAll k 1 >>= _) = _
    rw [hk']
    rfl
  rw [MailSys.exec, hreset] at hs
  obtain rfl := some.inj hs
  refine ⟨hclean', ⟨h.ok.size_lt, Nat.zero_le _, fun hsize => ⟨hsize, (zero_mod _).symm⟩⟩, rfl,
    fun _ => Nat.zero_le _, fun hne => ?_⟩
  rw [hwaiters', update_self] at hne
  exact absurd rfl hne

/-- Every step keeps the invariant. -/
theorem exec (h : MailInv s 0 0) {a : MailAct n} (hs : s.exec a = some s') : MailInv s' 0 0 := by
  cases a with
  | env e =>
    obtain ⟨c, hc, rfl⟩ := map_eq_some_iff.mp hs
    obtain ⟨hclean, -, hsub, hwoken⟩ := h.clean.env hc
    exact h.same hclean hsub hwoken
  | send t value time =>
    rw [MailSys.exec] at hs
    split_ifs at hs with hcond
    unfold rtMbSendWait at hs
    split_ifs at hs with hfull
    · exact some.inj hs ▸ h
    · exact (h.mono le_rfl (Nat.zero_le 1)).sendLoop hcond.1 hcond.2 hs
  | recv t time =>
    rw [MailSys.exec] at hs
    split_ifs at hs with hcond
    unfold rtMbRecv at hs
    split_ifs at hs with hempty
    · have hs' := some.inj hs
      rw [recvResult_none] at hs'
      exact hs' ▸ h
    · exact (h.mono (Nat.zero_le 1) le_rfl).recvLoop hcond.1 hcond.2 hs
  | go t => exact h.execGo hs
  | sendNow value =>
    rw [MailSys.exec] at hs
    unfold rtMbSend rtMbSendWait at hs
    by_cases hfull : s.mb.entry = s.mb.size
    · rw [if_pos ⟨hfull, rfl⟩] at hs
      exact some.inj hs ▸ h
    · obtain ⟨k, hloop, hinv⟩ := (h.mono le_rfl (Nat.zero_le 1)).put hfull value
      rw [if_neg (fun hcond => hfull hcond.1), hloop] at hs
      exact some.inj hs ▸ hinv
  | recvNow =>
    rw [MailSys.exec] at hs
    unfold rtMbRecv at hs
    by_cases hempty : s.mb.entry = 0
    · rw [if_pos ⟨hempty, rfl⟩] at hs
      have hs' := some.inj hs
      rw [recvResult_none] at hs'
      exact hs' ▸ h
    · obtain ⟨k, hloop, hinv⟩ := (h.mono (Nat.zero_le 1) le_rfl).take hempty
      rw [if_neg (fun hcond => hempty hcond.1), hloop] at hs
      exact some.inj hs ▸ hinv
  | reset => exact h.reset hs

theorem reachable {ok : MailSys n → MailAct n → Prop} (hs : Reachable (mailSystem n) ok s) : MailInv s 0 0 := by
  refine hs.invariant ?_ ?_
  · rintro s ⟨hboot, ⟨msgPool, size, flag, hmb⟩, hsent, hdelivered⟩
    obtain ⟨hclean, hwaiters⟩ : Clean MailCall.list s.toCallers ∧ _ := Clean.boot hboot
    refine ⟨hclean, ?_, ?_, fun hne => ?_, fun hne => ?_⟩
    · rw [hmb]
      exact Mailbox.Ok.init msgPool size flag
    · rw [hsent, hdelivered, hmb]
      rfl
    · rw [hwaiters] at hne
      exact absurd rfl hne
    · rw [hwaiters] at hne
      exact absurd rfl hne
  · exact fun s a s' h _ hstep => h.exec hstep

end MailInv

/-- In every state of every run, the count and the offsets fit the ring. The mails that were
received are the first ones of those that were sent, in the same order, and the others are in the
ring. -/
theorem mailbox_order {s : MailSys n} (hs : Reachable (mailSystem n) always s) :
    s.mb.entry ≤ s.mb.size ∧
      (0 < s.mb.size → s.mb.inOffset = (s.mb.outOffset + s.mb.entry) % s.mb.size) ∧
      s.sent = s.delivered ++
        (range s.mb.entry).map fun j => s.mb.msgPool ((s.mb.outOffset + j) % s.mb.size) := by
  have h := MailInv.reachable hs
  exact ⟨h.ok.entry_le, fun hsize => (h.ok.offsets hsize).2, h.order⟩

/-- A sender waits for room, a receiver takes a mail, and the sender goes on. -/
theorem mailbox_order_run : ∃ s : MailSys 2, Reachable (mailSystem 2) always s ∧
    (s.sent = [1, 2, 3, 4] ∧ s.delivered = [1, 2]) ∧ s.mb.entry ≤ s.mb.size := by
  refine exists_reachable_and ?_ fun s hs _ => (mailbox_order hs).1
  refine exists_reachable_of_exec (s := ⟨.idle ![3, 4],
      rtMbInit (fun _ => 0) 2 .fifo, [], []⟩)
    ⟨Callers.boot_idle (by decide), ⟨_, _, _, rfl⟩, rfl, rfl⟩
    [.env (.startup 0), .env (.startup 1), .env .start, .send 0 1 0, .sendNow 2, .send 0 3 (-1), .env .schedule,
      .recv 1 (-1), .env .schedule, .go 0, .send 0 4 (-1), .env .schedule, .recv 1 0, .env .schedule, .go 0] ?_
  decide +kernel

end RtThread
