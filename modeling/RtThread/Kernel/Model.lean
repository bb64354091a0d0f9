import RtThread.Kservice.Ffs
import RtThread.Kservice.List
import RtThread.Lib.Word

/-!
# Threads, the scheduler and the thread timers

The model of `src/thread.c`, `src/scheduler.c`, the timer functions of `src/timer.c` as far as the
built-in timers of threads use them, `src/clock.c` and the three list functions of `src/ipc.c`.
There are `n` threads. Every field of `struct rt_thread` that these files read is a function of the
thread, and the lists are the links of their nodes (`Kservice/List.lean`): the node `tlist` of a
thread is on a ready list, on the list of defunct threads, on the suspend list of an object, or on
none, and the node of its timer is on the timer list or on none. The timer list has one level, as
`RT_TIMER_SKIP_LIST_LEVEL` is by default.

A function that can fail to return, at an assertion or by following a pointer that does not point to
what it takes it for, returns the fault. The `n` threads are all there is, so a walk along a list
that passes more nodes than that does not end, which is the fault `fuel`.
-/

namespace RtThread

open Lib Function

/-- The ways in which a function does not return. -/
inductive Fault
  /-- The assertion of `rt_thread_timeout` that the thread is suspended. -/
  | timeout
  /-- Any other assertion. -/
  | assertion
  /-- A list head read as a thread, a null pointer, or an index outside its array. -/
  | wild
  /-- A walk along a list that does not end. -/
  | fuel
  deriving DecidableEq

instance {α : Type*} (x : Except Fault α) (e : Fault) : Decidable (x = .error e) :=
  match x with
  | .error e' => decidable_of_iff (e' = e) (by simp)
  | .ok _ => isFalse (by simp)

/-- The states of a thread. -/
inductive Stat
  | init
  | ready
  | suspend
  | close
  deriving DecidableEq

/-- The heads of the lists of threads: `rt_thread_priority_table`, `rt_thread_defunct`, and the
suspend lists of the objects. -/
inductive Head
  | ready (p : ℕ)
  | defunct
  | wait (i : ℕ)
  deriving DecidableEq

/-- No error. -/
def RT_EOK : ℤ := 0
/-- A general error. -/
def RT_ERROR : ℤ := 1
/-- The time is over. -/
def RT_ETIMEOUT : ℤ := 2
/-- There is no room. -/
def RT_EFULL : ℤ := 3
/-- There is no such function. -/
def RT_ENOSYS : ℤ := 6
/-- The object is in use. -/
def RT_EBUSY : ℤ := 7

/-- Half of `RT_TICK_MAX`, which is `0xffffffff`. -/
def halfTickMax : ℕ := 0xffffffff / 2

/-- The scheduler's view of the threads. -/
structure Sched (n : ℕ) where
  /-- `RT_THREAD_PRIORITY_MAX`. -/
  prioMax : ℕ
  /-- The lists of threads. -/
  tlist : Links (Node Head (Fin n))
  stat : Fin n → Stat
  initPriority : Fin n → ℕ
  currentPriority : Fin n → ℕ
  number : Fin n → ℕ
  numberMask : Fin n → BitVec 32
  highMask : Fin n → BitVec 8
  /-- `rt_thread_ready_priority_group`. -/
  group : BitVec 32
  /-- `rt_thread_ready_table`. -/
  table : ℕ → BitVec 8

/-- The thread timers and the clock. -/
structure Timers (n : ℕ) where
  /-- `rt_timer_list`. -/
  rows : Links (Node Unit (Fin n))
  /-- `RT_TIMER_FLAG_ACTIVATED`. -/
  activated : Fin n → Bool
  initTick : Fin n → ℕ
  timeoutTick : Fin n → ℕ
  /-- `rt_tick`. -/
  tick : ℕ

/-- The state of the kernel. -/
structure Kernel (n : ℕ) where
  sched : Sched n
  timers : Timers n
  error : Fin n → ℤ
  initTick : Fin n → ℕ
  remainingTick : Fin n → ℕ
  /-- Whether the thread is a static object, `rt_object_is_systemobject`. -/
  systemObject : Fin n → Bool
  /-- Whether the thread has a cleanup function. -/
  cleanup : Fin n → Bool
  /-- `rt_current_thread`. -/
  current : Option (Fin n)
  /-- `rt_current_priority`. -/
  currentPriority : ℕ
  /-- `rt_scheduler_lock_nest`. -/
  lockNest : ℕ

variable {n : ℕ}

/-! ## The scheduler -/

variable (s : Sched n) (t : Fin n)

/-- The state of the thread is set. -/
def Sched.setStat (x : Stat) : Sched n :=
  { s with stat := update s.stat t x }

/-- The thread is taken off its list. -/
def Sched.unlink : Sched n :=
  { s with tlist := rtListRemove s.tlist (.item t) }

/-- The calculation of the priority attribute of a thread from its current priority, which
`rt_thread_startup` and `rt_thread_control` share. -/
def Sched.setMasks : Sched n :=
  if 32 < s.prioMax then
    { s with
      number := update s.number t (s.currentPriority t >>> 3)
      numberMask := update s.numberMask t (1#32 <<< (s.currentPriority t >>> 3))
      highMask := update s.highMask t (1#8 <<< (s.currentPriority t &&& 0x07)) }
  else { s with numberMask := update s.numberMask t (1#32 <<< s.currentPriority t) }

/-- The change of a thread's current priority with its attribute. -/
def Sched.setPriority (p : ℕ) : Sched n :=
  Sched.setMasks { s with currentPriority := update s.currentPriority t p } t

/-- Setting the bits of a thread in the ready bitmap. -/
def Sched.setBits : Sched n :=
  if 32 < s.prioMax then
    { s with
      table := update s.table (s.number t) (s.table (s.number t) ||| s.highMask t)
      group := s.group ||| s.numberMask t }
  else { s with group := s.group ||| s.numberMask t }

/-- Clearing the bits of a thread in the ready bitmap. -/
def Sched.clearBits : Sched n :=
  if 32 < s.prioMax then
    let s := { s with
      table := update s.table (s.number t) (s.table (s.number t) &&& ~~~s.highMask t) }
    if s.table (s.number t) = 0 then { s with group := s.group &&& ~~~s.numberMask t } else s
  else { s with group := s.group &&& ~~~s.numberMask t }

/-- `rt_schedule_insert_thread`. -/
def rtScheduleInsertThread : Sched n :=
  let s := s.setStat t .ready
  let s := { s with
    tlist := rtListInsertBefore s.tlist (.head (.ready (s.currentPriority t))) (.item t) }
  s.setBits t

/-- `rt_schedule_remove_thread`. -/
def rtScheduleRemoveThread : Sched n :=
  let s := s.unlink t
  if rtListIsempty s.tlist (.head (.ready (s.currentPriority t))) then s.clearBits t else s

/-- The highest ready priority, as `rt_schedule` computes it. The subtractions wrap where no bit is
set, which makes the index fall outside the table. -/
def Sched.highestReadyPriority : Except Fault ℕ :=
  if s.prioMax ≤ 32 then .ok (sub32 (rtFfs s.group) 1)
  else
    let number := sub32 (rtFfs s.group) 1
    if number < 32 then
      .ok (sub32 (add32 (number <<< 3) (rtFfs ((s.table number).setWidth 32))) 1)
    else .error .wild

variable (k : Kernel n)

/-- `rt_schedule`: the head of the most urgent ready list becomes the current thread. -/
def rtSchedule : Except Fault (Kernel n) :=
  if k.lockNest = 0 then do
    let highest ← k.sched.highestReadyPriority
    if highest < k.sched.prioMax then
      match k.sched.tlist.next (.head (.ready highest)) with
      | .head _ => .error .wild
      | .item thread =>
        if some thread ≠ k.current then
          .ok { k with current := some thread, currentPriority := highest }
        else .ok k
    else .error .wild
  else .ok k

/-- `rt_system_scheduler_start`. -/
def rtSystemSchedulerStart : Except Fault (Kernel n) := do
  let highest ← k.sched.highestReadyPriority
  if highest < k.sched.prioMax then
    match k.sched.tlist.next (.head (.ready highest)) with
    | .head _ => .error .wild
    | .item thread => .ok { k with current := some thread }
  else .error .wild

/-- `rt_enter_critical`. -/
def rtEnterCritical : Kernel n := { k with lockNest := k.lockNest + 1 }

/-- `rt_exit_critical`. -/
def rtExitCritical : Except Fault (Kernel n) :=
  if k.lockNest ≤ 1 then rtSchedule { k with lockNest := 0 }
  else .ok { k with lockNest := k.lockNest - 1 }

/-! ## The timers of the threads -/

variable (ts : Timers n)

/-- `_rt_timer_remove`, and with it `rt_timer_detach`, which leaves the flag. -/
def rtTimerRemove (t : Fin n) : Timers n :=
  { ts with rows := rtListRemove ts.rows (.item t) }

/-- The flag of a timer is cleared. -/
def Timers.deactivate (t : Fin n) : Timers n :=
  { ts with activated := update ts.activated t false }

/-- `rt_timer_stop`. -/
def rtTimerStop (t : Fin n) : Timers n :=
  if ts.activated t then (rtTimerRemove ts t).deactivate t else ts

/-- `rt_timer_control` with `RT_TIMER_CTRL_SET_TIME`. -/
def rtTimerSetTime (t : Fin n) (time : ℕ) : Timers n :=
  { ts with initTick := update ts.initTick t time }

/-- The node after which `rt_timer_start` inserts the timer: the walk from `row` to the last node
whose timer is due no later. -/
def Timers.rowHead (ts : Timers n) (timer : Fin n) : ℕ → Node Unit (Fin n) → Except Fault (Node Unit (Fin n))
  | 0, _ => .error .fuel
  | fuel + 1, row =>
    if row = ts.rows.prev (.head ()) then .ok row
    else match ts.rows.next row with
      | .head _ => .error .wild
      | .item t =>
        let ahead := sub32 (ts.timeoutTick t) (ts.timeoutTick timer)
        if ahead = 0 then ts.rowHead timer fuel (.item t)
        else if ahead < halfTickMax then .ok row
        else ts.rowHead timer fuel (.item t)

/-- `rt_timer_start`: the timer is linked behind those that are due no later. -/
def rtTimerStart (t : Fin n) : Except Fault (Timers n) := do
  let ts := (rtTimerRemove ts t).deactivate t
  if ts.initTick t < halfTickMax then
    let ts := { ts with timeoutTick := update ts.timeoutTick t (add32 ts.tick (ts.initTick t)) }
    let row ← ts.rowHead t (n + 1) (.head ())
    return { ts with
      rows := rtListInsertAfter ts.rows row (.item t)
      activated := update ts.activated t true }
  else throw .assertion

/-! ## Threads -/

variable (t : Fin n)

/-- `rt_thread_suspend`, which refuses a thread that is not ready. -/
def rtThreadSuspend : Kernel n × ℤ :=
  if k.sched.stat t ≠ .ready then (k, -RT_ERROR)
  else
    ({ k with
      sched := rtScheduleRemoveThread (k.sched.setStat t .suspend) t
      timers := rtTimerStop k.timers t }, RT_EOK)

/-- `rt_thread_resume`, which refuses a thread that is not suspended. -/
def rtThreadResume : Kernel n × ℤ :=
  if k.sched.stat t ≠ .suspend then (k, -RT_ERROR)
  else
    ({ k with
      sched := rtScheduleInsertThread (k.sched.unlink t) t
      timers := rtTimerStop k.timers t }, RT_EOK)

/-- `rt_thread_timeout`, with its assertion. -/
def rtThreadTimeout : Except Fault (Kernel n) :=
  if k.sched.stat t = .suspend then
    rtSchedule { k with
      error := update k.error t (-RT_ETIMEOUT)
      sched := rtScheduleInsertThread (k.sched.unlink t) t }
  else .error .timeout

/-- `rt_thread_startup`. -/
def rtThreadStartup : Except Fault (Kernel n) :=
  if k.sched.stat t = .init then
    let sched := (k.sched.setPriority t (k.sched.initPriority t)).setStat t .suspend
    let k := (rtThreadResume { k with sched := sched } t).1
    if k.current ≠ none then rtSchedule k else .ok k
  else .error .assertion

/-- Taking a thread off the schedule and its timer off the timer list for good, as
`rt_thread_detach` and `rt_thread_delete` begin. -/
def Kernel.retire : Kernel n :=
  { k with
    sched := (if k.sched.stat t ≠ .init then rtScheduleRemoveThread k.sched t else k.sched).setStat t .close
    timers := rtTimerRemove k.timers t }

/-- Inserting a thread to the list of defunct threads. -/
def Kernel.bury : Kernel n :=
  { k with sched := { k.sched with tlist := rtListInsertAfter k.sched.tlist (.head .defunct) (.item t) } }

/-- `rt_thread_delete`. -/
def rtThreadDelete : Kernel n := (k.retire t).bury t

/-- `rt_thread_detach`. -/
def rtThreadDetach : Kernel n :=
  let k := k.retire t
  if k.cleanup t then k.bury t else k

/-- `rt_thread_exit` of the current thread `t`, which removes itself from the schedule whatever its
state. -/
def Kernel.exitThread : Except Fault (Kernel n) :=
  let k := { k with
    sched := (rtScheduleRemoveThread k.sched t).setStat t .close
    timers := rtTimerRemove k.timers t }
  rtSchedule (if k.systemObject t ∧ ¬k.cleanup t then k else k.bury t)

/-- `rt_thread_exit`, which the current thread calls by returning. -/
def rtThreadExit : Except Fault (Kernel n) :=
  match k.current with
  | none => .error .wild
  | some t => k.exitThread t

/-- `rt_thread_yield` of the current thread `t`. -/
def Kernel.yieldThread : Except Fault (Kernel n) :=
  if k.sched.stat t = .ready ∧ k.sched.tlist.next (.item t) ≠ k.sched.tlist.prev (.item t) then
    let tlist := rtListRemove k.sched.tlist (.item t)
    rtSchedule { k with sched := { k.sched with
      tlist := rtListInsertBefore tlist (.head (.ready (k.sched.currentPriority t))) (.item t) } }
  else .ok k

/-- `rt_thread_yield`. -/
def rtThreadYield : Except Fault (Kernel n) :=
  match k.current with
  | none => .error .wild
  | some t => k.yieldThread t

/-- `rt_thread_control` with `RT_THREAD_CTRL_CHANGE_PRIORITY`. -/
def rtThreadChangePriority (p : ℕ) : Kernel n :=
  if k.sched.stat t = .ready then
    let sched := (rtScheduleRemoveThread k.sched t).setPriority t p
    { k with sched := rtScheduleInsertThread sched t }
  else { k with sched := k.sched.setPriority t p }

/-- Setting the time of a thread's timer and starting it. -/
def startThreadTimer (time : ℕ) : Except Fault (Kernel n) := do
  let timers ← rtTimerStart (rtTimerSetTime k.timers t time) t
  return { k with timers := timers }

/-- `rt_thread_sleep` up to its call of `rt_schedule`. -/
def rtThreadSleep (tick : ℕ) : Except Fault (Kernel n) :=
  match k.current with
  | none => .error .assertion
  | some t => startThreadTimer (rtThreadSuspend k t).1 t tick

/-- `rt_thread_sleep` after its call of `rt_schedule`. -/
def rtThreadSleepEnd : Kernel n :=
  if k.error t = -RT_ETIMEOUT then { k with error := update k.error t RT_EOK } else k

/-! ## The clock -/

/-- What `rt_timer_check` does with a timer that is due. The timers of threads are all
`RT_TIMER_FLAG_ONE_SHOT`. -/
def rtTimerExpire : Except Fault (Kernel n) := do
  let k ← rtThreadTimeout { k with timers := rtTimerRemove k.timers t } t
  return { k with timers := k.timers.deactivate t }

/-- The loop of `rt_timer_check`. -/
def rtTimerCheckLoop : ℕ → ℕ → Kernel n → Except Fault (Kernel n)
  | 0, _, _ => .error .fuel
  | fuel + 1, now, k =>
    match k.timers.rows.next (.head ()) with
    | .head _ => .ok k
    | .item t =>
      if sub32 now (k.timers.timeoutTick t) < halfTickMax then do
        let k ← rtTimerExpire k t
        rtTimerCheckLoop fuel k.timers.tick k
      else .ok k

/-- `rt_timer_check`. -/
def rtTimerCheck : Except Fault (Kernel n) := rtTimerCheckLoop (n + 1) k.timers.tick k

/-- The time slice of the current thread `t` in `rt_tick_increase`. -/
def Kernel.tickThread : Except Fault (Kernel n) :=
  let remaining := sub32 (k.remainingTick t) 1
  if remaining = 0 then
    rtThreadYield { k with remainingTick := update k.remainingTick t (k.initTick t) }
  else .ok { k with remainingTick := update k.remainingTick t remaining }

/-- The tick counter goes on. -/
def Kernel.advance : Kernel n :=
  { k with timers := { k.timers with tick := add32 k.timers.tick 1 } }

/-- `rt_tick_increase`. -/
def rtTickIncrease : Except Fault (Kernel n) :=
  match k.current with
  | none => .error .wild
  | some t => do
    let k ← k.advance.tickThread t
    rtTimerCheck k

/-! ## Waiting for objects -/

/-- The order of a suspend list. -/
inductive IpcFlag
  | fifo
  | prio
  deriving DecidableEq

/-- The node before which `rt_ipc_list_suspend` inserts a thread by priority: the walk from `row` to
the first thread that is less urgent, or to the head. -/
def Sched.prioPlace (s : Sched n) (i : ℕ) (t : Fin n) : ℕ → Node Head (Fin n) → Except Fault (Node Head (Fin n))
  | 0, _ => .error .fuel
  | fuel + 1, row =>
    if row = .head (.wait i) then .ok row
    else match row with
      | .head _ => .error .wild
      | .item u =>
        if s.currentPriority t < s.currentPriority u then .ok row
        else s.prioPlace i t fuel (s.tlist.next row)

/-- The node before which `rt_ipc_list_suspend` inserts a thread. -/
def Sched.ipcPlace (i : ℕ) (t : Fin n) (flag : IpcFlag) : Except Fault (Node Head (Fin n)) :=
  match flag with
  | .fifo => .ok (.head (.wait i))
  | .prio => s.prioPlace i t (n + 1) (s.tlist.next (.head (.wait i)))

/-- `rt_ipc_list_suspend` on the suspend list `i`. -/
def rtIpcListSuspend (i : ℕ) (t : Fin n) (flag : IpcFlag) : Except Fault (Kernel n) := do
  let k := (rtThreadSuspend k t).1
  let place ← k.sched.ipcPlace i t flag
  return { k with sched := { k.sched with tlist := rtListInsertBefore k.sched.tlist place (.item t) } }

/-- `rt_ipc_list_resume` on the suspend list `i`. -/
def rtIpcListResume (i : ℕ) : Except Fault (Kernel n) :=
  match k.sched.tlist.next (.head (.wait i)) with
  | .head _ => .error .wild
  | .item t => .ok (rtThreadResume k t).1

/-- The loop of `rt_ipc_list_resume_all`. -/
def rtIpcListResumeAllLoop (i : ℕ) : ℕ → Kernel n → Except Fault (Kernel n)
  | 0, _ => .error .fuel
  | fuel + 1, k =>
    match k.sched.tlist.next (.head (.wait i)) with
    | .head _ => .ok k
    | .item t =>
      rtIpcListResumeAllLoop i fuel
        (rtThreadResume { k with error := update k.error t (-RT_ERROR) } t).1

/-- `rt_ipc_list_resume_all` on the suspend list `i`. -/
def rtIpcListResumeAll (i : ℕ) : Except Fault (Kernel n) :=
  rtIpcListResumeAllLoop i (n + 1) k

/-! ## The start of the system -/

/-- The scheduler after `rt_system_scheduler_init`, with all threads initialised: the lists are
empty, no bit is set, and `rt_thread_init` has left no mask. -/
def Sched.boot (prioMax : ℕ) (prio : Fin n → ℕ) : Sched n where
  prioMax := prioMax
  tlist := ⟨id, id⟩
  stat := fun _ => .init
  initPriority := prio
  currentPriority := prio
  number := fun _ => 0
  numberMask := fun _ => 0
  highMask := fun _ => 0
  group := 0
  table := fun _ => 0

/-- The kernel after the initialisation of the system and of the threads, at any value of the clock.
-/
def Kernel.boot (prioMax : ℕ) (prio ticks : Fin n → ℕ) (systemObject cleanup : Fin n → Bool) (tick : ℕ) :
    Kernel n where
  sched := Sched.boot prioMax prio
  timers := ⟨⟨id, id⟩, fun _ => false, fun _ => 0, fun _ => 0, tick⟩
  error := fun _ => RT_EOK
  initTick := ticks
  remainingTick := ticks
  systemObject := systemObject
  cleanup := cleanup
  current := none
  currentPriority := prioMax - 1
  lockNest := 0

end RtThread
