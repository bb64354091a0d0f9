import Mathlib.Data.Fin.VecNotation
import Mathlib.Data.Fintype.Pi
import RtThread.Ipc.Calls

/-!
# Mutexes

The mutexes of `ipc.c`, for any number of mutexes and threads. A release that frees a mutex for
which threads wait gives it to the first of them, which goes on to return `RT_EOK`. `MutexInv` says
that value, owner and list of a mutex agree in every state, whatever the order of calls and
timeouts.

The nesting of takes is counted in the 8-bit field `hold`. `Nested` is the account of the takes that
the owner has not released yet: it is correct as long as no release finds it at `256 k + 1` for a
positive `k`, where `hold` has wrapped to `1`.
-/

namespace RtThread

open Lib Function List Option

variable {n q : ℕ}

/-! ## The functions -/

/-- `struct rt_mutex`. -/
structure Mutex (n : ℕ) where
  /-- The value, a 16-bit word. -/
  value : ℕ
  /-- `original_priority`, a byte. -/
  originalPriority : ℕ
  /-- The nesting of the owner's takes, a byte. -/
  hold : ℕ
  owner : Option (Fin n)
  flag : IpcFlag

/-- `rt_mutex_init`. -/
def rtMutexInit (flag : IpcFlag) : Mutex n := ⟨1, 0xff, 0, none, flag⟩

variable (k : Kernel n)

/-- The change of the owner's priority in `rt_mutex_take`. -/
def Kernel.inherit (owner thread : Fin n) : Kernel n :=
  if k.sched.currentPriority thread < k.sched.currentPriority owner then
    rtThreadChangePriority k owner (k.sched.currentPriority thread)
  else k

/-- The change of the owner's priority in `rt_mutex_release`. -/
def Kernel.restore (owner : Fin n) (originalPriority : ℕ) : Kernel n :=
  if originalPriority ≠ k.sched.currentPriority owner then rtThreadChangePriority k owner originalPriority
  else k

variable (mutex : Mutex n)

/-- `rt_mutex_take` of the mutex with the suspend list `i`, up to its call of `rt_schedule`. It
returns an error code unless the thread waits. -/
def rtMutexTake (i : ℕ) (time : ℤ) :
    Except Fault (Kernel n × Mutex n × Option ℤ) :=
  match k.current with
  | none => .error .assertion
  | some thread =>
    let k := k.setError thread RT_EOK
    if mutex.owner = some thread then .ok (k, { mutex with hold := (mutex.hold + 1) % 2^8 }, some RT_EOK)
    else if 0 < mutex.value then
      .ok (k, { mutex with
        value := mutex.value - 1
        owner := some thread
        originalPriority := k.sched.currentPriority thread
        hold := (mutex.hold + 1) % 2^8 }, some RT_EOK)
    else if time = 0 then .ok (k.setError thread (-RT_ETIMEOUT), mutex, some (-RT_ETIMEOUT))
    else match mutex.owner with
      | none => .error .wild
      | some owner => do
        let k ← (k.inherit owner thread).waitThread thread i mutex.flag (waitTime time)
        return (k, mutex, none)

/-- `rt_mutex_take` after its call of `rt_schedule`. The error code `-RT_EINTR` is that of signals
only. -/
def rtMutexTakeEnd (thread : Fin n) : ℤ :=
  if k.error thread ≠ RT_EOK then k.error thread else RT_EOK

/-- The part of `rt_mutex_release` after the last hold is given up. -/
def Mutex.handOver (i : ℕ) : Except Fault (Kernel n × Mutex n × ℤ) :=
  if ¬rtListIsempty k.sched.tlist (.head (.wait i)) then
    match k.sched.tlist.next (.head (.wait i)) with
    | .head _ => .error .wild
    | .item thread => do
      let mutex := { mutex with
        owner := some thread
        originalPriority := k.sched.currentPriority thread
        hold := (mutex.hold + 1) % 2^8 }
      let k ← rtIpcListResume k i
      return (k, mutex, RT_EOK)
  else
    .ok (k, { mutex with
      value := (mutex.value + 1) % 2^16
      owner := none
      originalPriority := 0xff }, RT_EOK)

/-- `rt_mutex_release` of the mutex with the suspend list `i`, up to its call of `rt_schedule`. -/
def rtMutexRelease (i : ℕ) : Except Fault (Kernel n × Mutex n × ℤ) :=
  match k.current with
  | none => .error .assertion
  | some thread =>
    if mutex.owner ≠ some thread then .ok (k.setError thread (-RT_ERROR), mutex, -RT_ERROR)
    else
      let mutex := { mutex with hold := (mutex.hold + (2^8 - 1)) % 2^8 }
      if mutex.hold = 0 then Mutex.handOver (k.restore thread mutex.originalPriority) mutex i
      else .ok (k, mutex, RT_EOK)

/-! ## Runs -/

/-- The system with `q` mutexes. The mutex `m` has the suspend list `m`. -/
structure MutexSys (n q : ℕ) extends Callers (Fin q) n where
  mutex : Fin q → Mutex n
  /-- How many takes of the mutex the thread has yet to release. -/
  depth : Fin n → Fin q → ℕ

/-- The steps of the threads. -/
inductive MutexAct (n q : ℕ)
  | env (e : Env n)
  | take (t : Fin n) (m : Fin q) (time : ℤ)
  /-- The return of a take that has waited. -/
  | ret (t : Fin n) (m : Fin q)
  | release (t : Fin n) (m : Fin q)
  deriving DecidableEq

/-- The nesting of one thread's takes of one mutex is set. -/
def setDepth (depth : Fin n → Fin q → ℕ) (t : Fin n) (m : Fin q) (d : ℕ) : Fin n → Fin q → ℕ :=
  update depth t (update (depth t) m d)

variable (depth : Fin n → Fin q → ℕ)

/-- The takes to release after a release by `t`: one less, and one for the thread that got the
mutex. -/
def depthAfter (t : Fin n) (m : Fin q) (owner : Option (Fin n)) :
    Fin n → Fin q → ℕ :=
  let depth := setDepth depth t m (depth t m - 1)
  match owner with
  | some u => if u = t then depth else setDepth depth u m 1
  | none => depth

/-- One step. -/
def MutexSys.exec (s : MutexSys n q) : MutexAct n q → Option (MutexSys n q)
  | .env e => (s.toCallers.env e).map fun c => { s with toCallers := c }
  | .take t m time =>
    if s.k.current = some t ∧ s.doing t = .free then
      match rtMutexTake s.k (s.mutex m) m time with
      | .ok (k, mutex, some e) =>
        some { s with
          k := k
          mutex := update s.mutex m mutex
          depth := if e = RT_EOK then setDepth s.depth t m (s.depth t m + 1) else s.depth }
      | .ok (k, mutex, none) =>
        some { s with
          k := k
          mutex := update s.mutex m mutex
          doing := update s.doing t (.call m) }
      | .error _ => none
    else none
  | .ret t m =>
    if s.k.current = some t ∧ s.doing t = .call m ∧ s.k.sched.stat t = .ready then
      some { s with doing := update s.doing t .free }
    else none
  | .release t m =>
    if s.k.current = some t ∧ s.doing t = .free then
      match rtMutexRelease s.k (s.mutex m) m with
      | .ok (k, mutex, e) =>
        some { s with
          k := k
          mutex := update s.mutex m mutex
          depth := if e = RT_EOK then depthAfter s.depth t m mutex.owner else s.depth }
      | .error _ => none
    else none

/-- The runs from a kernel that has been booted, with mutexes that are free. -/
def mutexSystem (n q : ℕ) : System (MutexSys n q) (MutexAct n q) where
  init := fun s => s.toCallers.Boot ∧ (∀ m, ∃ flag, s.mutex m = rtMutexInit flag) ∧ s.depth = fun _ _ => 0
  step := fun s a s' => s.exec a = some s'

/-- Threads with these priorities, and free mutexes. -/
def MutexSys.fresh (prio : Fin n → ℕ) (flag : IpcFlag) : MutexSys n q :=
  ⟨.idle prio, fun _ => rtMutexInit flag, fun _ _ => 0⟩

theorem MutexSys.init_fresh (prio : Fin n → ℕ) (flag : IpcFlag) (h : ∀ t, prio t < 32) :
    (mutexSystem n q).init (.fresh prio flag) :=
  ⟨Callers.boot_idle h, fun _ => ⟨flag, rfl⟩, rfl⟩

/-! ## What the functions do -/

variable {k : Kernel n} {mutex' : Mutex n} {l : List (Fin n)}

section Functions

variable {s : Callers (Fin q) n} {t u : Fin n} {mutex : Mutex n} {m : ℕ} {time : ℤ}

/-- The suspend list of a mutex. -/
abbrev mutexList (m : Fin q) : Option ℕ := some m

/-- A release counts the nesting down. -/
def Mutex.drop (mutex : Mutex n) : Mutex n := { mutex with hold := (mutex.hold + (2^8 - 1)) % 2^8 }

theorem rtMutexTakeEnd_eq (k : Kernel n) (t : Fin n) : rtMutexTakeEnd k t = k.error t := by
  unfold rtMutexTakeEnd
  split_ifs with herr
  · rfl
  · exact (not_not.mp herr).symm

section

variable (hcur : s.k.current = some t)
include hcur

theorem rtMutexTake_free (howner : mutex.owner = none) (hvalue : 0 < mutex.value) :
    rtMutexTake s.k mutex m time = .ok (s.k.setError t RT_EOK, { mutex with
      value := mutex.value - 1
      owner := some t
      originalPriority := s.k.sched.currentPriority t
      hold := (mutex.hold + 1) % 2^8 }, some RT_EOK) := by
  unfold rtMutexTake
  rw [hcur]
  dsimp only
  rw [if_neg (by rw [howner]; simp), if_pos hvalue]
  rfl

theorem rtMutexTake_fail (howner : mutex.owner ≠ some t) (hvalue : mutex.value = 0) :
    rtMutexTake s.k mutex m 0 =
      .ok ((s.k.setError t RT_EOK).setError t (-RT_ETIMEOUT), mutex, some (-RT_ETIMEOUT)) := by
  unfold rtMutexTake
  rw [hcur]
  dsimp only
  rw [if_neg howner, if_neg (by omega), if_pos rfl]

theorem rtMutexTake_wait (howner : mutex.owner = some u) (hut : u ≠ t)
    (hvalue : mutex.value = 0) (htime : time ≠ 0) :
    rtMutexTake s.k mutex m time = (((s.k.setError t RT_EOK).inherit u t).waitThread t m mutex.flag
      (waitTime time)).map fun k => (k, mutex, none) := by
  unfold rtMutexTake
  rw [hcur]
  dsimp only
  rw [if_neg (by rw [howner]; simpa using hut), if_neg (by omega), if_neg htime, howner]
  dsimp only
  cases ((s.k.setError t RT_EOK).inherit u t).waitThread t m mutex.flag (waitTime time) <;> rfl

theorem rtMutexTake_owner
    (htake : rtMutexTake s.k mutex m time = .ok (k, mutex', some RT_EOK)) : mutex'.owner = some t := by
  unfold rtMutexTake at htake
  rw [hcur] at htake
  dsimp only at htake
  split_ifs at htake with howner hvalue htime
  · have heq : mutex.owner = mutex'.owner := congrArg (fun r => r.2.1.owner) (Except.ok.inj htake)
    rw [← heq, howner]
  · exact (congrArg (fun r => r.2.1.owner) (Except.ok.inj htake)).symm
  · simp [RT_EOK, RT_ETIMEOUT] at htake
  · cases hother : mutex.owner with
    | none =>
      rw [hother] at htake
      cases htake
    | some u =>
      rw [hother] at htake
      obtain ⟨k', -, htake⟩ := of_bind_ok htake
      cases htake

theorem rtMutexRelease_other (howner : mutex.owner ≠ some t) :
    rtMutexRelease s.k mutex m = .ok (s.k.setError t (-RT_ERROR), mutex, -RT_ERROR) := by
  unfold rtMutexRelease
  rw [hcur]
  dsimp only
  rw [if_pos howner]

theorem rtMutexRelease_keep (howner : mutex.owner = some t)
    (hhold : mutex.drop.hold ≠ 0) : rtMutexRelease s.k mutex m = .ok (s.k, mutex.drop, RT_EOK) := by
  unfold rtMutexRelease
  rw [hcur]
  dsimp only
  rw [if_neg (not_not.mpr howner)]
  exact if_neg hhold

theorem rtMutexRelease_last (howner : mutex.owner = some t)
    (hhold : mutex.drop.hold = 0) : rtMutexRelease s.k mutex m =
      Mutex.handOver (s.k.restore t mutex.originalPriority) mutex.drop m := by
  unfold rtMutexRelease
  rw [hcur]
  dsimp only
  rw [if_neg (not_not.mpr howner)]
  exact if_pos hhold

end

section

variable (h : Good mutexList s)
include h

theorem handOver_cons (hl : s.k.sched.waiters m = u :: l) :
    Mutex.handOver s.k mutex m = .ok ((rtThreadResume s.k u).1, { mutex with
      owner := some u
      originalPriority := s.k.sched.currentPriority u
      hold := (mutex.hold + 1) % 2^8 }, RT_EOK) := by
  have hnext : s.k.sched.tlist.next (.head (.wait m)) = .item u := by
    obtain ⟨v, hv⟩ := h.sim
    rw [hv.waiters] at hl
    rw [hv.queues.rings.next_head, hl]
    rfl
  unfold Mutex.handOver
  rw [if_pos (h.not_isempty hl), hnext]
  rw [(h.wakeHead hl).1]
  rfl

theorem Good.inherit (u t : Fin n) :
    Good mutexList { s with k := s.k.inherit u t } ∧
      Becomes (s.k.inherit u t) s.k.sched.waiters s.k.sched.stat s.k.error
        (update s.k.sched.currentPriority u
          (min (s.k.sched.currentPriority u) (s.k.sched.currentPriority t))) := by
  obtain ⟨v, hv⟩ := h.sim
  unfold Kernel.inherit
  split_ifs with hlt
  · rw [min_eq_right hlt.le]
    exact h.changePriority u (hv.queues.prio t)
  · rw [min_eq_left (not_lt.mp hlt), update_eq_self]
    exact ⟨h, rfl, rfl, rfl, rfl⟩

theorem Good.restore (u : Fin n) {p : ℕ} (hp : p < s.k.sched.prioMax) :
    Good mutexList { s with k := s.k.restore u p } ∧
      Becomes (s.k.restore u p) s.k.sched.waiters s.k.sched.stat s.k.error
        (update s.k.sched.currentPriority u p) := by
  unfold Kernel.restore
  split_ifs with hne
  · exact h.changePriority u hp
  · rw [not_not.mp hne, update_eq_self]
    exact ⟨h, rfl, rfl, rfl, rfl⟩

end

theorem inherit_limits (k : Kernel n) (u t : Fin n) : SameLimits k (k.inherit u t) := by
  unfold Kernel.inherit
  split_ifs
  · exact SameLimits.changePriority k u _
  · exact SameLimits.refl k

theorem restore_limits (k : Kernel n) (u : Fin n) (p : ℕ) : SameLimits k (k.restore u p) := by
  unfold Kernel.restore
  split_ifs
  · exact SameLimits.changePriority k u p
  · exact SameLimits.refl k

end Functions

/-! ## What a step does -/

/-- The mutex of a thread that took it, or got it from the thread that released it. -/
def Mutex.given (t : Fin n) (p : ℕ) : Mutex n :=
  { mutex with owner := some t, originalPriority := p, hold := (mutex.hold + 1) % 2^8 }

/-- The steps of the system, each with all that it changes. -/
inductive MutexStep (s : MutexSys n q) : MutexAct n q → MutexSys n q → Prop
  /-- A step of the rest of the system. -/
  | env {e : Env n} {c : Callers (Fin q) n} (hgood : Good mutexList c)
      (hcase : Quiet s.toCallers c ∨ ∃ t, e = .expire t ∧ Expired s.toCallers c t)
      (hlimits : SameLimits s.k c.k)
      (hprio : (∀ u p, e ≠ .control u p) → ∀ t,
        c.k.sched.currentPriority t = s.k.sched.currentPriority t ∨
          s.k.sched.stat t = .init ∧ c.k.sched.currentPriority t = s.k.sched.initPriority t) :
      MutexStep s (.env e) { s with toCallers := c }
  /-- The owner takes the mutex once more. -/
  | again {t : Fin n} {m : Fin q} {time : ℤ} (hfree : s.doing t = .free) (howner : (s.mutex m).owner = some t) :
      MutexStep s (.take t m time) { s with
        k := s.k.setError t RT_EOK
        mutex := update s.mutex m { s.mutex m with hold := ((s.mutex m).hold + 1) % 2^8 }
        depth := setDepth s.depth t m (s.depth t m + 1) }
  /-- A thread takes a free mutex. -/
  | take {t : Fin n} {m : Fin q} {time : ℤ} (hfree : s.doing t = .free) (hready : s.k.sched.stat t = .ready)
      (howner : (s.mutex m).owner = none) :
      MutexStep s (.take t m time) { s with
        k := s.k.setError t RT_EOK
        mutex := update s.mutex m
          (Mutex.given { s.mutex m with value := 0 } t (s.k.sched.currentPriority t))
        depth := setDepth s.depth t m (s.depth t m + 1) }
  /-- A take without waiting fails. -/
  | fail {t : Fin n} {m : Fin q} (hfree : s.doing t = .free) :
      MutexStep s (.take t m 0) { s with k := (s.k.setError t RT_EOK).setError t (-RT_ETIMEOUT) }
  /-- A thread waits for the mutex of `u`, which gets its priority. -/
  | wait {t u : Fin n} {m : Fin q} {time : ℤ} {k : Kernel n} (htime : time ≠ 0)
      (hready : s.k.sched.stat t = .ready) (hfree : s.doing t = .free) (howner : (s.mutex m).owner = some u) (hut : u ≠ t)
      (hgood : Good mutexList ⟨k, update s.doing t (.call m)⟩)
      (hb : Becomes k (update s.k.sched.waiters (m : ℕ)
          ((s.mutex m).flag.insert (update s.k.sched.currentPriority u
            (min (s.k.sched.currentPriority u) (s.k.sched.currentPriority t))) t (s.k.sched.waiters m)))
        (update s.k.sched.stat t .suspend) (update s.k.error t RT_EOK)
        (update s.k.sched.currentPriority u
          (min (s.k.sched.currentPriority u) (s.k.sched.currentPriority t))))
      (hlimits : SameLimits s.k k) :
      MutexStep s (.take t m time) { s with k := k, doing := update s.doing t (.call m) }
  /-- A take that has waited returns. -/
  | ret {t : Fin n} {m : Fin q} (hcall : s.doing t = .call m) (hready : s.k.sched.stat t = .ready) :
      MutexStep s (.ret t m) { s with doing := update s.doing t .free }
  /-- A release by a thread that does not own the mutex. -/
  | other {t : Fin n} {m : Fin q} (hfree : s.doing t = .free) (howner : (s.mutex m).owner ≠ some t) :
      MutexStep s (.release t m) { s with k := s.k.setError t (-RT_ERROR) }
  /-- A release of a nested take. -/
  | keep {t : Fin n} {m : Fin q} (howner : (s.mutex m).owner = some t) (hhold : (s.mutex m).drop.hold ≠ 0) :
      MutexStep s (.release t m) { s with
        mutex := update s.mutex m (s.mutex m).drop
        depth := setDepth s.depth t m (s.depth t m - 1) }
  /-- A release after which the mutex is free. -/
  | freed {t : Fin n} {m : Fin q} {k : Kernel n} (hready : s.k.sched.stat t = .ready) (hfree : s.doing t = .free)
      (howner : (s.mutex m).owner = some t) (hhold : (s.mutex m).drop.hold = 0)
      (hnil : s.k.sched.waiters m = []) (hgood : Good mutexList ⟨k, s.doing⟩)
      (hb : Becomes k s.k.sched.waiters s.k.sched.stat s.k.error
        (update s.k.sched.currentPriority t (s.mutex m).originalPriority))
      (hlimits : SameLimits s.k k) :
      MutexStep s (.release t m) { s with
        k := k
        mutex := update s.mutex m { (s.mutex m).drop with
          value := 1
          owner := none
          originalPriority := 0xff }
        depth := setDepth s.depth t m (s.depth t m - 1) }
  /-- A release that gives the mutex to the first thread that waits. -/
  | handed {t u : Fin n} {m : Fin q} {l : List (Fin n)} {k : Kernel n} (hready : s.k.sched.stat t = .ready)
      (hfree : s.doing t = .free) (howner : (s.mutex m).owner = some t) (hhold : (s.mutex m).drop.hold = 0)
      (hl : s.k.sched.waiters m = u :: l) (hgood : Good mutexList ⟨k, s.doing⟩)
      (hb : Becomes k (update s.k.sched.waiters (m : ℕ) l) (update s.k.sched.stat u .ready)
        s.k.error (update s.k.sched.currentPriority t (s.mutex m).originalPriority))
      (hlimits : SameLimits s.k k) :
      MutexStep s (.release t m) { s with
        k := k
        mutex := update s.mutex m ((s.mutex m).drop.given u (s.k.sched.currentPriority u))
        depth := setDepth (setDepth s.depth t m (s.depth t m - 1)) u m 1 }

/-- Value, owner and list of one mutex agree. An owner has been started, and the priority that it
gets back is one of the scheduler's. -/
structure Mutex.Agrees (k : Kernel n) (waiters : List (Fin n)) (mutex : Mutex n) : Prop where
  free : mutex.owner = none → mutex.value = 1 ∧ waiters = []
  owned : ∀ u, mutex.owner = some u → mutex.value = 0 ∧ u ∉ waiters
  owner : ∀ u, mutex.owner = some u → mutex.originalPriority < k.sched.prioMax ∧ k.sched.stat u ≠ .init

/-- What every step keeps: the fields of every mutex agree with its list. -/
structure MutexInv (s : MutexSys n q) : Prop where
  good : Good mutexList s.toCallers
  agrees : ∀ m, (s.mutex m).Agrees s.k (s.k.sched.waiters m)
  /-- A thread that waits has no error yet. -/
  error : ∀ m t, t ∈ s.k.sched.waiters m → s.k.error t = RT_EOK
  /-- A thread that was woken without an error owns the mutex that it waited for. -/
  granted : ∀ t m, s.doing t = .call m → s.k.sched.stat t = .ready → s.k.error t = RT_EOK →
    (s.mutex m).owner = some t

namespace MutexInv

variable {s s' : MutexSys n q} {a : MutexAct n q} {t : Fin n} {m : Fin q}

/-- What a take can do. -/
theorem step_take (h : MutexInv s) (hcur : s.k.current = some t) (hfree : s.doing t = .free) {time : ℤ}
    (hs : s.exec (.take t m time) = some s') : MutexStep s (.take t m time) s' := by
  have hready := h.good.ready hcur hfree
  rw [MutexSys.exec, if_pos ⟨hcur, hfree⟩] at hs
  cases howner : (s.mutex m).owner with
  | none =>
    have hvalue := ((h.agrees m).free howner).1
    rw [rtMutexTake_free (s := s.toCallers) hcur howner (by omega), hvalue] at hs
    exact some.inj hs ▸ MutexStep.take hfree hready howner
  | some u =>
    by_cases hut : u = t
    · subst hut
      unfold rtMutexTake at hs
      rw [hcur] at hs
      dsimp only at hs
      rw [if_pos howner] at hs
      exact some.inj hs ▸ MutexStep.again hfree howner
    · have hvalue := ((h.agrees m).owned u howner).1
      by_cases htime : time = 0
      · subst htime
        rw [rtMutexTake_fail (s := s.toCallers) hcur (by rw [howner]; simpa using hut) hvalue] at hs
        have hs' := some.inj hs
        rw [update_eq_self, if_neg (by simp [RT_EOK, RT_ETIMEOUT])] at hs'
        exact hs' ▸ MutexStep.fail hfree
      · rw [rtMutexTake_wait (s := s.toCallers) hcur howner hut hvalue htime] at hs
        cases hw : ((s.k.setError t RT_EOK).inherit u t).waitThread t m (s.mutex m).flag (waitTime time) with
        | error e =>
          rw [hw] at hs
          cases hs
        | ok k =>
          rw [hw] at hs
          have hs' := some.inj hs
          rw [update_eq_self] at hs'
          obtain ⟨hgood, hb⟩ := (h.good.setError t RT_EOK).inherit u t
          have hready' : ((s.k.setError t RT_EOK).inherit u t).sched.stat t = .ready := by
            rw [hb.stat]
            exact hready
          obtain ⟨hgood', hb'⟩ := hgood.block (c := m) hready' rfl hw
          rw [hb.waiters, hb.stat, hb.error, hb.prio] at hb'
          have hlimits : SameLimits s.k k :=
            ((SameLimits.setError s.k t RT_EOK).trans (inherit_limits _ u t)).trans (SameLimits.waitThread hw)
          exact hs' ▸ MutexStep.wait htime hready hfree howner hut hgood' hb' hlimits

theorem release_nil (h : MutexInv s) (hcur : s.k.current = some t) (howner : (s.mutex m).owner = some t)
    (hhold : (s.mutex m).drop.hold = 0) (hl : s.k.sched.waiters m = []) :
    rtMutexRelease s.k (s.mutex m) m = .ok (s.k.restore t (s.mutex m).originalPriority,
      { (s.mutex m).drop with
        value := 1
        owner := none
        originalPriority := 0xff }, RT_EOK) := by
  obtain ⟨hgood, hb⟩ := h.good.restore t ((h.agrees m).owner t howner).1
  have hnil : (s.k.restore t (s.mutex m).originalPriority).sched.waiters m = [] := by
    rw [hb.waiters, hl]
  have hvalue : ((s.mutex m).drop.value + 1) % 2^16 = 1 := by
    have hzero : (s.mutex m).drop.value = 0 := ((h.agrees m).owned t howner).1
    omega
  rw [rtMutexRelease_last (s := s.toCallers) hcur howner hhold, Mutex.handOver,
    if_neg (not_not.mpr (hgood.isempty.mpr hnil)), hvalue]

variable {u : Fin n}

theorem release_cons (h : MutexInv s) (hcur : s.k.current = some t) (howner : (s.mutex m).owner = some t)
    (hhold : (s.mutex m).drop.hold = 0) (hl : s.k.sched.waiters m = u :: l) :
    ∃ k, rtMutexRelease s.k (s.mutex m) m =
        .ok (k, (s.mutex m).drop.given u (s.k.sched.currentPriority u), RT_EOK) ∧
      Good mutexList { s.toCallers with k := k } ∧
      Becomes k (update s.k.sched.waiters m l) (update s.k.sched.stat u .ready) s.k.error
        (update s.k.sched.currentPriority t (s.mutex m).originalPriority) ∧
      SameLimits s.k k := by
  obtain ⟨hgood, hb⟩ := h.good.restore t ((h.agrees m).owner t howner).1
  have hcons : (s.k.restore t (s.mutex m).originalPriority).sched.waiters m = u :: l := by
    rw [hb.waiters, hl]
  have hut : u ≠ t := by
    rintro rfl
    exact ((h.agrees m).owned u howner).2 (by rw [hl]; exact mem_cons_self)
  obtain ⟨-, hgood', hb'⟩ := hgood.wakeHead hcons
  rw [hb.waiters, hb.stat, hb.error, hb.prio] at hb'
  refine ⟨_, ?_, hgood', hb', (restore_limits s.k t _).trans (SameLimits.resume _ u)⟩
  rw [rtMutexRelease_last (s := s.toCallers) hcur howner hhold, handOver_cons hgood hcons, hb.prio,
    update_of_ne hut]
  rfl

/-- What a release can do. -/
theorem step_release (h : MutexInv s) (hcur : s.k.current = some t) (hfree : s.doing t = .free)
    (hs : s.exec (.release t m) = some s') : MutexStep s (.release t m) s' := by
  have hready := h.good.ready hcur hfree
  rw [MutexSys.exec, if_pos ⟨hcur, hfree⟩] at hs
  by_cases howner : (s.mutex m).owner = some t
  · by_cases hhold : (s.mutex m).drop.hold = 0
    · cases hl : s.k.sched.waiters m with
      | nil =>
        obtain ⟨hgood, hb⟩ := h.good.restore t ((h.agrees m).owner t howner).1
        rw [h.release_nil hcur howner hhold hl] at hs
        have hs' := some.inj hs
        rw [if_pos rfl] at hs'
        exact hs' ▸ MutexStep.freed hready hfree howner hhold hl hgood hb (restore_limits s.k t _)
      | cons u l =>
        have hut : u ≠ t := by
          rintro rfl
          exact ((h.agrees m).owned u howner).2 (by rw [hl]; exact mem_cons_self)
        obtain ⟨k, hrelease, hgood, hb, hlimits⟩ := h.release_cons hcur howner hhold hl
        rw [hrelease] at hs
        have hs' := some.inj hs
        rw [if_pos rfl] at hs'
        dsimp only [depthAfter, Mutex.given] at hs'
        rw [if_neg hut] at hs'
        exact hs' ▸ MutexStep.handed hready hfree howner hhold hl hgood hb hlimits
    · rw [rtMutexRelease_keep (s := s.toCallers) hcur howner hhold] at hs
      have hs' := some.inj hs
      rw [if_pos rfl, show (s.mutex m).drop.owner = some t from howner] at hs'
      dsimp only [depthAfter] at hs'
      rw [if_pos rfl] at hs'
      exact hs' ▸ MutexStep.keep howner hhold
  · rw [rtMutexRelease_other (s := s.toCallers) hcur howner] at hs
    have hs' := some.inj hs
    rw [update_eq_self, if_neg (by simp [RT_EOK, RT_ERROR])] at hs'
    exact hs' ▸ MutexStep.other hfree howner

theorem step (h : MutexInv s) (hs : s.exec a = some s') : MutexStep s a s' := by
  cases a with
  | env e =>
    obtain ⟨c, hc, rfl⟩ := map_eq_some_iff.mp hs
    obtain ⟨hgood, hcase⟩ := h.good.env hc
    exact MutexStep.env hgood hcase (Callers.env_limits hc) fun hne t => h.good.env_prio hc hne t
  | take t m time =>
    by_cases hcond : s.k.current = some t ∧ s.doing t = .free
    · exact h.step_take hcond.1 hcond.2 hs
    · rw [MutexSys.exec, if_neg hcond] at hs
      cases hs
  | ret t m =>
    unfold MutexSys.exec at hs
    dsimp only at hs
    split_ifs at hs with hcond
    exact some.inj hs ▸ MutexStep.ret hcond.2.1 hcond.2.2
  | release t m =>
    by_cases hcond : s.k.current = some t ∧ s.doing t = .free
    · exact h.step_release hcond.1 hcond.2 hs
    · rw [MutexSys.exec, if_neg hcond] at hs
      cases hs

theorem setError (h : MutexInv s) (hfree : s.doing t = .free) (e : ℤ) :
    MutexInv { s with k := s.k.setError t e } := by
  have hne : ∀ {u m}, s.doing u = .call m → u ≠ t := by
    rintro u m hd rfl
    rw [hfree] at hd
    cases hd
  refine ⟨h.good.setError t e, fun m => ⟨(h.agrees m).1, (h.agrees m).2, (h.agrees m).3⟩, fun m u hu => ?_,
    fun u m hd hst herr => ?_⟩
  · obtain ⟨-, c, hc, -⟩ := (h.good.wait u m).mp hu
    change update s.k.error t e u = RT_EOK
    rw [update_of_ne (hne hc)]
    exact h.error m u hu
  · change update s.k.error t e u = RT_EOK at herr
    rw [update_of_ne (hne hd)] at herr
    exact h.granted u m hd hst herr

theorem agrees_update {mutex : Fin q → Mutex n} (hm : mutex'.Agrees k (k.sched.waiters m))
    (hother : ∀ m', m' ≠ m → (mutex m').Agrees k (k.sched.waiters m')) (m' : Fin q) :
    (update mutex m mutex' m').Agrees k (k.sched.waiters m') := by
  by_cases hmm : m' = m
  · rwa [hmm, update_self]
  · rw [update_of_ne hmm]
    exact hother m' hmm

variable {p : Fin n → ℕ}

section

variable (h : MutexInv s)
include h

theorem setHold (m : Fin q) (hold : ℕ) :
    MutexInv { s with mutex := update s.mutex m { s.mutex m with hold := hold } } := by
  refine ⟨h.good, ?_, h.error, fun u m' hd hst herr => ?_⟩
  · exact agrees_update ⟨(h.agrees m).1, (h.agrees m).2, (h.agrees m).3⟩ fun m' _ => h.agrees m'
  · have hgranted := h.granted u m' hd hst herr
    dsimp only
    rw [update_apply]
    split_ifs with hmm
    · exact hmm ▸ hgranted
    · exact hgranted

theorem setDepth (depth : Fin n → Fin q → ℕ) : MutexInv { s with depth := depth } :=
  ⟨h.good, h.agrees, h.error, h.granted⟩

theorem agrees_mono (hlimits : SameLimits s.k k) (hsub : k.sched.waiters m ⊆ s.k.sched.waiters m)
    (hstat : ∀ t, s.k.sched.stat t ≠ .init → k.sched.stat t ≠ .init) :
    (s.mutex m).Agrees k (k.sched.waiters m) := by
  refine ⟨fun hnone => ⟨((h.agrees m).free hnone).1, ?_⟩, fun u hu => ⟨((h.agrees m).owned u hu).1, ?_⟩,
    fun u hu => ⟨?_, hstat u ((h.agrees m).owner u hu).2⟩⟩
  · rw [((h.agrees m).free hnone).2] at hsub
    exact subset_nil.mp hsub
  · exact fun hmem => ((h.agrees m).owned u hu).2 (hsub hmem)
  · rw [hlimits.prioMax]
    exact ((h.agrees m).owner u hu).1

/-- A step of the rest of the system keeps the invariant. -/
theorem env {c : Callers (Fin q) n} (hgood : Good mutexList c)
    (hcase : Quiet s.toCallers c ∨ ∃ t, Expired s.toCallers c t) (hlimits : SameLimits s.k c.k) :
    MutexInv { s with toCallers := c } := by
  rcases hcase with hq | ⟨t, hx⟩
  · refine ⟨hgood, fun m => h.agrees_mono hlimits ?_ hq.started, fun m u hu => ?_, fun u m hd hst herr => ?_⟩
    · rw [hq.waiters]
      exact List.Subset.refl _
    · rw [hq.waiters] at hu
      obtain ⟨-, c', hc', -⟩ := (h.good.wait u m).mp hu
      rw [hq.error u c' hc']
      exact h.error m u hu
    · have hd' := (hq.calls u m).mp hd
      exact h.granted u m hd' ((hq.stat u m hd').symm.trans hst) ((hq.error u m hd').symm.trans herr)
  · have hb := hx.becomes
    refine ⟨hgood, fun m => h.agrees_mono hlimits ?_ fun u hu => ?_, fun m u hu => ?_, fun u m hd hst herr => ?_⟩
    · rw [hb.waiters]
      exact erase_subset
    · rw [hb.stat]
      exact ne_init_update (by simp) hu
    · dsimp only at hu ⊢
      rw [hb.waiters, (h.good.nodup m).mem_erase_iff] at hu
      rw [hb.error, update_of_ne hu.1]
      exact h.error m u hu.2
    · rw [hx.doing] at hd
      by_cases hut : u = t
      · subst hut
        rw [hb.error, update_self] at herr
        simp [RT_EOK, RT_ETIMEOUT] at herr
      · rw [hb.stat, update_of_ne hut] at hst
        rw [hb.error, update_of_ne hut] at herr
        exact h.granted u m hd hst herr

theorem take (hready : s.k.sched.stat t = .ready) (howner : (s.mutex m).owner = none) :
    MutexInv { s with
      mutex := update s.mutex m
        (Mutex.given { s.mutex m with value := 0 } t (s.k.sched.currentPriority t)) } := by
  obtain ⟨v, hv⟩ := h.good.sim
  refine ⟨h.good, ?_, h.error, fun u m' hd hst herr => ?_⟩
  · refine agrees_update ⟨fun hnone => ?_, fun u _ => ?_, fun u hu => ?_⟩ fun m' _ => h.agrees m'
    · cases hnone
    · rw [((h.agrees m).free howner).2]
      exact ⟨rfl, not_mem_nil⟩
    · rw [← some.inj hu, hready]
      exact ⟨hv.queues.prio t, by simp⟩
  · -- A free mutex was not granted to anyone.
    have hgranted := h.granted u m' hd hst herr
    have hmm : m' ≠ m := by
      rintro rfl
      rw [howner] at hgranted
      cases hgranted
    dsimp only
    rwa [update_of_ne hmm]

/-- So does a take that waits. -/
theorem wait (howner : (s.mutex m).owner = some u)
    (hut : u ≠ t) (hgood : Good mutexList ⟨k, update s.doing t (.call m)⟩)
    (hb : Becomes k
      (update s.k.sched.waiters (m : ℕ) ((s.mutex m).flag.insert p t (s.k.sched.waiters m)))
      (update s.k.sched.stat t .suspend) (update s.k.error t RT_EOK) p)
    (hlimits : SameLimits s.k k) :
    MutexInv { s with k := k, doing := update s.doing t (.call m) } := by
  have hstat : ∀ x, s.k.sched.stat x ≠ .init → k.sched.stat x ≠ .init := by
    intro x hx
    rw [hb.stat]
    exact ne_init_update (by simp) hx
  refine ⟨hgood, fun m' => ?_, fun m' x hx => ?_, fun x m' hd hst herr => ?_⟩
  · -- The list of `m` has one thread more, which is not the owner.
    by_cases hmm : m' = m
    · subst hmm
      refine ⟨fun hnone => ?_, fun x hx => ?_, fun x hx => ?_⟩
      · rw [howner] at hnone
        cases hnone
      · rw [howner] at hx
        obtain rfl := some.inj hx
        rw [hb.waiters, update_self, IpcFlag.mem_insert]
        exact ⟨((h.agrees m').owned u howner).1, by simp [hut, ((h.agrees m').owned u howner).2]⟩
      · rw [hlimits.prioMax]
        exact ⟨((h.agrees m').owner x hx).1, hstat x ((h.agrees m').owner x hx).2⟩
    · apply h.agrees_mono hlimits _ hstat
      rw [hb.waiters, update_of_ne (Fin.val_ne_of_ne hmm)]
      exact List.Subset.refl _
  · rw [hb.error]
    by_cases hxt : x = t
    · rw [hxt, update_self]
    · rw [update_of_ne hxt]
      rw [hb.waiters, update_apply] at hx
      split_ifs at hx with hmm
      · rw [IpcFlag.mem_insert] at hx
        exact h.error m x (hx.resolve_left hxt)
      · exact h.error m' x hx
  · dsimp only at hd hst herr ⊢
    have hxt : x ≠ t := by
      rintro rfl
      rw [hb.stat, update_self] at hst
      cases hst
    rw [update_of_ne hxt] at hd
    rw [hb.stat, update_of_ne hxt] at hst
    rw [hb.error, update_of_ne hxt] at herr
    exact h.granted x m' hd hst herr

theorem ret (hready : s.k.sched.stat t = .ready) :
    MutexInv { s with doing := update s.doing t .free } := by
  refine ⟨h.good.move hready .free, h.agrees, h.error, fun u m hd hst herr => ?_⟩
  dsimp only at hd hst herr ⊢
  have hut : u ≠ t := by
    rintro rfl
    rw [update_self] at hd
    cases hd
  rw [update_of_ne hut] at hd
  exact h.granted u m hd hst herr

end

theorem granted_ne (hfree : s.doing t = .free) (howner : (s.mutex m).owner = some t)
    {m' : Fin q} (hd : s.doing u = .call m') (hgranted : (s.mutex m').owner = some u) : m' ≠ m := by
  rintro rfl
  rw [howner] at hgranted
  rw [← some.inj hgranted, hfree] at hd
  cases hd

theorem freed (h : MutexInv s) (hfree : s.doing t = .free)
    (howner : (s.mutex m).owner = some t) (hnil : s.k.sched.waiters m = [])
    (hgood : Good mutexList ⟨k, s.doing⟩) (hb : Becomes k s.k.sched.waiters s.k.sched.stat s.k.error p)
    (hlimits : SameLimits s.k k) :
    MutexInv { s with
      k := k
      mutex := update s.mutex m { (s.mutex m).drop with
        value := 1
        owner := none
        originalPriority := 0xff } } := by
  refine ⟨hgood, ?_, ?_, fun u m' hd hst herr => ?_⟩
  · refine agrees_update ⟨fun _ => ⟨rfl, ?_⟩, fun u hu => ?_, fun u hu => ?_⟩
      fun m' _ => h.agrees_mono hlimits ?_ fun u hu => ?_
    · rw [hb.waiters]
      exact hnil
    · cases hu
    · cases hu
    · rw [hb.waiters]
      exact List.Subset.refl _
    · rwa [hb.stat]
  · rw [hb.waiters, hb.error]
    exact h.error
  · dsimp only at hd hst herr ⊢
    rw [hb.stat] at hst
    rw [hb.error] at herr
    have hgranted := h.granted u m' hd hst herr
    rwa [update_of_ne (granted_ne hfree howner hd hgranted)]

/-- A release hands the mutex to the first thread that waits. -/
theorem handed (h : MutexInv s)
    (hfree : s.doing t = .free) (howner : (s.mutex m).owner = some t) (hl : s.k.sched.waiters m = u :: l)
    (hgood : Good mutexList ⟨k, s.doing⟩)
    (hb : Becomes k (update s.k.sched.waiters m l) (update s.k.sched.stat u .ready)
      s.k.error p) (hlimits : SameLimits s.k k) :
    MutexInv { s with
      k := k
      mutex := update s.mutex m ((s.mutex m).drop.given u (s.k.sched.currentPriority u)) } := by
  obtain ⟨v, hv⟩ := h.good.sim
  have hu : u ∈ s.k.sched.waiters m := by rw [hl]; exact mem_cons_self
  have hnodup := h.good.nodup m
  rw [hl, nodup_cons] at hnodup
  obtain ⟨hsusp, c, hcall, hc⟩ := (h.good.wait u m).mp hu
  obtain rfl : c = m := Fin.ext (some.inj hc)
  refine ⟨hgood, ?_, fun m' x hx => ?_, fun x m' hd hst herr => ?_⟩
  · refine agrees_update ⟨fun hnone => ?_, fun x hx => ?_, fun x hx => ?_⟩
      fun m' hmm => h.agrees_mono hlimits ?_ fun x hx => ?_
    · cases hnone
    · rw [hb.waiters, update_self, ← some.inj hx]
      exact ⟨((h.agrees c).owned t howner).1, hnodup.1⟩
    · rw [hlimits.prioMax, hb.stat, ← some.inj hx, update_self]
      exact ⟨hv.queues.prio u, by simp⟩
    · rw [hb.waiters, update_of_ne (Fin.val_ne_of_ne hmm)]
      exact List.Subset.refl _
    · rw [hb.stat]
      exact ne_init_update (by simp) hx
  · rw [hb.error]
    rw [hb.waiters, update_apply] at hx
    split_ifs at hx with hmm
    · exact h.error c x (by rw [hl]; exact mem_cons_of_mem _ hx)
    · exact h.error m' x hx
  · dsimp only at hd hst herr ⊢
    rw [hb.error] at herr
    by_cases hxu : x = u
    · -- The new owner is the thread that was woken.
      subst hxu
      rw [hcall] at hd
      obtain rfl := Doing.call.inj hd
      rw [update_self]
      rfl
    · rw [hb.stat, update_of_ne hxu] at hst
      have hgranted := h.granted x m' hd hst herr
      rwa [update_of_ne (granted_ne hfree howner hd hgranted)]

theorem exec (h : MutexInv s) (hs : s.exec a = some s') : MutexInv s' := by
  cases h.step hs with
  | env hgood hcase hlimits hprio =>
    refine h.env hgood ?_ hlimits
    rcases hcase with hq | ⟨t, -, hx⟩
    · exact .inl hq
    · exact .inr ⟨t, hx⟩
  | again hfree howner => exact ((h.setError hfree RT_EOK).setHold _ _).setDepth _
  | take hfree hready howner => exact ((h.setError hfree RT_EOK).take hready howner).setDepth _
  | fail hfree => exact (h.setError hfree RT_EOK).setError hfree (-RT_ETIMEOUT)
  | wait htime hready hfree howner hut hgood hb hlimits => exact h.wait howner hut hgood hb hlimits
  | ret hcall hready => exact h.ret hready
  | other hfree howner => exact h.setError hfree (-RT_ERROR)
  | keep howner hhold => exact (h.setHold _ _).setDepth _
  | freed hready hfree howner hhold hnil hgood hb hlimits =>
    exact (h.freed hfree howner hnil hgood hb hlimits).setDepth _
  | handed hready hfree howner hhold hl hgood hb hlimits =>
    exact (h.handed hfree howner hl hgood hb hlimits).setDepth _

theorem reachable {ok : MutexSys n q → MutexAct n q → Prop} (hs : Reachable (mutexSystem n q) ok s) :
    MutexInv s := by
  refine hs.invariant ?_ ?_
  · rintro s ⟨hboot, hmutex, -⟩
    obtain ⟨hgood, hwaiters⟩ : Good mutexList s.toCallers ∧ _ := Good.boot hboot
    refine ⟨hgood, fun m => ?_, fun m t ht => ?_, fun t m hd _ _ => ?_⟩
    · obtain ⟨flag, hflag⟩ := hmutex m
      rw [hflag, hwaiters]
      constructor
      · exact fun _ => ⟨rfl, rfl⟩
      · exact fun u hu => by cases hu
      · exact fun u hu => by cases hu
    · rw [hwaiters] at ht
      cases ht
    · obtain ⟨_, _, _, _, _, _, -, -, hs⟩ := hboot
      rw [hs] at hd
      cases hd
  · exact fun s a s' h _ hstep => h.exec hstep

end MutexInv

/-! ## Ownership -/

/-- A mutex is free exactly if its value is `1`, and then no thread waits for it. While threads
wait, it has an owner, which is not one of them. A release that frees it gives it to the first
thread that waits. A take returns `RT_EOK` only to the owner, and a release by another thread fails
and changes nothing. -/
theorem mutex_ownership {s : MutexSys n q} (hs : Reachable (mutexSystem n q) always s) (m : Fin q) :
    ((s.mutex m).value = 1 ↔ (s.mutex m).owner = none) ∧
      ((s.mutex m).owner = none → s.k.sched.waiters m = []) ∧
      (s.k.sched.waiters m ≠ [] → ∃ u, (s.mutex m).owner = some u ∧ u ∉ s.k.sched.waiters m) ∧
      (∀ t u l, s.k.current = some t → (s.mutex m).owner = some t → (s.mutex m).hold % 2^8 = 1 →
        s.k.sched.waiters m = u :: l → ∃ k mutex, rtMutexRelease s.k (s.mutex m) m = .ok (k, mutex, RT_EOK) ∧
          mutex.owner = some u ∧ k.sched.waiters m = l) ∧
      (∀ t time k mutex, s.k.current = some t → rtMutexTake s.k (s.mutex m) m time = .ok (k, mutex, some RT_EOK) →
        mutex.owner = some t) ∧
      (∀ t, s.doing t = .call m → t ∉ s.k.sched.waiters m → rtMutexTakeEnd s.k t = RT_EOK →
        (s.mutex m).owner = some t) ∧ ∀ t, s.k.current = some t → (s.mutex m).owner ≠ some t →
        ∃ k, rtMutexRelease s.k (s.mutex m) m = .ok (k, s.mutex m, -RT_ERROR) ∧
          k.sched.waiters = s.k.sched.waiters := by
  have h := MutexInv.reachable hs
  refine ⟨⟨fun hvalue => ?_, fun howner => ((h.agrees m).free howner).1⟩, fun howner => ((h.agrees m).free howner).2,
    fun hwait => ?_, fun t u l hcur howner hhold hl => ?_, fun t time k mutex hcur htake => ?_,
    fun t hcall hnot heok => ?_, fun t hcur howner => ?_⟩
  · cases howner : (s.mutex m).owner with
    | none => rfl
    | some u =>
      rw [((h.agrees m).owned u howner).1] at hvalue
      cases hvalue
  · cases howner : (s.mutex m).owner with
    | none => exact absurd ((h.agrees m).free howner).2 hwait
    | some u => exact ⟨u, rfl, ((h.agrees m).owned u howner).2⟩
  · have hdrop : (s.mutex m).drop.hold = 0 := by
      unfold Mutex.drop
      dsimp only
      omega
    obtain ⟨k, hrelease, -, hb, -⟩ := h.release_cons hcur howner hdrop hl
    refine ⟨k, _, hrelease, rfl, ?_⟩
    rw [hb.waiters, update_self]
  · exact rtMutexTake_owner (s := s.toCallers) hcur htake
  · exact h.granted t m hcall (h.good.woken hcall rfl hnot) (rtMutexTakeEnd_eq s.k t ▸ heok)
  · exact ⟨_, rtMutexRelease_other (s := s.toCallers) hcur howner, rfl⟩

/-- Two threads wait for a mutex. One times out, and the release gives the mutex to the other, which
has not run since. -/
theorem mutex_ownership_run : ∃ s : MutexSys 3 1, Reachable (mutexSystem 3 1) always s ∧
    ((s.mutex 0).owner = some 2 ∧ s.doing 2 = .call 0 ∧ rtMutexTakeEnd s.k 2 = RT_EOK ∧
      rtMutexTakeEnd s.k 1 = -RT_ETIMEOUT) ∧ ((s.mutex 0).value = 1 ↔ (s.mutex 0).owner = none) ∧
    ((s.mutex 0).owner = none → s.k.sched.waiters 0 = []) := by
  refine exists_reachable_and ?_ fun s hs _ => ⟨(mutex_ownership hs 0).1, (mutex_ownership hs 0).2.1⟩
  refine exists_reachable_of_exec (MutexSys.init_fresh ![5, 4, 3] .fifo (by decide))
    [.env (.startup 0), .env .start, .take 0 0 (-1), .env (.startup 1), .take 1 0 1, .env .schedule,
      .env (.startup 2), .take 2 0 (-1), .env .schedule, .env (.clock 0), .env (.expire 1), .release 0 0] ?_
  decide +kernel

/-! ## Nesting -/

/-- No release of a take that is not the outermost one finds `hold` at `1`, which it has reached by
wrapping. -/
def MutexAct.unwrapped (s : MutexSys n q) : MutexAct n q → Prop
  | .release t m => s.depth t m ≤ 1 ∨ s.depth t m % 2^8 ≠ 1
  | _ => True

instance (s : MutexSys n q) (a : MutexAct n q) : Decidable (a.unwrapped s) := by
  apply @MutexAct.casesOn n q _ a <;> intros <;> unfold MutexAct.unwrapped <;> infer_instance

/-- The takes of one mutex that its owner has yet to release, and their count in `hold`. -/
def Nested (depth : Fin n → ℕ) : Prop :=
  match mutex.owner with
  | none => mutex.hold = 0 ∧ ∀ t, depth t = 0
  | some u => mutex.hold = depth u % 2^8 ∧ 0 < depth u ∧ ∀ t, t ≠ u → depth t = 0

section Nested

variable {s s' : MutexSys n q} {a : MutexAct n q} {mutex : Mutex n} {t u : Fin n} {m : Fin q}

theorem nested_none (howner : mutex.owner = none) {depth : Fin n → ℕ} :
    Nested mutex depth ↔ mutex.hold = 0 ∧ ∀ t, depth t = 0 := by
  unfold Nested
  rw [howner]

theorem nested_some (howner : mutex.owner = some u) {depth : Fin n → ℕ} : Nested mutex depth ↔
    mutex.hold = depth u % 2^8 ∧ 0 < depth u ∧ ∀ t, t ≠ u → depth t = 0 := by
  unfold Nested
  rw [howner]

theorem setDepth_mutex (depth : Fin n → Fin q → ℕ) (t u : Fin n) {m' : Fin q} (hm : m' ≠ m) (d : ℕ) :
    setDepth depth t m d u m' = depth u m' := by
  unfold setDepth
  by_cases hu : u = t
  · rw [hu, update_self, update_of_ne hm]
  · rw [update_of_ne hu]

theorem nested_update {depth' : Fin n → Fin q → ℕ}
    (h : ∀ m, Nested (s.mutex m) fun t => s.depth t m) (hm : Nested mutex' fun t => depth' t m)
    (hdepth : ∀ t m', m' ≠ m → depth' t m' = s.depth t m') (m' : Fin q) :
    Nested (update s.mutex m mutex' m') fun t => depth' t m' := by
  by_cases hmm : m' = m
  · subst hmm
    rwa [update_self]
  · rw [update_of_ne hmm]
    have hsame : (fun t => depth' t m') = fun t => s.depth t m' := funext fun t => hdepth t m' hmm
    rw [hsame]
    exact h m'

theorem setDepth_eq (t : Fin n) (m : Fin q) (d : ℕ) :
    (fun u => setDepth depth t m d u m) = update (fun u => depth u m) t d := by
  funext u
  unfold setDepth
  by_cases hu : u = t
  · rw [hu, update_self, update_self, update_self]
  · rw [update_of_ne hu, update_of_ne hu]

variable {d : Fin n → ℕ}

theorem Nested.again (h : Nested mutex d) (howner : mutex.owner = some t) :
    Nested { mutex with hold := (mutex.hold + 1) % 2^8 } (update d t (d t + 1)) := by
  obtain ⟨hhold, hpos, hrest⟩ := (nested_some howner).mp h
  have howner' : Mutex.owner { mutex with hold := (mutex.hold + 1) % 2^8 } = some t := howner
  rw [nested_some howner']
  refine ⟨?_, ?_, fun u hu => ?_⟩
  · rw [update_self]
    dsimp only
    omega
  · rw [update_self]
    omega
  · rw [update_of_ne hu]
    exact hrest u hu

theorem Nested.take (h : Nested mutex d) (howner : mutex.owner = none) (t : Fin n) (p : ℕ) :
    Nested (Mutex.given { mutex with value := 0 } t p) (update d t (d t + 1)) := by
  obtain ⟨hhold, hrest⟩ := (nested_none howner).mp h
  refine (nested_some (u := t) rfl).mpr ⟨?_, ?_, fun u hu => ?_⟩
  · rw [update_self, hrest t]
    unfold Mutex.given
    rw [hhold]
  · rw [update_self]
    omega
  · rw [update_of_ne hu]
    exact hrest u

theorem Nested.keep (h : Nested mutex d) (howner : mutex.owner = some t)
    (hhold : mutex.drop.hold ≠ 0) : Nested mutex.drop (update d t (d t - 1)) := by
  obtain ⟨heq, hpos, hrest⟩ := (nested_some howner).mp h
  have howner' : mutex.drop.owner = some t := howner
  rw [nested_some howner']
  unfold Mutex.drop at hhold ⊢
  dsimp only at hhold ⊢
  refine ⟨?_, ?_, fun u hu => ?_⟩
  · rw [update_self]
    omega
  · rw [update_self]
    omega
  · rw [update_of_ne hu]
    exact hrest u hu

theorem Nested.outermost (h : Nested mutex d) (howner : mutex.owner = some t)
    (hhold : mutex.drop.hold = 0) (hok : d t ≤ 1 ∨ d t % 2^8 ≠ 1) (u : Fin n) :
    update d t (d t - 1) u = 0 := by
  obtain ⟨heq, hpos, hrest⟩ := (nested_some howner).mp h
  unfold Mutex.drop at hhold
  dsimp only at hhold
  by_cases hu : u = t
  · rw [hu, update_self]
    omega
  · rw [update_of_ne hu]
    exact hrest u hu

/-- A release that does not find the account at a multiple keeps it. -/
theorem Nested.exec (hinv : MutexInv s) (h : ∀ m, Nested (s.mutex m) fun t => s.depth t m)
    (hok : a.unwrapped s) (hs : s.exec a = some s') (m : Fin q) : Nested (s'.mutex m) fun t => s'.depth t m := by
  cases hinv.step hs with
  | env | fail | wait | ret | other => exact h m
  | @again t m₀ time hfree howner =>
    have hm := (h m₀).again howner
    rw [← setDepth_eq] at hm
    exact nested_update h hm (fun u m' hm' => setDepth_mutex _ _ _ hm' _) m
  | @take t m₀ time hfree hready howner =>
    have hm := (h m₀).take howner t (s.k.sched.currentPriority t)
    rw [← setDepth_eq] at hm
    exact nested_update h hm (fun u m' hm' => setDepth_mutex _ _ _ hm' _) m
  | @keep t m₀ howner hkeep =>
    have hm := (h m₀).keep howner hkeep
    rw [← setDepth_eq] at hm
    exact nested_update h hm (fun u m' hm' => setDepth_mutex _ _ _ hm' _) m
  | @freed t m₀ k hready hfree howner hlast =>
    have hm := (h m₀).outermost howner hlast hok
    rw [← setDepth_eq] at hm
    have hnone : Nested { (s.mutex m₀).drop with value := 1, owner := none, originalPriority := 0xff }
        (fun u => setDepth s.depth t m₀ (s.depth t m₀ - 1) u m₀) := ⟨hlast, hm⟩
    exact nested_update h hnone (fun u m' hm' => setDepth_mutex _ _ _ hm' _) m
  | @handed t x m₀ l k hready hfree howner hlast hl =>
    have hm := (h m₀).outermost howner hlast hok
    rw [← setDepth_eq] at hm
    have hx : Nested ((s.mutex m₀).drop.given x (s.k.sched.currentPriority x))
        (update (fun u => setDepth s.depth t m₀ (s.depth t m₀ - 1) u m₀) x 1) := by
      refine (nested_some (u := x) rfl).mpr ⟨?_, ?_, fun u hu => ?_⟩
      · unfold Mutex.given
        rw [hlast, update_self]
      · rw [update_self]
        omega
      · rw [update_of_ne hu]
        exact hm u
    rw [← setDepth_eq] at hx
    refine nested_update h hx (fun u m' hm' => ?_) m
    rw [setDepth_mutex _ _ _ hm', setDepth_mutex _ _ _ hm']

/-- In a run in which `hold` does not wrap, a thread owns a mutex exactly if there is a take of it
that it has not released. So it stops being the owner at the release of the outermost take. -/
theorem owned_until_outermost_release {s : MutexSys n q}
    (hs : Reachable (mutexSystem n q) (fun s a => a.unwrapped s) s) (t : Fin n) (m : Fin q) :
    (s.mutex m).owner = some t ↔ 0 < s.depth t m := by
  have hnested : MutexInv s ∧ ∀ m, Nested (s.mutex m) fun t => s.depth t m := by
    refine hs.invariant ?_ ?_
    · rintro s hinit
      have hreach : Reachable (mutexSystem n q) always s := .init hinit
      refine ⟨MutexInv.reachable hreach, fun m => ?_⟩
      obtain ⟨-, hmutex, hdepth⟩ := hinit
      obtain ⟨flag, hflag⟩ := hmutex m
      rw [hflag, hdepth]
      exact ⟨rfl, fun _ => rfl⟩
    · rintro s a s' ⟨hinv, h⟩ hok hstep
      exact ⟨hinv.exec hstep, Nested.exec hinv h hok hstep⟩
  have hm := hnested.2 m
  cases howner : (s.mutex m).owner with
  | none =>
    have hzero := ((nested_none howner).mp hm).2 t
    simp [hzero]
  | some u =>
    obtain ⟨-, hpos, hrest⟩ := (nested_some howner).mp hm
    rw [some.injEq]
    constructor
    · rintro rfl
      exact hpos
    · intro ht
      by_contra hne
      have := hrest t (Ne.symm hne)
      omega

end Nested

/-- A thread takes a mutex three times and releases it twice. -/
theorem owned_until_outermost_release_run : ∃ s : MutexSys 1 1,
    Reachable (mutexSystem 1 1) (fun s a => a.unwrapped s) s ∧ s.depth 0 0 = 1 ∧
      ((s.mutex 0).owner = some 0 ↔ 0 < s.depth 0 0) := by
  refine exists_reachable_and ?_ fun s hs _ => owned_until_outermost_release hs 0 0
  refine exists_reachable_of_exec (MutexSys.init_fresh ![5] .fifo (by decide))
    [.env (.startup 0), .env .start, .take 0 0 0, .take 0 0 0, .take 0 0 (-1), .release 0 0, .release 0 0] ?_
  decide

/-- A thread takes a mutex `257` times and releases it once. It then owns it no more. -/
theorem nested_release_frees : ∃ s : MutexSys 1 1, Reachable (mutexSystem 1 1) always s ∧
    s.depth 0 0 = 256 ∧ (s.mutex 0).owner = none := by
  refine exists_reachable_of_exec (MutexSys.init_fresh ![5] .fifo (by decide))
    (.env (.startup 0) :: .env .start :: replicate 257 (.take 0 0 0) ++ [.release 0 0]) ?_
  decide +kernel

end RtThread
