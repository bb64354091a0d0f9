import Mathlib.Data.Fin.VecNotation
import Mathlib.Data.Fintype.Pi
import RtThread.Ipc.Calls

/-!
# Semaphores

The semaphore of `ipc.c`, for one semaphore and any number of threads. A release either counts up
the value or hands its unit to the first thread that waits, which then returns `RT_EOK`; a timeout
may take the thread off the list before. `Conserved` is the account of the units: none is lost and
none is given twice.
-/

namespace RtThread

open Lib Function Option

variable {n : ℕ}

/-! ## The functions -/

/-- `struct rt_semaphore`. Its suspend list is the list `0`. -/
structure Semaphore where
  /-- The value, a 16-bit word. -/
  value : ℕ
  flag : IpcFlag

/-- `rt_sem_init`. -/
def rtSemInit (value : ℕ) (flag : IpcFlag) : Semaphore := ⟨value % 2^16, flag⟩

variable (k : Kernel n) (sem : Semaphore)

/-- `rt_sem_take`, up to its call of `rt_schedule`. It returns an error code unless the thread
waits. -/
def rtSemTake (time : ℤ) :
    Except Fault (Kernel n × Semaphore × Option ℤ) :=
  if 0 < sem.value then .ok (k, { sem with value := sem.value - 1 }, some RT_EOK)
  else if time = 0 then .ok (k, sem, some (-RT_ETIMEOUT))
  else match k.current with
    | none => .error .assertion
    | some thread => do
      let k ← (k.setError thread RT_EOK).waitThread thread 0 sem.flag (waitTime time)
      return (k, sem, none)

/-- `rt_sem_take` after its call of `rt_schedule`. -/
def rtSemTakeEnd (thread : Fin n) : ℤ :=
  if k.error thread ≠ RT_EOK then k.error thread else RT_EOK

/-- `rt_sem_trytake`. -/
def rtSemTrytake : Except Fault (Kernel n × Semaphore × Option ℤ) :=
  rtSemTake k sem 0

/-- `rt_sem_release`, up to its call of `rt_schedule`. -/
def rtSemRelease : Except Fault (Kernel n × Semaphore) :=
  if ¬rtListIsempty k.sched.tlist (.head (.wait 0)) then do
    let k ← rtIpcListResume k 0
    return (k, sem)
  else .ok (k, { sem with value := (sem.value + 1) % 2^16 })

/-- `rt_sem_control` with `RT_IPC_CMD_RESET`, up to its call of `rt_schedule`. -/
def rtSemReset (value : ℕ) : Except Fault (Kernel n × Semaphore) := do
  let k ← rtIpcListResumeAll k 0
  return (k, { sem with value := value % 2^16 })

/-! ## Runs -/

/-- The threads and the semaphore, with the account of its units. -/
structure SemSys (n : ℕ) extends Callers Unit n where
  sem : Semaphore
  /-- The value at the start, or that of the last reset. -/
  initial : ℕ
  /-- The releases since then. -/
  releases : ℕ
  /-- The takes granted since then. -/
  granted : ℕ
  /-- Whether a release has handed a unit to the call that the thread is in. -/
  unit : Fin n → Bool
  /-- All takes granted so far. -/
  grants : ℕ
  /-- All takes that have returned `RT_EOK` so far. -/
  oks : ℕ

/-- The steps of the threads and the interrupt handlers. -/
inductive SemAct (n : ℕ)
  | env (e : Env n)
  | take (t : Fin n) (time : ℤ)
  /-- The return of a take that has waited. -/
  | ret (t : Fin n)
  /-- `rt_sem_trytake` by a thread or an interrupt handler. -/
  | trytake
  /-- `rt_sem_release` by a thread or an interrupt handler. -/
  | release
  | reset (value : ℕ)
  deriving DecidableEq

/-- A take that does not wait is granted if it returns `RT_EOK`. -/
def SemSys.returned (s : SemSys n) (e : ℤ) : SemSys n :=
  if e = RT_EOK then { s with granted := s.granted + 1, grants := s.grants + 1, oks := s.oks + 1 } else s

/-- The unit of a release goes to the thread `t`. -/
def SemSys.handed (s : SemSys n) (t : Fin n) : SemSys n :=
  { s with
    granted := s.granted + 1
    grants := s.grants + 1
    unit := update s.unit t true }

/-- One step. -/
def SemSys.exec (s : SemSys n) : SemAct n → Option (SemSys n)
  | .env e => (s.toCallers.env e).map fun c => { s with toCallers := c }
  | .take t time =>
    if s.k.current = some t ∧ s.doing t = .free then
      match rtSemTake s.k s.sem time with
      | .ok (k, sem, some e) => some ({ s with k := k, sem := sem }.returned e)
      | .ok (k, sem, none) =>
        some { s with k := k, sem := sem, doing := update s.doing t (.call ()) }
      | .error _ => none
    else none
  | .ret t =>
    if s.k.current = some t ∧ s.doing t = .call () ∧ s.k.sched.stat t = .ready then
      some { s with
        doing := update s.doing t .free
        unit := update s.unit t false
        oks := if rtSemTakeEnd s.k t = RT_EOK then s.oks + 1 else s.oks }
    else none
  | .trytake =>
    match rtSemTrytake s.k s.sem with
    | .ok (k, sem, some e) => some ({ s with k := k, sem := sem }.returned e)
    | _ => none
  | .release =>
    match rtSemRelease s.k s.sem with
    | .ok (k, sem) =>
      let s' := { s with k := k, sem := sem, releases := s.releases + 1 }
      match s.k.sched.waiters 0 with
      | t :: _ => some (s'.handed t)
      | [] => some s'
    | .error _ => none
  | .reset value =>
    match rtSemReset s.k s.sem value with
    | .ok (k, sem) =>
      some { s with k := k, sem := sem, initial := value, releases := 0, granted := 0 }
    | .error _ => none

/-- One semaphore and `n` threads, for any initial value. -/
def semSystem (n : ℕ) : System (SemSys n) (SemAct n) where
  init := fun s => s.toCallers.Boot ∧ ∃ value flag, s.sem = rtSemInit value flag ∧ s.initial = value ∧
    s.releases = 0 ∧ s.granted = 0 ∧ s.unit = (fun _ => false) ∧ s.grants = 0 ∧ s.oks = 0
  step := fun s a s' => s.exec a = some s'

/-! ## What the functions do -/

section Functions

variable {s : Callers Unit n} {t : Fin n} {sem : Semaphore}

/-- The suspend list of the semaphore. -/
abbrev semList : Unit → Option ℕ := fun _ => some 0

theorem rtSemTakeEnd_eq (t : Fin n) : rtSemTakeEnd k t = k.error t := by
  unfold rtSemTakeEnd
  split_ifs with herr
  · rfl
  · exact (not_not.mp herr).symm

theorem rtSemTake_wait (hvalue : sem.value = 0) {time : ℤ} (htime : time ≠ 0) (hcur : s.k.current = some t) :
    rtSemTake s.k sem time = ((s.k.setError t RT_EOK).waitThread t 0 sem.flag (waitTime time)).map
      fun k => (k, sem, none) := by
  unfold rtSemTake
  rw [if_neg (by omega), if_neg htime, hcur]
  dsimp only
  cases (s.k.setError t RT_EOK).waitThread t 0 sem.flag (waitTime time) <;> rfl

theorem rtSemRelease_cons (h : Good semList s) {l : List (Fin n)} (hl : s.k.sched.waiters 0 = t :: l) :
    rtSemRelease s.k sem = .ok ((rtThreadResume s.k t).1, sem) := by
  unfold rtSemRelease
  rw [if_pos (h.not_isempty hl), (h.wakeHead hl).1]
  rfl

theorem rtSemRelease_nil (h : Good semList s) (hl : s.k.sched.waiters 0 = []) :
    rtSemRelease s.k sem = .ok (s.k, { sem with value := (sem.value + 1) % 2^16 }) := by
  unfold rtSemRelease
  rw [if_neg (not_not.mpr (h.isempty.mpr hl))]

end Functions

/-! ## The account of the units -/

/-- What every step keeps. -/
structure SemInv (s : SemSys n) : Prop where
  good : Good semList s.toCallers
  /-- Threads wait only for a value of `0`. -/
  zero : s.k.sched.waiters 0 ≠ [] → s.sem.value = 0
  account : (s.initial + s.releases) % 2^16 = (s.sem.value + s.granted) % 2^16
  /-- A thread that waits has no error yet. -/
  error : ∀ t, t ∈ s.k.sched.waiters 0 → s.k.error t = RT_EOK
  /-- The calls that got a unit are those that were woken without an error. -/
  unit : ∀ t, s.unit t = true ↔ s.doing t = .call () ∧ s.k.sched.stat t = .ready ∧ s.k.error t = RT_EOK
  /-- The calls that got a unit have not returned. -/
  once : s.grants = s.oks + tally fun t => s.unit t = true

namespace SemInv

variable {s : SemSys n} {t : Fin n}

section

variable (h : SemInv s)
include h

theorem unit_of_wait (ht : t ∈ s.k.sched.waiters 0) : s.unit t = false := by
  rw [← Bool.not_eq_true, h.unit]
  rintro ⟨-, hst, -⟩
  rw [((h.good.wait t 0).mp ht).1] at hst
  cases hst

theorem unit_of_free (ht : s.doing t = .free) : s.unit t = false := by
  rw [← Bool.not_eq_true, h.unit, ht]
  simp

/-- A step of the rest of the system keeps the account. -/
theorem env {e : Env n} {c : Callers Unit n} (hs : s.toCallers.env e = some c) :
    SemInv { s with toCallers := c } := by
  obtain ⟨hgood, hq | ⟨t, rfl, hx⟩⟩ := h.good.env hs
  · refine ⟨hgood, ?_, h.account, fun u hu => ?_, fun u => ?_, h.once⟩
    · rw [hq.waiters]
      exact h.zero
    · rw [hq.waiters] at hu
      obtain ⟨-, d, hd, -⟩ := (h.good.wait u 0).mp hu
      rw [hq.error u d hd]
      exact h.error u hu
    · rw [h.unit]
      constructor
      · rintro ⟨hd, hst, herr⟩
        exact ⟨(hq.calls u ()).mpr hd, (hq.stat u () hd).trans hst, (hq.error u () hd).trans herr⟩
      · rintro ⟨hd, hst, herr⟩
        have hd' := (hq.calls u ()).mp hd
        exact ⟨hd', (hq.stat u () hd').symm.trans hst, (hq.error u () hd').symm.trans herr⟩
  · have hb := hx.becomes
    refine ⟨hgood, ?_, h.account, fun u hu => ?_, fun u => ?_, h.once⟩
    · dsimp only
      rw [hb.waiters]
      intro hne
      apply h.zero
      intro hnil
      dsimp only at hne
      rw [hnil] at hne
      exact hne rfl
    · dsimp only at hu ⊢
      rw [hb.waiters, (h.good.nodup 0).mem_erase_iff] at hu
      rw [hb.error, update_of_ne hu.1]
      exact h.error u hu.2
    · rw [h.unit, hx.doing, hb.stat, hb.error]
      by_cases hut : u = t
      · subst hut
        rw [hx.was, update_self, update_self]
        simp [RT_EOK, RT_ETIMEOUT]
      · rw [update_of_ne hut, update_of_ne hut]

theorem takeNow (hpos : 0 < s.sem.value) :
    SemInv (SemSys.returned { s with sem := { s.sem with value := s.sem.value - 1 } } RT_EOK) := by
  have hnil : s.k.sched.waiters 0 = [] := by
    by_contra hne
    have := h.zero hne
    omega
  unfold SemSys.returned
  rw [if_pos rfl]
  refine ⟨h.good, fun hne => absurd hnil hne, ?_, h.error, h.unit, ?_⟩
  · have haccount := h.account
    dsimp only
    omega
  · have honce := h.once
    dsimp only
    omega

theorem takeWait (hzero : s.sem.value = 0) (hcur : s.k.current = some t)
    (hfree : s.doing t = .free) {time : Option ℕ} {k : Kernel n}
    (hw : (s.k.setError t RT_EOK).waitThread t 0 s.sem.flag time = .ok k) :
    SemInv { s with k := k, doing := update s.doing t (.call ()) } := by
  have hready := h.good.ready hcur hfree
  obtain ⟨hgood, hb⟩ := h.good.blockReset (c := ()) hready rfl hw
  refine ⟨hgood, fun _ => hzero, h.account, fun u hu => ?_, fun u => ?_, h.once⟩
  · rw [hb.waiters, update_self, IpcFlag.mem_insert] at hu
    rw [hb.error, update_apply]
    split_ifs with hut
    · rfl
    · exact h.error u (hu.resolve_left hut)
  · dsimp only
    rw [hb.stat, hb.error]
    by_cases hut : u = t
    · subst hut
      rw [h.unit_of_free hfree, update_self (f := s.k.sched.stat)]
      simp
    · rw [h.unit, update_of_ne hut, update_of_ne hut, update_of_ne hut]

/-- The return of a take uses its unit up. -/
theorem ret (hcall : s.doing t = .call ()) (hready : s.k.sched.stat t = .ready) :
    SemInv { s with
      doing := update s.doing t .free
      unit := update s.unit t false
      oks := if rtSemTakeEnd s.k t = RT_EOK then s.oks + 1 else s.oks } := by
  have hresult : rtSemTakeEnd s.k t = RT_EOK ↔ s.unit t = true := by
    rw [h.unit, rtSemTakeEnd_eq]
    simp [hcall, hready]
  refine ⟨h.good.move hready .free, h.zero, h.account, h.error, fun u => ?_, ?_⟩
  · dsimp only
    by_cases hut : u = t
    · subst hut
      simp
    · rw [update_of_ne hut, update_of_ne hut, h.unit]
  · dsimp only
    rw [h.once]
    by_cases hunit : s.unit t = true
    · rw [if_pos (hresult.mpr hunit)]
      have htally := tally_succ (p := fun u => update s.unit t false u = true)
        (q := fun u => s.unit u = true) (t := t) (by simp) hunit
        fun u hu => by rw [update_of_ne hu]
      omega
    · rw [if_neg fun heq => hunit (hresult.mp heq)]
      have htally := tally_congr (p := fun u => s.unit u = true)
        (q := fun u => update s.unit t false u = true) fun u => by
          by_cases hut : u = t
          · subst hut
            simp [hunit]
          · rw [update_of_ne hut]
      rw [htally]

theorem releaseNil (hl : s.k.sched.waiters 0 = []) :
    SemInv { s with
      sem := { s.sem with value := (s.sem.value + 1) % 2^16 }
      releases := s.releases + 1 } := by
  refine ⟨h.good, fun hne => absurd hl hne, ?_, h.error, h.unit, h.once⟩
  have haccount := h.account
  dsimp only
  omega

/-- A release hands its unit to the first thread that waits. -/
theorem releaseCons {l : List (Fin n)} (hl : s.k.sched.waiters 0 = t :: l) :
    SemInv (SemSys.handed { s with k := (rtThreadResume s.k t).1, releases := s.releases + 1 } t) := by
  have ht : t ∈ s.k.sched.waiters 0 := by rw [hl]; exact List.mem_cons_self
  obtain ⟨-, hgood, hb⟩ := h.good.wakeHead hl
  have hmem : ∀ {u}, u ∈ l → u ∈ s.k.sched.waiters 0 := by
    intro u hu
    rw [hl]
    exact List.mem_cons_of_mem _ hu
  refine ⟨hgood, fun _ => h.zero (List.ne_nil_of_mem ht), ?_, fun u hu => ?_, fun u => ?_, ?_⟩
  · have haccount := h.account
    dsimp only [SemSys.handed]
    omega
  · dsimp only [SemSys.handed] at hu ⊢
    rw [hb.waiters, update_self] at hu
    rw [hb.error]
    exact h.error u (hmem hu)
  · dsimp only [SemSys.handed]
    rw [hb.stat, hb.error]
    by_cases hut : u = t
    · subst hut
      obtain ⟨-, d, hd, -⟩ := (h.good.wait u 0).mp ht
      rw [update_self, update_self, h.error u ht, hd]
      simp
    · rw [update_of_ne hut, update_of_ne hut, h.unit]
  · have htally := tally_succ (p := fun u => s.unit u = true)
      (q := fun u => update s.unit t true u = true) (t := t) (by simp [h.unit_of_wait ht]) (by simp)
      fun u hu => by rw [update_of_ne hu]
    show s.grants + 1 = s.oks + tally fun u => update s.unit t true u = true
    rw [htally, h.once]
    omega

theorem reset {value : ℕ} {k : Kernel n} (hk : rtIpcListResumeAll s.k 0 = .ok k) :
    SemInv { s with
      k := k
      sem := { s.sem with value := value % 2^16 }
      initial := value
      releases := 0
      granted := 0 } := by
  obtain ⟨k', hk', hgood, hb⟩ := h.good.wakeAll 0
  obtain rfl : k' = k := Except.ok.inj (hk'.symm.trans hk)
  refine ⟨hgood, fun hne => ?_, ?_, fun u hu => ?_, fun u => ?_, h.once⟩
  · rw [hb.waiters, update_self] at hne
    exact absurd rfl hne
  · dsimp only
    omega
  · rw [hb.waiters, update_self] at hu
    cases hu
  · rw [hb.stat, hb.error]
    dsimp only
    split_ifs with hu
    · rw [h.unit_of_wait hu]
      simp [RT_EOK, RT_ERROR]
    · exact h.unit u

/-- Every step keeps the account of the units. -/
theorem exec {a : SemAct n} {s' : SemSys n} (hs : s.exec a = some s') : SemInv s' := by
  cases a with
  | env e =>
    obtain ⟨c, hc, rfl⟩ := map_eq_some_iff.mp hs
    exact h.env hc
  | take t time =>
    unfold SemSys.exec at hs
    dsimp only at hs
    split_ifs at hs with hcond
    by_cases hpos : 0 < s.sem.value
    · rw [rtSemTake, if_pos hpos] at hs
      exact some.inj hs ▸ h.takeNow hpos
    · by_cases htime : time = 0
      · rw [rtSemTake, if_neg hpos, if_pos htime] at hs
        exact some.inj hs ▸ h
      · rw [rtSemTake_wait (s := s.toCallers) (by omega) htime hcond.1] at hs
        cases hw : (s.k.setError t RT_EOK).waitThread t 0 s.sem.flag (waitTime time) with
        | error e =>
          rw [hw] at hs
          cases hs
        | ok k =>
          rw [hw] at hs
          exact some.inj hs ▸ h.takeWait (by omega) hcond.1 hcond.2 hw
  | ret t =>
    have hcond : s.k.current = some t ∧ s.doing t = .call () ∧ s.k.sched.stat t = .ready := by
      by_contra hcond
      rw [SemSys.exec, if_neg hcond] at hs
      cases hs
    rw [SemSys.exec, if_pos hcond] at hs
    exact some.inj hs ▸ h.ret hcond.2.1 hcond.2.2
  | trytake =>
    unfold SemSys.exec rtSemTrytake at hs
    by_cases hpos : 0 < s.sem.value
    · rw [rtSemTake, if_pos hpos] at hs
      exact some.inj hs ▸ h.takeNow hpos
    · rw [rtSemTake, if_neg hpos, if_pos rfl] at hs
      exact some.inj hs ▸ h
  | release =>
    unfold SemSys.exec at hs
    dsimp only at hs
    -- A release counts up, or hands its unit to the first thread.
    cases hl : s.k.sched.waiters 0 with
    | nil =>
      rw [rtSemRelease_nil h.good hl, hl] at hs
      exact some.inj hs ▸ h.releaseNil hl
    | cons t l =>
      rw [rtSemRelease_cons h.good hl, hl] at hs
      exact some.inj hs ▸ h.releaseCons hl
  | reset value =>
    unfold SemSys.exec rtSemReset at hs
    obtain ⟨k, hk, -⟩ := h.good.wakeAll 0
    rw [hk] at hs
    exact some.inj hs ▸ h.reset hk

end

theorem reachable (hs : Reachable (semSystem n) always s) : SemInv s := by
  refine hs.invariant ?_ ?_
  · rintro s ⟨hboot, value, flag, hsem, hinitial, hreleases, hgranted, hunit, hgrants, hoks⟩
    obtain ⟨hgood, hwaiters⟩ : Good semList s.toCallers ∧ _ := Good.boot hboot
    refine ⟨hgood, ?_, ?_, ?_, fun t => ?_, ?_⟩
    · rw [hwaiters]
      exact fun hne => absurd rfl hne
    · rw [hsem, hinitial, hreleases, hgranted]
      change (value + 0) % 2^16 = (value % 2^16 + 0) % 2^16
      omega
    · rw [hwaiters]
      simp
    · obtain ⟨_, _, _, _, _, _, -, -, hs⟩ := hboot
      rw [hunit, hs]
      simp
    · rw [hgrants, hoks, hunit]
      simp [tally]
  · exact fun s a s' h _ hstep => h.exec hstep

end SemInv

/-- Threads wait on a semaphore only for a value of `0`. The initial value and the releases are
accounted for by the value and the takes granted, modulo `2^16`. A take that waits returns `RT_EOK`
exactly if a release handed it a unit, so every take granted returns `RT_EOK` once, and a take that
times out takes nothing. -/
theorem semaphore_conserved {s : SemSys n} (hs : Reachable (semSystem n) always s) :
    (s.k.sched.waiters 0 ≠ [] → s.sem.value = 0) ∧
      s.initial + s.releases ≡ s.sem.value + s.granted [MOD 2^16] ∧
      s.grants = s.oks + tally (fun t => s.unit t = true) ∧ ∀ t, s.doing t = .call () →
        (t ∈ s.k.sched.waiters 0 → s.unit t = false) ∧
        (t ∉ s.k.sched.waiters 0 → (rtSemTakeEnd s.k t = RT_EOK ↔ s.unit t = true)) := by
  have h := SemInv.reachable hs
  refine ⟨h.zero, h.account, h.once, fun t hcall => ⟨h.unit_of_wait, fun hnot => ?_⟩⟩
  rw [h.unit, rtSemTakeEnd_eq]
  have hready := h.good.woken hcall rfl hnot
  simp [hcall, hready]

/-- Three threads wait. One times out, and a release hands a unit to the next, which has not run
since. -/
theorem semaphore_conserved_run : ∃ s : SemSys 4, Reachable (semSystem 4) always s ∧
    (s.k.sched.waiters 0 = [2] ∧ s.unit = ![false, true, false, false] ∧ s.releases = 1 ∧ s.granted = 2) ∧
    (s.k.sched.waiters 0 ≠ [] → s.sem.value = 0) ∧
    s.initial + s.releases ≡ s.sem.value + s.granted [MOD 2^16] ∧
    s.grants = s.oks + tally (fun t => s.unit t = true) := by
  refine exists_reachable_and ?_ fun s hs _ => ?_
  · refine exists_reachable_of_exec (s := ⟨.idle ![3, 4, 5, 31],
        rtSemInit 1 .fifo, 1, 0, 0, fun _ => false, 0, 0⟩)
      ⟨Callers.boot_idle (by decide), 1, .fifo, rfl, rfl, rfl, rfl, rfl,
        rfl, rfl⟩
      [.env (.startup 0), .env (.startup 1), .env (.startup 2), .env (.startup 3), .env .start, .take 0 0,
        .take 0 1, .env .schedule, .take 1 (-1), .env .schedule, .take 2 (-1), .env .schedule,
        .env (.clock 3), .env (.expire 0), .release] ?_
    decide
  · obtain ⟨hzero, haccount, honce, -⟩ := semaphore_conserved hs
    exact ⟨hzero, haccount, honce⟩

/-- The functions of a semaphore return, and none takes a list head for a thread. Only the timer of
a thread limits the time that it may wait. -/
theorem semaphore_calls_return {s : SemSys n} (hs : Reachable (semSystem n) always s) :
    (∃ r, rtSemTrytake s.k s.sem = .ok r) ∧ (∃ r, rtSemRelease s.k s.sem = .ok r) ∧
      (∀ value, ∃ r, rtSemReset s.k s.sem value = .ok r) ∧
      ∀ t (time : ℤ), s.k.current = some t → s.doing t = .free → time < halfTickMax →
        ∃ r, rtSemTake s.k s.sem time = .ok r := by
  have h := SemInv.reachable hs
  have hnow : ∀ time : ℤ, 0 < s.sem.value ∨ time = 0 → ∃ r, rtSemTake s.k s.sem time = .ok r := by
    intro time hcond
    unfold rtSemTake
    split_ifs with hpos hzero
    · exact ⟨_, rfl⟩
    · exact ⟨_, rfl⟩
    · exact absurd hcond (by simp [hpos, hzero])
  refine ⟨hnow 0 (Or.inr rfl), ?_, fun value => ?_, fun t time hcur hfree htime => ?_⟩
  · cases hl : s.k.sched.waiters 0 with
    | nil => exact ⟨_, rtSemRelease_nil h.good hl⟩
    | cons t l => exact ⟨_, rtSemRelease_cons h.good hl⟩
  · obtain ⟨k, hk, -⟩ := h.good.wakeAll 0
    unfold rtSemReset
    rw [hk]
    exact ⟨_, rfl⟩
  · by_cases hcond : 0 < s.sem.value ∨ time = 0
    · exact hnow time hcond
    · rw [not_or] at hcond
      obtain ⟨k, hk⟩ := (h.good.setError t RT_EOK).block_ok (h.good.ready hcur hfree) 0 s.sem.flag
        (waitTime_lt htime)
      rw [rtSemTake_wait (s := s.toCallers) (by omega) hcond.2 hcur, hk]
      exact ⟨_, rfl⟩

/-- The only thread takes a unit. -/
theorem semaphore_calls_return_take : ∃ s : SemSys 1, Reachable (semSystem 1) always s ∧
    (s.k.current = some 0 ∧ s.doing 0 = .free) ∧ ∃ r, rtSemTake s.k s.sem 5 = .ok r := by
  refine exists_reachable_and ?_ fun s hs h =>
    (semaphore_calls_return hs).2.2.2 0 5 h.1 h.2 (by decide)
  exact exists_reachable_of_exec (s := ⟨.idle ![3], rtSemInit 0 .fifo, 0, 0, 0, fun _ => false, 0, 0⟩)
    ⟨Callers.boot_idle (by decide), 0, .fifo, rfl, rfl, rfl, rfl, rfl, rfl, rfl⟩
    [.env (.startup 0), .env .start] (by decide)

end RtThread
