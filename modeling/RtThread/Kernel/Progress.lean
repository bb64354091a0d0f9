import RtThread.Kernel.Timeout

/-!
# The kernel does not fail

The functions of the kernel fail where an assertion does not hold, where `rt_schedule` finds no
ready thread, and where a walk along a list leaves it. In a run in which no closed thread blocks the
first is up to the caller and the others do not happen, as long as the idle thread is ready.
-/

namespace RtThread

open Lib Function

variable {n : ℕ} {s : Sys n} {v : View n} {k k' : Kernel n} {t : Fin n} {a : Act n}

theorem timerCheckLoop_reaches {fuel : ℕ} (hs : Reachable (kernelSystem n) (fun s a => a.timely s) s)
    (h : rtTimerCheckLoop fuel s.k.timers.tick s.k = .ok k') :
    ∃ s', Reachable (kernelSystem n) (fun s a => a.timely s) s' ∧ s'.k = k' ∧
      ∀ u, ¬(Act.expire u).allowed s' := by
  induction fuel generalizing s with
  | zero => cases h
  | succ fuel ih =>
    rw [rtTimerCheckLoop] at h
    cases hnext : s.k.timers.rows.next (.head ()) with
    | head h' =>
      rw [hnext] at h
      refine ⟨s, hs, Except.ok.inj h, fun u hu => ?_⟩
      cases hnext.symm.trans hu.1
    | item t =>
      rw [hnext] at h
      dsimp only at h
      split_ifs at h with hdue
      · obtain ⟨k₁, hk₁, hrest⟩ := of_bind_ok h
        exact ih (hs.step (a := .expire t) trivial (Sys.exec_eq ⟨hnext, hdue⟩ hk₁)) hrest
      · refine ⟨s, hs, Except.ok.inj h, fun u hu => hdue ?_⟩
        cases hnext.symm.trans hu.1
        exact hu.2

/-- In a run in which no closed thread blocks, a clock tick returns, whatever timers are due. The state
it leaves is that of a run, and its first timer is not due. -/
theorem tick_is_run (hs : Reachable (kernelSystem n) (fun s a => a.timely s) s)
    (hcur : s.k.current = some t) :
    ∃ s', Reachable (kernelSystem n) (fun s a => a.timely s) s' ∧ rtTickIncrease s.k = .ok s'.k ∧
      ∀ u, ¬(Act.expire u).allowed s' := by
  obtain ⟨v, hv, htimed⟩ := reachable_timed hs
  obtain ⟨k', hk'⟩ := hv.sim.tickIncrease_ok htimed hcur
  rw [hk']
  unfold rtTickIncrease at hk'
  rw [hcur] at hk'
  obtain ⟨k₁, hk₁, hloop⟩ := of_bind_ok hk'
  obtain ⟨s', hs', rfl, hdue⟩ := timerCheckLoop_reaches
    (hs.step (a := .clock t) trivial (Sys.exec_eq hcur hk₁)) hloop
  exact ⟨s', hs', rfl, hdue⟩

/-- The next tick is the one at which the first of two sleeping threads wakes. -/
theorem tick_is_run_wakes : ∃ s : Sys 3, Reachable (kernelSystem 3) (fun s a => a.timely s) s ∧
    (s.k.current = some 2 ∧ TimerLinked s.k 0 ∧ TimerLinked s.k 1) ∧
      ∃ s', Reachable (kernelSystem 3) (fun s a => a.timely s) s' ∧ rtTickIncrease s.k = .ok s'.k := by
  refine exists_reachable_and ?_ fun s hs h => ?_
  · refine exists_reachable_of_exec
      ⟨32, ![3, 4, 31], fun _ => 10, fun _ => false, fun _ => false, 0, by norm_num, by decide, rfl⟩
      [.startup 0, .startup 1, .startup 2, .start, .sleep 0 1, .schedule, .sleep 1 5, .schedule] ?_
    decide
  · obtain ⟨s', hs', hk', -⟩ := tick_is_run hs h.1
    exact ⟨s', hs', hk'⟩

namespace Sim

section

variable (h : Sim k v)
include h

theorem startup_ok (ht : v.stat t = .init) : ∃ k', rtThreadStartup k t = .ok k' := by
  have hst : k.sched.stat t = .init := by rw [h.stat, ht]
  unfold rtThreadStartup
  rw [if_pos hst]
  dsimp only
  split_ifs
  · exact (h.startupResume ht).schedule_ok (t := t) (update_self ..)
  · exact ⟨_, rfl⟩

theorem exitThread_ok {u : Fin n} (hu : v.stat u = .ready) (hne : u ≠ t) :
    ∃ k', k.exitThread t = .ok k' := by
  have hready : (v.close t).stat u = .ready := (update_of_ne hne ..).trans hu
  unfold Kernel.exitThread
  dsimp only
  split_ifs
  · exact (h.removeClose t).schedule_ok hready
  · exact ((h.removeClose t).bury (h.off_close t) (update_self ..)).schedule_ok hready

theorem schedulerStart_ok (ht : v.stat t = .ready) : ∃ k', rtSystemSchedulerStart k = .ok k' := by
  have hunlocked : Sim { k with lockNest := 0 } v := h.congr rfl rfl rfl h.current
  obtain ⟨k', hk'⟩ := hunlocked.schedule_ok ht
  obtain ⟨p, hp, hk'⟩ := of_bind_ok hk'
  unfold rtSystemSchedulerStart
  rw [show k.sched.highestReadyPriority = .ok p from hp]
  change ∃ k', (if p < k.sched.prioMax then _ else _) = _
  split_ifs at hk' ⊢
  cases hnext : k.sched.tlist.next (.head (.ready p)) with
  | head h' =>
    rw [hnext] at hk'
    cases hk'
  | item u => exact ⟨_, rfl⟩

end

end Sim

/-- The call meets the assertions on its arguments. -/
def Act.Asserted (s : Sys n) : Act n → Prop
  | .startup t => s.k.sched.stat t = .init
  | .sleep _ time | .wait _ _ _ (some time) => time < halfTickMax
  | _ => True

/-- In a run in which no closed thread blocks, every call returns that meets the assertions on its
arguments, as long as some thread is ready that does not exit. -/
theorem kernel_calls_return {idle : Fin n} (hs : Reachable (kernelSystem n) (fun s a => a.timely s) s)
    (hidle : s.k.sched.stat idle = .ready) (hallowed : a.allowed s) (htimely : a.timely s)
    (hasserted : a.Asserted s) (hexit : a ≠ .exit idle) : ∃ s', s.exec a = some s' := by
  obtain ⟨v, hv, htimed⟩ := reachable_timed hs
  have h := hv.sim
  rw [h.stat] at hidle
  suffices hrun : ∃ k', a.run s = .ok k' by
    obtain ⟨k', hk'⟩ := hrun
    exact ⟨_, Sys.exec_eq hallowed hk'⟩
  cases a with
  | start => exact h.schedulerStart_ok hidle
  | startup t => exact h.startup_ok (h.stat ▸ hasserted)
  | timeout t => exact absurd htimely id
  | yield t =>
    obtain ⟨k', hk'⟩ := h.yieldThread_ok t
    exact ⟨k', (rtThreadYield_eq hallowed.1).trans hk'⟩
  | exit t =>
    have hne : idle ≠ t := fun hidle => hexit (hidle ▸ rfl)
    obtain ⟨k', hk'⟩ := h.exitThread_ok hidle hne
    exact ⟨k', (rtThreadExit_eq hallowed.1).trans hk'⟩
  | schedule => exact h.schedule_ok hidle
  | exitCritical =>
    change ∃ k', rtExitCritical s.k = .ok k'
    unfold rtExitCritical
    split_ifs
    · have hunlocked : Sim { s.k with lockNest := 0 } v := h.congr rfl rfl rfl h.current
      exact hunlocked.schedule_ok hidle
    · exact ⟨_, rfl⟩
  | sleep t tick =>
    obtain ⟨k', hk'⟩ := (h.suspend t).startTimer_ok (t := t) hasserted
    exact ⟨k', (rtThreadSleep_eq hallowed.1 tick).trans hk'⟩
  | wait t i flag time =>
    have hclose : v.stat t ≠ .close := by
      rw [← h.stat]
      exact htimely
    obtain ⟨k₁, hk₁, hsim⟩ := h.wait i flag (hv.mayWait t hallowed.1 hallowed.2.1 hclose)
    change ∃ k', s.k.waitThread t i flag time = .ok k'
    unfold Kernel.waitThread
    rw [hk₁]
    cases time with
    | none => exact ⟨k₁, rfl⟩
    | some time => exact hsim.startTimer_ok hasserted
  | clock t => exact h.advance.tickThread_ok (t := t) hallowed
  -- The timer that is due is that of a suspended thread.
  | expire t => exact h.expire_ok (htimed t (h.timers.of_next hallowed.1))
  | suspend | resume | control | delete | detach | enterCritical | ret => exact ⟨_, rfl⟩

/-- A thread sleeps beside the idle thread. -/
theorem kernel_calls_return_sleep : ∃ s : Sys 2, Reachable (kernelSystem 2) (fun s a => a.timely s) s ∧
    (s.k.sched.stat 1 = .ready ∧ (Act.sleep 0 5).allowed s ∧ (Act.sleep 0 5).timely s) ∧
      ∃ s', s.exec (.sleep 0 5) = some s' := by
  refine exists_reachable_and ?_ fun s hs h =>
    kernel_calls_return hs h.1 h.2.1 h.2.2 (by decide : 5 < halfTickMax) (by decide)
  refine exists_reachable_of_exec
    ⟨32, ![3, 31], fun _ => 10, fun _ => false, fun _ => false, 0, by norm_num, by decide, rfl⟩
    [.startup 0, .startup 1, .start] ?_
  decide

end RtThread
