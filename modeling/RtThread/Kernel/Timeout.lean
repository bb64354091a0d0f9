import RtThread.Kernel.Safety

/-!
# The timers of the threads

A thread's timer is on the timer list only while the thread is suspended, in every state of a run in
which no closed thread blocks. A thread that deletes or detaches itself is closed and runs on until
it calls `rt_schedule`. If it sleeps or waits before that, `rt_thread_suspend` refuses, which its
callers ignore, and the timer is started all the same. When it is due, the assertion of
`rt_thread_timeout` fails.
-/

namespace RtThread

open Lib Function

variable {n : ℕ} {s s' : Sys n} {v : View n} {k k' : Kernel n} {t : Fin n} {a : Act n}

/-- The timer of the thread is on the timer list. -/
def TimerLinked (k : Kernel n) (t : Fin n) : Prop := k.timers.rows.next (.item t) ≠ .item t

instance (k : Kernel n) (t : Fin n) : Decidable (TimerLinked k t) := by
  unfold TimerLinked; infer_instance

/-- A thread that blocks is not closed, and `rt_thread_timeout` is called for timers only. -/
def Act.timely (s : Sys n) : Act n → Prop
  | .sleep t _ | .wait t _ _ _ => s.k.sched.stat t ≠ .close
  | .timeout _ => False
  | _ => True

instance (s : Sys n) (a : Act n) : Decidable (a.timely s) := by
  apply @Act.casesOn n _ a <;> intros <;> unfold Act.timely <;> infer_instance

theorem Act.timely.proper (h : a.timely s) : a.proper s := by
  cases a with
  | wait t i flag time => exact h
  | _ => trivial

/-- The timers that run are those of suspended threads. -/
def View.Timed (v : View n) : Prop := ∀ t, v.armed t = true → v.stat t = .suspend

theorem Sim.timerLinked_iff (h : Sim k v) : TimerLinked k t ↔ v.armed t = true := by
  obtain ⟨T, ha, hf⟩ := h.timers
  unfold TimerLinked
  rw [ne_eq, ha.rings.next_item_eq_iff, hf t]
  simp

namespace View

theorem Timed.stopped (hv : v.Timed) {w : View n} {x : Stat} (hstat : w.stat = update v.stat t x)
    (harmed : w.armed = update v.armed t false) : w.Timed := by
  intro u hu
  rw [harmed, update_apply] at hu
  rw [hstat, update_apply]
  split_ifs at hu ⊢
  exact hv u hu

theorem Timed.suspend (hv : v.Timed) (t : Fin n) : (v.suspend t).Timed := by
  unfold View.suspend
  split_ifs
  · exact hv.stopped rfl rfl
  · exact hv

theorem Timed.arm (hv : v.Timed) (ht : v.stat t = .suspend) : (v.arm t).Timed := by
  intro u hu
  change update v.armed t true u = true at hu
  rw [update_apply] at hu
  split_ifs at hu with hut
  · exact hut ▸ ht
  · exact hv u hu

theorem Timed.yield (hv : v.Timed) (t : Fin n) : (v.yield t).Timed := by
  unfold View.yield
  split_ifs <;> exact hv

theorem stat_suspend (hinit : v.stat t ≠ .init) (hclose : v.stat t ≠ .close) :
    (v.suspend t).stat t = .suspend := by
  unfold View.suspend
  split_ifs with hready
  · exact update_self ..
  · cases hst : v.stat t with
    | suspend => rfl
    | init => exact absurd hst hinit
    | ready => exact absurd hst hready
    | close => exact absurd hst hclose

end View

theorem Act.timed (h : Sim s.k v) (hv : v.Timed) (hallowed : a.allowed s) (htimely : a.timely s) :
    (a.view s v).Timed := by
  have hblock : ∀ {t}, s.k.current = some t → s.k.sched.stat t ≠ .close →
      (v.suspend t).stat t = .suspend := by
    intro t hcur hclose
    rw [h.stat] at hclose
    exact View.stat_suspend (h.current t hcur) hclose
  cases a with
  | start | schedule | enterCritical | exitCritical => exact hv
  | startup t =>
    refine hv.stopped (x := .ready) (t := t) ?_ rfl
    change update (update v.stat t _) t _ = _
    rw [update_idem]
  | suspend t => exact hv.suspend t
  | timeout t => exact absurd htimely id
  | expire t | delete t => exact hv.stopped rfl rfl
  | yield t | clock t | resume t | control t p | detach t | exit t | ret t =>
    simp only [Act.view, View.yield, View.resume, View.changePriority]
    split_ifs
    all_goals first | exact hv | exact hv.stopped rfl rfl
  | sleep t tick => exact (hv.suspend t).arm (hblock hallowed.1 htimely)
  | wait t i flag time =>
    have hwait : (v.wait i t flag).Timed := hv.suspend t
    unfold Act.view
    dsimp only
    split_ifs
    · exact hwait.arm (hblock hallowed.1 htimely)
    · exact hwait

theorem reachable_timed (hs : Reachable (kernelSystem n) (fun s a => a.timely s) s) :
    ∃ v, RunInv s v ∧ v.Timed := by
  refine hs.invariant ?_ ?_
  · rintro s ⟨prioMax, prio, ticks, systemObject, cleanup, tick, hmax, hprio, rfl⟩
    exact ⟨_, RunInv.boot hmax hprio, fun t ht => by simp at ht⟩
  · rintro s a s' ⟨v, hv, ht⟩ htimely hstep
    obtain ⟨hallowed, -⟩ := Sys.exec_cases hstep
    exact ⟨_, hv.exec htimely.proper hstep, Act.timed hv.sim ht hallowed htimely⟩

/-! ## A whole tick -/

namespace Sim

section

variable (h : Sim k v)
include h

theorem schedule_ok (ht : v.stat t = .ready) : ∃ k', rtSchedule k = .ok k' := by
  by_cases hlock : k.lockNest = 0
  · have hne : v.lists (.ready (v.prio t)) ≠ [] :=
      List.ne_nil_of_mem (((h.ok.at' t).ready _).mpr ⟨ht, rfl⟩)
    obtain ⟨-, -, -, k', -, -, hk', -⟩ := rtSchedule_spec h.queues hlock ⟨_, hne⟩
    exact ⟨k', hk'⟩
  · exact ⟨k, if_neg hlock⟩

/-- The thread whose timer expires is ready when `rt_thread_timeout` calls `rt_schedule`. -/
theorem expire_ok (ht : v.stat t = .suspend) : ∃ k', rtTimerExpire k t = .ok k' := by
  have hst : k.sched.stat t = .suspend := by rw [h.stat, ht]
  have hremoved : Sim { k with timers := rtTimerRemove k.timers t } (v.disarm t) :=
    ⟨h.queues, h.stat, h.prio, h.error, h.timers.remove t, h.masks, (h.disarm t).ok, h.current⟩
  obtain ⟨k', hk'⟩ := ((hremoved.makeReady ht).setError t (-RT_ETIMEOUT)).schedule_ok (t := t)
    (update_self ..)
  refine ⟨{ k' with timers := k'.timers.deactivate t }, ?_⟩
  unfold rtTimerExpire rtThreadTimeout
  rw [if_pos hst]
  exact congrArg (· >>= fun k => .ok { k with timers := k.timers.deactivate t }) hk'

/-- The loop of `rt_timer_check` ends: each timer that expires leaves the list. -/
theorem timerCheckLoop_ok (hv : v.Timed) {fuel : ℕ}
    (hfuel : (Finset.univ.filter (v.armed · = true)).card < fuel) (now : ℕ) :
    ∃ k', rtTimerCheckLoop fuel now k = .ok k' := by
  induction fuel generalizing k v now with
  | zero => omega
  | succ fuel ih =>
    rw [rtTimerCheckLoop]
    cases hnext : k.timers.rows.next (.head ()) with
    | head h' => exact ⟨k, rfl⟩
    | item t =>
      have harmed := h.timers.of_next hnext
      dsimp only
      split_ifs
      · obtain ⟨k₁, hk₁⟩ := h.expire_ok (hv t harmed)
        have herase : Finset.univ.filter ((v.expire t).armed · = true) =
            (Finset.univ.filter (v.armed · = true)).erase t := by
          ext u
          change u ∈ Finset.univ.filter (update v.armed t false · = true) ↔ _
          by_cases hu : u = t <;> simp [hu]
        have hmem : t ∈ Finset.univ.filter (v.armed · = true) := by simpa using harmed
        rw [hk₁]
        refine ih (h.expire (hv t harmed) hk₁) (hv.stopped rfl rfl) ?_ _
        rw [herase]
        exact (Finset.card_erase_lt_of_mem hmem).trans_le (Nat.le_of_lt_succ hfuel)
      · exact ⟨k, rfl⟩

theorem yieldThread_ok (t : Fin n) : ∃ k', k.yieldThread t = .ok k' := by
  unfold Kernel.yieldThread
  rw [h.stat, h.prio]
  split_ifs with hcond
  · exact (h.requeue hcond.1).schedule_ok hcond.1
  · exact ⟨k, rfl⟩

theorem tickThread_ok (hcur : k.current = some t) : ∃ k', k.tickThread t = .ok k' := by
  have hreset : Sim { k with remainingTick := update k.remainingTick t (k.initTick t) } v :=
    h.congr rfl rfl rfl h.current
  unfold Kernel.tickThread
  dsimp only
  split_ifs
  · have hyield := rtThreadYield_eq (t := t)
      (k := { k with remainingTick := update k.remainingTick t (k.initTick t) }) hcur
    exact hyield ▸ hreset.yieldThread_ok t
  · exact ⟨_, rfl⟩

theorem tickIncrease_ok (hv : v.Timed) (hcur : k.current = some t) : ∃ k', rtTickIncrease k = .ok k' := by
  obtain ⟨k₁, hk₁⟩ := h.advance.tickThread_ok (t := t) hcur
  have hsim := h.advance.tickThread hcur hk₁
  have hv₁ : (if sub32 (k.advance.remainingTick t) 1 = 0 then v.yield t else v).Timed := by
    split_ifs
    · exact hv.yield t
    · exact hv
  unfold rtTickIncrease
  rw [hcur]
  dsimp only
  rw [hk₁]
  refine hsim.timerCheckLoop_ok hv₁ (Nat.lt_succ_of_le ?_) _
  exact (Finset.card_le_univ _).trans_eq (Fintype.card_fin n)

theorem tickIncrease_ne_timeout (hv : v.Timed) : rtTickIncrease k ≠ .error .timeout := by
  cases hcur : k.current with
  | none => simp [rtTickIncrease, hcur]
  | some t =>
    obtain ⟨k', hk'⟩ := h.tickIncrease_ok hv hcur
    simp [hk']

end

end Sim

/-- Only a sleep or a wait starts a timer. -/
theorem Act.armed (hu : (a.view s v).armed t = true) :
    v.armed t = true ∨ (∃ tick, a = .sleep t tick) ∨ ∃ i flag time, a = .wait t i flag time := by
  have hoff : ∀ {u}, update v.armed u false t = true → v.armed t = true := by
    intro u hu
    rw [update_apply] at hu
    split_ifs at hu
    exact hu
  have hsusp : ∀ {u}, (v.suspend u).armed t = true → v.armed t = true := by
    intro u hu
    unfold View.suspend at hu
    split_ifs at hu
    · exact hoff hu
    · exact hu
  have hyield : ∀ {u}, (v.yield u).armed t = true → v.armed t = true := by
    intro u hu
    unfold View.yield at hu
    split_ifs at hu <;> exact hu
  have harm : ∀ {w : View n} {u}, (w.arm u).armed t = true → t = u ∨ w.armed t = true := by
    intro w u hu
    change update w.armed u true t = true at hu
    rw [update_apply] at hu
    split_ifs at hu with htu
    · exact Or.inl htu
    · exact Or.inr hu
  cases a with
  | start | schedule | enterCritical | exitCritical | timeout u => exact Or.inl hu
  | startup u | expire u | delete u => exact Or.inl (hoff hu)
  | suspend u => exact Or.inl (hsusp hu)
  | yield u => exact Or.inl (hyield hu)
  | clock u =>
    rcases Act.view_clock s v u with ⟨-, hview⟩ | ⟨-, hview⟩
    · rw [hview] at hu
      exact Or.inl (hyield hu)
    · rw [hview] at hu
      exact Or.inl hu
  | resume u | control u p | detach u | exit u | ret u =>
    simp only [Act.view, View.resume, View.changePriority] at hu
    split_ifs at hu
    all_goals first | exact Or.inl hu | exact Or.inl (hoff hu)
  -- Only these two arm a timer.
  | sleep u tick =>
    rcases harm hu with rfl | hu
    · exact Or.inr (Or.inl ⟨tick, rfl⟩)
    · exact Or.inl (hsusp hu)
  | wait u i flag time =>
    unfold Act.view at hu
    dsimp only at hu
    split_ifs at hu
    · rcases harm hu with rfl | hu
      · exact Or.inr (Or.inr ⟨i, flag, time, rfl⟩)
      · exact Or.inl (hsusp hu)
    · exact Or.inl (hsusp hu)

/-- In a run in which no closed thread blocks, a thread's timer is on the timer list only while the
thread is suspended. So no clock tick fails the assertion of `rt_thread_timeout`. A thread that its
resource wakes has no timer on the list, and gets one only by blocking again. -/
theorem timer_only_while_suspended (hs : Reachable (kernelSystem n) (fun s a => a.timely s) s) :
    (∀ t, TimerLinked s.k t → s.k.sched.stat t = .suspend) ∧ rtTickIncrease s.k ≠ .error .timeout ∧
      ∀ a s', a.timely s → s.exec a = some s' → ∀ t,
        (a = .resume t → ¬TimerLinked s'.k t) ∧ (TimerLinked s'.k t → TimerLinked s.k t ∨
          (∃ tick, a = .sleep t tick) ∨ ∃ i flag time, a = .wait t i flag time) := by
  obtain ⟨v, hv, ht⟩ := reachable_timed hs
  refine ⟨fun t hlinked => ?_, hv.sim.tickIncrease_ne_timeout ht, fun a s' htimely hstep t => ?_⟩
  · rw [hv.sim.stat]
    exact ht t (hv.sim.timerLinked_iff.mp hlinked)
  · have hv' := hv.exec htimely.proper hstep
    rw [hv'.sim.timerLinked_iff, hv.sim.timerLinked_iff]
    refine ⟨?_, Act.armed⟩
    rintro rfl harmed
    unfold Act.view View.resume at harmed
    dsimp only at harmed
    split_ifs at harmed with hst
    · change update v.armed t false t = true at harmed
      simp at harmed
    · exact hst (ht t harmed)

/-- A thread sleeps and another waits with a timeout. -/
theorem timer_only_while_suspended_run : ∃ s : Sys 3,
    Reachable (kernelSystem 3) (fun s a => a.timely s) s ∧ (TimerLinked s.k 0 ∧ TimerLinked s.k 1) ∧
      (∀ t, TimerLinked s.k t → s.k.sched.stat t = .suspend) ∧ rtTickIncrease s.k ≠ .error .timeout := by
  refine exists_reachable_and ?_ fun s hs _ => ?_
  · refine exists_reachable_of_exec
      ⟨32, ![3, 4, 31], fun _ => 10, fun _ => false, fun _ => false, 0, by norm_num, by decide, rfl⟩
      [.startup 0, .startup 1, .startup 2, .start, .sleep 0 5, .schedule, .wait 1 0 .fifo (some 2), .schedule,
        .clock 2] ?_
    decide
  · have h := timer_only_while_suspended hs
    exact ⟨h.1, h.2.1⟩

/-- A thread deletes itself and then sleeps for one tick: its timer is on the list although it is
closed, and the next clock tick fails the assertion. -/
theorem closed_thread_sleeps : ∃ s : Sys 2,
    Reachable (kernelSystem 2) (fun _ a => ∀ t, a ≠ .timeout t) s ∧ TimerLinked s.k 0 ∧
      s.k.sched.stat 0 = .close ∧ rtTickIncrease s.k = .error .timeout := by
  refine exists_reachable_of_exec
    ⟨32, ![3, 31], fun _ => 10, fun _ => false, fun _ => false, 0, by norm_num, by decide, rfl⟩
    [.startup 0, .startup 1, .start, .delete 0, .sleep 0 1, .schedule] ?_
  decide

end RtThread
