import RtThread.Kernel.Threads

/-!
# Runs of the kernel

A step of the kernel is a call of one of its functions by some thread or interrupt handler. A call
that blocks is a step up to its call of `rt_schedule`, with which the thread gives up the processor,
and a step when the thread runs again. A clock tick is a step that advances the clock and the time
slice of the current thread, and a step for every timer that is due (`Kernel/Progress.lean`). For the
statements only, the state of a run records which threads have been started and when each thread last
became ready or was put at the end of its ready list.
-/

namespace RtThread

open Lib Function List

/-- The blocking calls of the kernel. -/
inductive Call
  | sleep
  | wait
  deriving DecidableEq

/-- The steps of the kernel. -/
inductive Act (n : ℕ)
  | start
  | startup (t : Fin n)
  | suspend (t : Fin n)
  | resume (t : Fin n)
  | timeout (t : Fin n)
  | yield (t : Fin n)
  | control (t : Fin n) (p : ℕ)
  | delete (t : Fin n)
  | detach (t : Fin n)
  | exit (t : Fin n)
  | schedule
  | enterCritical
  | exitCritical
  | sleep (t : Fin n) (tick : ℕ)
  /-- Waiting for the object with the suspend list `i`, with a timeout or forever. -/
  | wait (t : Fin n) (i : ℕ) (flag : IpcFlag) (time : Option ℕ)
  /-- The return from a blocking call. -/
  | ret (t : Fin n)
  /-- A clock tick, without the timers. -/
  | clock (t : Fin n)
  /-- The expiry of a timer. -/
  | expire (t : Fin n)
  deriving DecidableEq

/-- The kernel, with what a run records. -/
structure Sys (n : ℕ) where
  k : Kernel n
  /-- The blocking call that a thread is in. -/
  call : Fin n → Option Call
  started : Fin n → Bool
  /-- The number of steps. -/
  clock : ℕ
  /-- When the thread last became ready or yielded. -/
  readied : Fin n → ℕ
  /-- When the thread last became ready, yielded, or was given a priority while ready. -/
  queued : Fin n → ℕ

variable {n : ℕ} (s : Sys n)

/-- Who may take the step, and when. A thread that calls a function is the current thread and in no
call. A blocking call is not made with the scheduler locked. -/
def Act.allowed : Act n → Prop
  | .start => s.k.current = none
  | .control _ p => p < s.k.sched.prioMax
  | .yield t | .exit t | .sleep t _ => s.k.current = some t ∧ s.call t = none
  | .wait t _ _ _ => s.k.current = some t ∧ s.call t = none ∧ s.k.lockNest = 0
  | .ret t => s.k.current = some t ∧ s.call t ≠ none ∧ s.k.sched.stat t = .ready
  | .clock t => s.k.current = some t
  | .expire t => s.k.timers.rows.next (.head ()) = .item t ∧
      sub32 s.k.timers.tick (s.k.timers.timeoutTick t) < halfTickMax
  | _ => True

instance (s : Sys n) (a : Act n) : Decidable (a.allowed s) := by
  apply @Act.casesOn n _ a <;> intros <;> unfold Act.allowed <;> infer_instance

/-- Waiting: `rt_ipc_list_suspend`, and the start of the timer for a wait with a timeout. -/
def Kernel.waitThread (k : Kernel n) (t : Fin n) (i : ℕ) (flag : IpcFlag) (time : Option ℕ) :
    Except Fault (Kernel n) := do
  let k ← rtIpcListSuspend k i t flag
  match time with
  | some time => startThreadTimer k t time
  | none => return k

/-- The function that a step calls. -/
def Act.run : Act n → Except Fault (Kernel n)
  | .start => rtSystemSchedulerStart s.k
  | .startup t => rtThreadStartup s.k t
  | .suspend t => .ok (rtThreadSuspend s.k t).1
  | .resume t => .ok (rtThreadResume s.k t).1
  | .timeout t => rtThreadTimeout s.k t
  | .yield _ => rtThreadYield s.k
  | .control t p => .ok (rtThreadChangePriority s.k t p)
  | .delete t => .ok (rtThreadDelete s.k t)
  | .detach t => .ok (rtThreadDetach s.k t)
  | .exit _ => rtThreadExit s.k
  | .schedule => rtSchedule s.k
  | .enterCritical => .ok (rtEnterCritical s.k)
  | .exitCritical => rtExitCritical s.k
  | .sleep _ tick => rtThreadSleep s.k tick
  | .wait t i flag time => s.k.waitThread t i flag time
  | .ret t => .ok (if s.call t = some .sleep then rtThreadSleepEnd s.k t else s.k)
  | .clock t => s.k.advance.tickThread t
  | .expire t => rtTimerExpire s.k t

/-- The blocking calls after a step. -/
def Act.calls : Act n → Fin n → Option Call
  | .sleep t _ => update s.call t (some .sleep)
  | .wait t _ _ _ => update s.call t (some .wait)
  | .ret t => update s.call t none
  | _ => s.call

/-- The threads that are started after a step. -/
def Act.starts : Act n → Fin n → Bool
  | .startup t => update s.started t true
  | _ => s.started

variable (a : Act n)

/-- The ready thread `t` yields, by itself or because its time slice is over. -/
def Act.yields (t : Fin n) : Prop :=
  s.k.sched.stat t = .ready ∧ (a = .yield t ∨ a = .clock t ∧ sub32 (s.k.remainingTick t) 1 = 0)

/-- The step gives a ready thread a priority. -/
def Act.controls (t : Fin n) : Prop :=
  s.k.sched.stat t = .ready ∧ match a with
    | .control u _ => u = t
    | _ => False

instance (s : Sys n) (a : Act n) (t : Fin n) : Decidable (a.yields s t) := by
  unfold Act.yields; infer_instance

instance (s : Sys n) (a : Act n) (t : Fin n) : Decidable (a.controls s t) := by
  apply @Act.casesOn n _ a <;> intros <;> unfold Act.controls <;> infer_instance

/-- The thread `t` became ready from `k` to `k'`. -/
def becameReady (k k' : Kernel n) (t : Fin n) : Prop :=
  k.sched.stat t ≠ .ready ∧ k'.sched.stat t = .ready

instance (k k' : Kernel n) (t : Fin n) : Decidable (becameReady k k' t) := by
  unfold becameReady; infer_instance

/-- The state after the step that takes the kernel to `k'`. -/
def Sys.after (k' : Kernel n) : Sys n where
  k := k'
  call := a.calls s
  started := a.starts s
  clock := s.clock + 1
  readied := fun t => if becameReady s.k k' t ∨ a.yields s t then s.clock + 1 else s.readied t
  queued := fun t =>
    if becameReady s.k k' t ∨ a.yields s t ∨ a.controls s t then s.clock + 1 else s.queued t

/-- A step that is allowed, and whose function returns. -/
def Sys.exec : Option (Sys n) :=
  if a.allowed s then
    match a.run s with
    | .ok k' => some (s.after a k')
    | .error _ => none
  else none

/-- The start of the system with `n` initialised threads. -/
def Sys.boot (prioMax : ℕ) (prio ticks : Fin n → ℕ) (systemObject cleanup : Fin n → Bool) (tick : ℕ) :
    Sys n where
  k := Kernel.boot prioMax prio ticks systemObject cleanup tick
  call := fun _ => none
  started := fun _ => false
  clock := 0
  readied := fun _ => 0
  queued := fun _ => 0

/-- The kernel with `n` threads, for any number of priorities up to 256. -/
def kernelSystem (n : ℕ) : System (Sys n) (Act n) where
  init := fun s => ∃ prioMax prio ticks systemObject cleanup tick, prioMax ≤ 256 ∧
    (∀ t, prio t < prioMax) ∧ s = Sys.boot prioMax prio ticks systemObject cleanup tick
  step := fun s a s' => s.exec a = some s'

/-- Waiting is proper for a thread that is not closed. A current thread that has deleted itself is,
and runs on until it calls `rt_schedule`. -/
def Act.proper : Act n → Prop
  | .wait t _ _ _ => s.k.sched.stat t ≠ .close
  | _ => True

instance (s : Sys n) (a : Act n) : Decidable (a.proper s) := by
  apply @Act.casesOn n _ a <;> intros <;> unfold Act.proper <;> infer_instance

theorem Sys.exec_cases {s s' : Sys n} {a : Act n} (h : s.exec a = some s') :
    a.allowed s ∧ ∃ k', a.run s = .ok k' ∧ s' = s.after a k' := by
  unfold Sys.exec at h
  split_ifs at h with hallowed
  cases hrun : a.run s with
  | error e =>
    rw [hrun] at h
    cases h
  | ok k' =>
    rw [hrun] at h
    exact ⟨hallowed, k', rfl, (Option.some.inj h).symm⟩

variable {s : Sys n} {k' : Kernel n}

theorem Sys.exec_eq {a : Act n} (hallowed : a.allowed s)
    (hrun : a.run s = .ok k') : s.exec a = some (s.after a k') := by
  unfold Sys.exec
  rw [if_pos hallowed, hrun]

/-! ## What a step does to the view -/

/-- The operation on views that a step is. -/
def Act.view (s : Sys n) (v : View n) : Act n → View n
  | .startup t => v.startup t (s.k.sched.initPriority t)
  | .suspend t => v.suspend t
  | .resume t => v.resume t
  | .timeout t => (v.makeReady t).setError t (-RT_ETIMEOUT)
  | .yield t => v.yield t
  | .control t p => v.changePriority t p
  | .delete t => (v.close t).bury t
  | .detach t => if s.k.cleanup t then (v.close t).bury t else v.close t
  | .exit t => if s.k.systemObject t ∧ ¬s.k.cleanup t then v.close t else (v.close t).bury t
  | .sleep t _ => (v.suspend t).arm t
  | .wait t i flag time => if time.isSome then (v.wait i t flag).arm t else v.wait i t flag
  | .ret t => if s.call t = some .sleep ∧ s.k.error t = -RT_ETIMEOUT then v.setError t RT_EOK else v
  | .clock t => if sub32 (s.k.remainingTick t) 1 = 0 then v.yield t else v
  | .expire t => v.expire t
  | .start | .schedule | .enterCritical | .exitCritical => v

variable {s : Sys n} {v : View n} {k k' : Kernel n} {t : Fin n} {a : Act n}

theorem Act.view_clock (s : Sys n) (v : View n) (t : Fin n) :
    sub32 (s.k.remainingTick t) 1 = 0 ∧ Act.view s v (.clock t) = v.yield t ∨
      sub32 (s.k.remainingTick t) 1 ≠ 0 ∧ Act.view s v (.clock t) = v := by
  have hview : Act.view s v (.clock t) = if sub32 (s.k.remainingTick t) 1 = 0 then v.yield t else v := rfl
  by_cases hzero : sub32 (s.k.remainingTick t) 1 = 0
  · rw [if_pos hzero] at hview
    exact .inl ⟨hzero, hview⟩
  · rw [if_neg hzero] at hview
    exact .inr ⟨hzero, hview⟩

/-- The current thread is ready, or suspended and on no list, unless it is closed or in a call. -/
def MayWait (s : Sys n) (v : View n) : Prop :=
  ∀ t, s.k.current = some t → s.call t = none → v.stat t ≠ .close →
    v.stat t = .ready ∨ v.stat t = .suspend ∧ ∀ hd, t ∉ v.lists hd

namespace Sim

section

variable (h : Sim k v)
include h

theorem schedulerStart (hs : rtSystemSchedulerStart k = .ok k') : Sim k' v := by
  obtain ⟨p, -, hs⟩ := of_bind_ok hs
  split_ifs at hs
  cases hnext : k.sched.tlist.next (.head (.ready p)) with
  | head h' =>
    rw [hnext] at hs
    cases hs
  | item t =>
    rw [hnext] at hs
    rw [← Except.ok.inj hs]
    refine h.congr rfl rfl rfl ?_
    intro u hu
    have hmem := h.queues.rings.next_mem (h := Head.ready p) (b := .head (.ready p)) (by simp)
    rw [hnext] at hmem
    rw [← Option.some.inj hu, (((h.ok.at' t).ready p).mp (Node.item_mem_all.mp hmem)).1]
    simp

theorem exitCritical (hs : rtExitCritical k = .ok k') : Sim k' v := by
  unfold rtExitCritical at hs
  split_ifs at hs
  · have hunlocked : Sim { k with lockNest := 0 } v := h.congr rfl rfl rfl h.current
    exact hunlocked.schedule hs
  · rw [← Except.ok.inj hs]
    exact h.congr rfl rfl rfl h.current

theorem timeoutThread (hs : rtThreadTimeout k t = .ok k') :
    v.stat t = .suspend ∧ Sim k' ((v.makeReady t).setError t (-RT_ETIMEOUT)) := by
  unfold rtThreadTimeout at hs
  split_ifs at hs with ht
  rw [h.stat] at ht
  exact ⟨ht, ((h.makeReady ht).setError t (-RT_ETIMEOUT)).schedule hs⟩

theorem waitThread {i : ℕ} {flag : IpcFlag} {time : Option ℕ}
    (ht : v.stat t = .ready ∨ v.stat t = .suspend ∧ ∀ hd, t ∉ v.lists hd)
    (hw : k.waitThread t i flag time = .ok k') :
    Sim k' (if time.isSome then (v.wait i t flag).arm t else v.wait i t flag) := by
  obtain ⟨k₁, hk₁, hsim⟩ := h.wait i flag ht
  obtain ⟨k₂, hk₂, hw⟩ := of_bind_ok hw
  rw [hk₁] at hk₂
  rw [← Except.ok.inj hk₂] at hw
  cases time with
  | none => exact Except.ok.inj hw ▸ hsim
  | some time => exact hsim.startTimer hw

theorem tickThread (hcur : k.current = some t) (hs : k.tickThread t = .ok k') :
    Sim k' (if sub32 (k.remainingTick t) 1 = 0 then v.yield t else v) := by
  unfold Kernel.tickThread at hs
  dsimp only at hs
  split_ifs at hs ⊢ with hzero
  · have hreset : Sim { k with remainingTick := update k.remainingTick t (k.initTick t) } v :=
      h.congr rfl rfl rfl h.current
    have hyield := rtThreadYield_eq (t := t)
      (k := { k with remainingTick := update k.remainingTick t (k.initTick t) }) hcur
    exact hreset.yieldThread (hyield ▸ hs)
  · rw [← Except.ok.inj hs]
    exact h.congr rfl rfl rfl h.current

theorem advance : Sim k.advance v := by
  obtain ⟨T, ha, hf⟩ := h.timers
  exact ⟨h.queues, h.stat, h.prio, h.error, ⟨T, ⟨ha.rings, ha.activated⟩, hf⟩, h.masks, h.ok, h.current⟩

theorem sleepEnd (t : Fin n) :
    Sim (rtThreadSleepEnd k t) (if k.error t = -RT_ETIMEOUT then v.setError t RT_EOK else v) := by
  unfold rtThreadSleepEnd
  split_ifs
  · exact h.setError t RT_EOK
  · exact h

end

end Sim

/-- The function of a step computes the operation on views. -/
theorem Act.sim (h : Sim s.k v) (hwait : MayWait s v) (hallowed : a.allowed s) (hproper : a.proper s)
    (hrun : a.run s = .ok k') : Sim k' (a.view s v) := by
  cases a with
  | start => exact h.schedulerStart hrun
  | startup t => exact h.startup (h.of_startup hrun) hrun
  | suspend t => exact Except.ok.inj hrun ▸ h.suspend t
  | resume t => exact Except.ok.inj hrun ▸ h.resume t
  | timeout t => exact (h.timeoutThread hrun).2
  | yield t =>
    have hyield := rtThreadYield_eq hallowed.1
    exact h.yieldThread (hyield.symm.trans hrun)
  | control t p => exact Except.ok.inj hrun ▸ h.changePriority hallowed
  | delete t => exact Except.ok.inj hrun ▸ h.delete t
  | detach t => exact Except.ok.inj hrun ▸ h.detach t
  | exit t =>
    have hexit := rtThreadExit_eq hallowed.1
    exact h.exitThread (hexit.symm.trans hrun)
  | schedule => exact h.schedule hrun
  | enterCritical =>
    rw [← Except.ok.inj hrun]
    exact h.congr rfl rfl rfl h.current
  | exitCritical => exact h.exitCritical hrun
  | sleep t tick =>
    have hsleep := rtThreadSleep_eq hallowed.1 tick
    exact (h.suspend t).startTimer (hsleep.symm.trans hrun)
  | wait t i flag time =>
    have hnot : v.stat t ≠ .close := by
      rw [← h.stat]
      exact hproper
    exact h.waitThread (hwait t hallowed.1 hallowed.2.1 hnot) hrun
  | ret t =>
    rw [← Except.ok.inj hrun]
    change Sim _ (if s.call t = some .sleep ∧ s.k.error t = -RT_ETIMEOUT then v.setError t RT_EOK else v)
    by_cases hcall : s.call t = some .sleep
    · simp only [hcall, true_and, if_true]
      exact h.sleepEnd t
    · simp only [hcall, false_and, if_false]
      exact h
  | clock t =>
    have hremaining : s.k.advance.remainingTick = s.k.remainingTick := rfl
    have hsim := h.advance.tickThread hallowed hrun
    rwa [hremaining] at hsim
  | expire t => exact h.expire (h.of_expire hrun) hrun

/-! ## The order of the ready lists -/

/-- The ready lists of `v'` are those of `v` with threads taken off and the threads of `Z` at the
end. -/
def Appends (v v' : View n) (Z : Fin n → Prop) : Prop :=
  ∀ p, ∃ l₁ l₂, v'.lists (.ready p) = l₁ ++ l₂ ∧ l₁.Sublist (v.lists (.ready p)) ∧
    (∀ t ∈ l₁, ¬Z t) ∧ ∀ t ∈ l₂, Z t

section Appends

variable {v' : View n} {Z : Fin n → Prop}

theorem appends_of_sublist (hsub : ∀ p, (v'.lists (.ready p)).Sublist (v.lists (.ready p)))
    (hZ : ∀ p, ∀ u ∈ v'.lists (.ready p), ¬Z u) : Appends v v' Z := fun p =>
  ⟨_, [], (append_nil _).symm, hsub p, hZ p, by simp⟩

theorem appends_of_queue {w : View n} (hv : v.Ok) (hw : w.lists = v.lists)
    (hlists : v'.lists = (w.queue t).lists) (ht : Z t)
    (hZ : ∀ p, ∀ u ∈ v.lists (.ready p), u ≠ t → ¬Z u) : Appends v v' Z := by
  intro q
  rw [hlists]
  have hrest : ∀ u ∈ (v.lists (.ready q)).erase t, ¬Z u := by
    intro u hu
    obtain ⟨hne, hmem⟩ := (hv.nodup _).mem_erase_iff.mp hu
    exact hZ q u hmem hne
  refine ⟨(v.lists (.ready q)).erase t, if q = w.prio t then [t] else [], ?_, erase_sublist, hrest, ?_⟩
  · change update (fun h => (w.lists h).erase t) (.ready (w.prio t))
      ((w.lists (.ready (w.prio t))).erase t ++ [t]) (.ready q) = _
    by_cases hq : q = w.prio t
    · rw [hq, update_self, if_pos rfl, hw]
    · rw [update_of_ne (by simp [hq]), if_neg hq, append_nil, hw]
  · intro u hu
    split_ifs at hu
    · rw [mem_singleton] at hu
      exact hu ▸ ht
    · simp at hu

theorem Appends.pairwise {q q' : Fin n → ℕ} {c : ℕ} (ha : Appends v v' Z)
    (horder : ∀ p, (v.lists (.ready p)).Pairwise fun t u => q t ≤ q u) (hle : ∀ t, q t ≤ c)
    (hkeep : ∀ t, ¬Z t → q' t = q t) (hstamp : ∀ t, Z t → q' t = c) (p : ℕ) :
    (v'.lists (.ready p)).Pairwise fun t u => q' t ≤ q' u := by
  obtain ⟨l₁, l₂, hl, hsub, h1, h2⟩ := ha p
  rw [hl, pairwise_append]
  refine ⟨?_, ?_, ?_⟩
  · apply ((horder p).sublist hsub).imp_of_mem
    intro t u ht hu hle
    rwa [hkeep t (h1 t ht), hkeep u (h1 u hu)]
  · apply pairwise_of_forall_mem_list
    intro t ht u hu
    rw [hstamp t (h2 t ht), hstamp u (h2 u hu)]
  · intro t ht u hu
    rw [hkeep t (h1 t ht), hstamp u (h2 u hu)]
    exact hle t

end Appends

theorem View.suspend_sublist (v : View n) (t : Fin n) (h : Head) :
    ((v.suspend t).lists h).Sublist (v.lists h) := by
  unfold View.suspend
  split_ifs
  · exact erase_sublist
  · exact List.Sublist.refl _

/-- The threads that a step stamps. -/
def Stamped (s : Sys n) (a : Act n) (k' : Kernel n) (t : Fin n) : Prop :=
  becameReady s.k k' t ∨ a.yields s t ∨ a.controls s t

section Stamped

variable {t u : Fin n} {p : ℕ}

/-- A ready thread is stamped only if it yields or is given a priority. -/
theorem Sim.not_stamped (h : Sim s.k v) (hu : u ∈ v.lists (.ready p)) (hy : ¬a.yields s u)
    (hc : ¬a.controls s u) : ¬Stamped s a k' u := by
  rintro (⟨hne, -⟩ | hyields | hcontrols)
  · rw [h.stat] at hne
    exact hne (((h.ok.at' u).ready p).mp hu).1
  · exact hy hyields
  · exact hc hcontrols

theorem Sim.appends_sublist (h : Sim s.k v)
    (hl : ∀ p, (v'.lists (.ready p)).Sublist (v.lists (.ready p)))
    (hstill : ∀ u, ¬a.yields s u ∧ ¬a.controls s u) : Appends v v' (Stamped s a k') :=
  appends_of_sublist hl fun p u hu => h.not_stamped ((hl p).subset hu) (hstill u).1 (hstill u).2

/-- A thread that becomes ready is appended. -/
theorem Sim.appends_ready {w : View n} (h : Sim s.k v) (h' : Sim k' (a.view s v)) (hw : w.lists = v.lists)
    (hl : (a.view s v).lists = (w.queue t).lists) (hne : v.stat t ≠ .ready)
    (hready : (a.view s v).stat t = .ready) (hstill : ∀ u, ¬a.yields s u ∧ ¬a.controls s u) :
    Appends v (a.view s v) (Stamped s a k') := by
  have ht : becameReady s.k k' t := by
    constructor
    · rwa [h.stat]
    · rwa [h'.stat]
  exact appends_of_queue h.ok hw hl (Or.inl ht) fun p u hu _ => h.not_stamped hu (hstill u).1 (hstill u).2

/-- A thread that yields, or is given a priority, moves to the end of its list if it is ready. -/
theorem Sim.appends_moved {w : View n} (h : Sim s.k v) (hw : w.lists = v.lists)
    (hl : v'.lists = if v.stat t = .ready then (w.queue t).lists else v.lists)
    (hself : v.stat t = .ready → Stamped s a k' t)
    (hothers : ∀ u, u ≠ t → ¬a.yields s u ∧ ¬a.controls s u) : Appends v v' (Stamped s a k') := by
  split_ifs at hl with ht
  · exact appends_of_queue h.ok hw hl (hself ht) fun p u hu hne =>
      h.not_stamped hu (hothers u hne).1 (hothers u hne).2
  · refine appends_of_sublist (fun p => hl ▸ List.Sublist.refl _) fun p u hu => ?_
    rw [hl] at hu
    have hne : u ≠ t := by
      rintro rfl
      exact ht (((h.ok.at' u).ready p).mp hu).1
    exact h.not_stamped hu (hothers u hne).1 (hothers u hne).2

theorem Sim.appends_yield (h : Sim s.k v) (hself : v.stat t = .ready → a.yields s t)
    (hothers : ∀ u, u ≠ t → ¬a.yields s u) (hc : ∀ u, ¬a.controls s u) :
    Appends v (v.yield t) (Stamped s a k') := by
  refine h.appends_moved rfl ?_ (fun ht => Or.inr (Or.inl (hself ht))) fun u hu => ⟨hothers u hu, hc u⟩
  unfold View.yield
  split_ifs <;> rfl

end Stamped

/-- A step puts the threads that it stamps at the end of their ready lists. -/
theorem Act.appends (h : Sim s.k v) (hrun : a.run s = .ok k')
    (h' : Sim k' (a.view s v)) : Appends v (a.view s v) (Stamped s a k') := by
  cases a with
  | start | schedule | enterCritical | exitCritical =>
    exact h.appends_sublist (fun p => List.Sublist.refl _) (by simp [Act.yields, Act.controls])
  | startup t =>
    have ht := h.of_startup hrun
    exact h.appends_ready (w := v.setPrio t (s.k.sched.initPriority t)) h' rfl rfl (by rw [ht]; simp)
      (update_self ..) (by simp [Act.yields, Act.controls])
  | suspend t | sleep t tick =>
    exact h.appends_sublist (fun p => v.suspend_sublist t (.ready p)) (by simp [Act.yields, Act.controls])
  -- A thread that is not suspended is left alone.
  | resume t =>
    by_cases ht : v.stat t = .suspend
    · have hview : Act.view s v (.resume t) = (v.makeReady t).disarm t := if_pos ht
      exact h.appends_ready h' rfl (by rw [hview]; rfl) (by rw [ht]; simp)
        (by rw [hview]; exact update_self ..) (by simp [Act.yields, Act.controls])
    · have hview : Act.view s v (.resume t) = v := if_neg ht
      rw [hview]
      exact h.appends_sublist (fun p => List.Sublist.refl _) (by simp [Act.yields, Act.controls])
  | timeout t =>
    have ht := (h.timeoutThread hrun).1
    exact h.appends_ready h' rfl rfl (by rw [ht]; simp) (update_self ..)
      (by simp [Act.yields, Act.controls])
  | expire t =>
    have ht := h.of_expire hrun
    exact h.appends_ready h' rfl rfl (by rw [ht]; simp) (update_self ..) (by simp [Act.yields, Act.controls])
  | yield t =>
    refine h.appends_yield (fun ht => ⟨by rwa [h.stat], Or.inl rfl⟩) (fun u hu => ?_) (by simp [Act.controls])
    rintro ⟨-, heq | ⟨heq, -⟩⟩
    · injection heq with heq
      exact hu heq.symm
    · cases heq
  | clock t =>
    rcases Act.view_clock s v t with ⟨hzero, hview⟩ | ⟨hzero, hview⟩
    · rw [hview]
      refine h.appends_yield (fun ht => ⟨by rwa [h.stat], Or.inr ⟨rfl, hzero⟩⟩) (fun u hu => ?_)
        (by simp [Act.controls])
      rintro ⟨-, heq | ⟨heq, -⟩⟩
      · cases heq
      · injection heq with heq
        exact hu heq.symm
    · rw [hview]
      refine h.appends_sublist (fun p => List.Sublist.refl _) fun u => ⟨?_, by simp [Act.controls]⟩
      rintro ⟨-, heq | ⟨heq, hz⟩⟩
      · cases heq
      · injection heq with heq
        exact hzero (heq ▸ hz)
  | control t p =>
    refine h.appends_moved (w := v.setPrio t p) (t := t) rfl ?_
      (fun ht => Or.inr (Or.inr ⟨by rwa [h.stat], rfl⟩))
      fun u hu => ⟨by simp [Act.yields], fun hc => hu hc.2.symm⟩
    unfold Act.view View.changePriority
    dsimp only
    split_ifs <;> rfl
  | delete t =>
    exact h.appends_sublist (fun p => erase_sublist) (by simp [Act.yields, Act.controls])
  | detach t | exit t =>
    refine h.appends_sublist (fun p => ?_) (by simp [Act.yields, Act.controls])
    unfold Act.view
    dsimp only
    split_ifs <;> exact erase_sublist
  | wait t i flag time =>
    refine h.appends_sublist (fun p => ?_) (by simp [Act.yields, Act.controls])
    unfold Act.view
    dsimp only
    split_ifs <;> exact v.suspend_sublist t (.ready p)
  | ret t =>
    refine h.appends_sublist (fun p => ?_) (by simp [Act.yields, Act.controls])
    unfold Act.view
    dsimp only
    split_ifs <;> exact List.Sublist.refl _

/-! ## The invariant -/

theorem View.queue_wait (v : View n) (t : Fin n) (i : ℕ) :
    (v.queue t).lists (.wait i) = (v.lists (.wait i)).erase t := by
  unfold View.queue
  dsimp only [View.place]
  rw [update_of_ne (by simp)]
  rfl

/-- A step takes threads off a suspend list, or puts the caller of `wait` on it. -/
theorem Act.wait_lists (i : ℕ) : ((a.view s v).lists (.wait i)).Sublist (v.lists (.wait i)) ∨
    ∃ t flag time l, a = .wait t i flag time ∧ l.Sublist (v.lists (.wait i)) ∧
      (a.view s v).lists (.wait i) = flag.insert v.prio t l := by
  have hqueue : ∀ (w : View n) (t : Fin n), w.lists = v.lists →
      ((w.queue t).lists (.wait i)).Sublist (v.lists (.wait i)) := by
    intro w t hw
    rw [View.queue_wait, hw]
    exact erase_sublist
  have hclose : ∀ t, ((v.close t).lists (.wait i)).Sublist (v.lists (.wait i)) := fun _ => erase_sublist
  have hyield : ∀ t, ((v.yield t).lists (.wait i)).Sublist (v.lists (.wait i)) := by
    intro t
    unfold View.yield
    split_ifs
    · exact hqueue v t rfl
    · exact List.Sublist.refl _
  cases a with
  | start | schedule | enterCritical | exitCritical => exact Or.inl (List.Sublist.refl _)
  | startup t => exact Or.inl (hqueue { (v.setPrio t (s.k.sched.initPriority t)).setStat t .suspend with
      started := update v.started t true } t rfl)
  | suspend t | sleep t tick => exact Or.inl (v.suspend_sublist t _)
  | timeout t | expire t => exact Or.inl (hqueue v t rfl)
  | delete t => exact Or.inl (hclose t)
  | detach t | exit t =>
    unfold Act.view
    dsimp only
    split_ifs <;> exact Or.inl (hclose t)
  | ret t =>
    unfold Act.view
    dsimp only
    split_ifs <;> exact Or.inl (List.Sublist.refl _)
  | yield t => exact Or.inl (hyield t)
  | clock t =>
    rcases Act.view_clock s v t with ⟨-, hview⟩ | ⟨-, hview⟩
    · rw [hview]
      exact Or.inl (hyield t)
    · rw [hview]
      exact Or.inl (List.Sublist.refl _)
  | resume t =>
    unfold Act.view View.resume
    dsimp only
    split_ifs
    · exact Or.inl (hqueue v t rfl)
    · exact Or.inl (List.Sublist.refl _)
  | control t p =>
    unfold Act.view View.changePriority
    dsimp only
    split_ifs
    · exact Or.inl (hqueue (v.setPrio t p) t rfl)
    · exact Or.inl (List.Sublist.refl _)
  | wait t j flag time =>
    have hlists : (Act.view s v (.wait t j flag time)).lists = (v.wait j t flag).lists := by
      unfold Act.view
      dsimp only
      split_ifs <;> rfl
    have hprio : (v.suspend t).prio = v.prio := by
      unfold View.suspend
      split_ifs <;> rfl
    rw [hlists]
    unfold View.wait
    dsimp only [View.place]
    -- Only the list that the caller waits on gets longer.
    by_cases hij : i = j
    · subst hij
      refine Or.inr ⟨t, flag, time, _, rfl, v.suspend_sublist t _, ?_⟩
      rw [update_self, hprio]
    · rw [update_of_ne (by simpa using hij)]
      exact Or.inl (v.suspend_sublist t _)

theorem Act.mem_wait {u : Fin n} {i : ℕ} (hu : u ∈ (a.view s v).lists (.wait i)) :
    u ∈ v.lists (.wait i) ∨ ∃ flag time, a = .wait u i flag time := by
  rcases Act.wait_lists (s := s) (v := v) (a := a) i with hsub | ⟨t, flag, time, l, rfl, hl, hinsert⟩
  · exact .inl (hsub.subset hu)
  · rw [hinsert, IpcFlag.mem_insert] at hu
    rcases hu with rfl | hu
    · exact .inr ⟨flag, time, rfl⟩
    · exact .inl (hl.subset hu)

theorem View.suspend_fields (v : View n) (t : Fin n) :
    (v.suspend t).started = v.started ∧ (v.suspend t).prio = v.prio := by
  unfold View.suspend
  split_ifs <;> exact ⟨rfl, rfl⟩

theorem Act.view_started (hst : v.started = s.started) : (a.view s v).started = a.starts s := by
  cases a with
  | start | schedule | enterCritical | exitCritical | timeout t | expire t | delete t => exact hst
  | startup t => exact congrArg (update · t true) hst
  | suspend t | sleep t tick => exact (v.suspend_fields t).1.trans hst
  | wait t i flag time =>
    unfold Act.view
    dsimp only
    split_ifs <;> exact (v.suspend_fields t).1.trans hst
  | yield t | clock t | resume t | control t p | detach t | exit t | ret t =>
    simp only [Act.view, View.yield, View.resume, View.changePriority]
    split_ifs <;> exact hst

/-- The priorities after a step. -/
def Act.prios (s : Sys n) (prio : Fin n → ℕ) : Act n → Fin n → ℕ
  | .control t p => update prio t p
  | .startup t => update prio t (s.k.sched.initPriority t)
  | _ => prio

theorem Act.view_prio : (a.view s v).prio = a.prios s v.prio := by
  cases a with
  | suspend t | sleep t tick => exact (v.suspend_fields t).2
  | wait t i flag time =>
    unfold Act.view
    dsimp only
    split_ifs <;> exact (v.suspend_fields t).2
  | yield t | clock t | resume t | control t p | detach t | exit t | ret t =>
    simp only [Act.view, View.yield, View.resume, View.changePriority]
    split_ifs <;> rfl
  | _ => rfl

theorem Act.calls_ne_none {u : Fin n} (hcall : s.call u ≠ none) (hret : a ≠ .ret u) : a.calls s u ≠ none := by
  have hupdate : ∀ (t : Fin n) (c : Call), update s.call t (some c) u ≠ none := by
    intro t c
    rw [update_apply]
    split_ifs
    · simp
    · exact hcall
  cases a with
  | sleep t tick => exact hupdate t .sleep
  | wait t i flag time => exact hupdate t .wait
  | ret t =>
    have hne : u ≠ t := by
      rintro rfl
      exact hret rfl
    change update s.call t none u ≠ none
    rwa [update_of_ne hne]
  | _ => exact hcall

/-- What every step of a run keeps. -/
structure RunInv (s : Sys n) (v : View n) : Prop where
  sim : Sim s.k v
  started : v.started = s.started
  /-- A thread on a suspend list is in a blocking call. -/
  calls : ∀ t i, t ∈ v.lists (.wait i) → s.call t ≠ none
  /-- The ready lists are in the order of the stamps. -/
  order : ∀ p, (v.lists (.ready p)).Pairwise fun t u => s.queued t ≤ s.queued u
  stamps : ∀ t, s.queued t ≤ s.clock

namespace RunInv

theorem mayWait (h : RunInv s v) : MayWait s v := by
  intro t hcur hcall hclose
  cases hst : v.stat t with
  | init => exact absurd hst (h.sim.current t hcur)
  | ready => exact .inl rfl
  | close => exact absurd hst hclose
  | suspend =>
    refine .inr ⟨rfl, fun hd hmem => ?_⟩
    cases hd with
    | ready p =>
      rw [(h.sim.ok.at' t).ready, hst] at hmem
      cases hmem.1
    | defunct =>
      have hdef := (h.sim.ok.at' t).defunct hmem
      rw [hst] at hdef
      cases hdef
    | wait i => exact h.calls t i hmem hcall

theorem exec (h : RunInv s v) (hproper : a.proper s) {s' : Sys n} (hs : s.exec a = some s') :
    RunInv s' (a.view s v) := by
  obtain ⟨hallowed, k', hrun, rfl⟩ := Sys.exec_cases hs
  have hsim := Act.sim h.sim h.mayWait hallowed hproper hrun
  have happ := Act.appends h.sim hrun hsim
  refine ⟨hsim, ?_, ?_, ?_, ?_⟩
  · exact Act.view_started h.started
  · intro t i hmem
    rcases Act.mem_wait hmem with hbefore | ⟨flag, time, rfl⟩
    · apply Act.calls_ne_none (h.calls t i hbefore)
      rintro rfl
      -- A thread that returns is ready.
      have hready := hallowed.2.2
      rw [h.sim.stat, (h.sim.ok.at' t).wait i hbefore] at hready
      cases hready
    · change update s.call t (some .wait) t ≠ none
      simp
  · refine happ.pairwise h.order (fun t => Nat.le_succ_of_le (h.stamps t)) ?_ ?_
    · intro t ht
      exact if_neg ht
    · intro t ht
      exact if_pos ht
  · intro t
    change (if _ then s.clock + 1 else s.queued t) ≤ s.clock + 1
    split_ifs
    · exact le_rfl
    · exact Nat.le_succ_of_le (h.stamps t)

theorem boot {prioMax : ℕ} {prio ticks : Fin n → ℕ} {systemObject cleanup : Fin n → Bool} {tick : ℕ}
    (hmax : prioMax ≤ 256) (hprio : ∀ t, prio t < prioMax) :
    RunInv (Sys.boot prioMax prio ticks systemObject cleanup tick)
      { lists := fun _ => []
        stat := fun _ => .init
        prio := prio
        error := fun _ => RT_EOK
        armed := fun _ => false
        started := fun _ => false } := by
  have hshows : (Sched.boot prioMax prio).Shows {p | ([] : List (Fin n)) ≠ []} := by
    unfold Sched.Shows
    split_ifs
    · refine ⟨fun p => ?_, fun g => ?_⟩
      · change (0 : BitVec 8).getLsbD _ = true ↔ _
        simp
      · change (0 : BitVec 32).getLsbD g = true ↔ (0 : BitVec 8) ≠ 0
        simp
    · intro p
      change (0 : BitVec 32).getLsbD p = true ↔ _
      simp
  refine ⟨⟨⟨hmax, hprio, hprio, .empty, by simp, fun t => .inr ⟨rfl, rfl, rfl⟩, hshows⟩, rfl, rfl, rfl,
    ⟨[], ⟨.empty, by simp⟩, by simp⟩, by simp, ⟨fun t => ⟨by simp, by simp, by simp, by simp⟩, by simp⟩,
    fun t ht => ?_⟩, rfl, by simp, by simp, fun t => le_rfl⟩
  cases ht

end RunInv

theorem reachable_runInv (hs : Reachable (kernelSystem n) (fun s a => a.proper s) s) : ∃ v, RunInv s v := by
  refine hs.invariant ?_ ?_
  · rintro s ⟨prioMax, prio, ticks, systemObject, cleanup, tick, hmax, hprio, rfl⟩
    exact ⟨_, RunInv.boot hmax hprio⟩
  · rintro s a s' ⟨v, hv⟩ hproper hstep
    exact ⟨_, hv.exec hproper hstep⟩

end RtThread
