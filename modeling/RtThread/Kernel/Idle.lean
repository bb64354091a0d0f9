import RtThread.Kernel.Progress

/-!
# The idle thread

`rt_thread_idle_excute` of `idle.c`, with which the idle thread takes the defunct threads off their
list, the one closed last first. The comment in the source says that one call does all the cleanups.
It returns after the first thread that is a system object, and the rest of the list waits for the
next turn of the idle thread (`idle_reaps`).
-/

namespace RtThread

open Lib Function List

variable {n : ℕ} {s : Sys n} {v : View n} {k k' : Kernel n} {t idle : Fin n}

/-- What is done with a thread that is taken off the list of defunct threads. -/
inductive Reap (n : ℕ)
  /-- The call of its cleanup function. -/
  | cleanup (t : Fin n)
  /-- The release of its stack and of the thread. -/
  | delete (t : Fin n)
  deriving DecidableEq

/-- `rt_thread_idle_excute`. The cleanup functions leave the kernel as it is, and no other thread
runs during the call. -/
def rtThreadIdleExcute : ℕ → Kernel n → Except Fault (Kernel n × List (Reap n))
  | 0, _ => .error .fuel
  | fuel + 1, k =>
    match k.sched.tlist.next (.head .defunct) with
    | .head _ => .ok (k, [])
    | .item t => do
      let k ← rtExitCritical (rtEnterCritical { k with sched := k.sched.unlink t })
      let cleanup := if k.cleanup t then [Reap.cleanup t] else []
      if k.systemObject t then return (k, cleanup)
      else
        let (k, reaps) ← rtThreadIdleExcute fuel k
        return (k, cleanup ++ .delete t :: reaps)

section

variable (system cleanup : Fin n → Bool) (l : List (Fin n))

/-- The threads of a list up to the first system object. -/
def reaped : List (Fin n) := l.takeWhile (!system ·) ++ (l.find? system).toList

/-- The threads of a list after the first system object. -/
def unreaped : List (Fin n) := (l.dropWhile (!system ·)).tail

/-- What the idle thread does with a defunct thread. -/
def reaps (t : Fin n) : List (Reap n) :=
  (if cleanup t then [Reap.cleanup t] else []) ++ if system t then [] else [.delete t]

theorem reaped_append_unreaped : reaped system l ++ unreaped system l = l := by
  induction l with
  | nil => rfl
  | cons t l ih => cases ht : system t <;> simp_all [reaped, unreaped]

end

/-- Locking the scheduler and unlocking it is a call of `rt_schedule`. -/
theorem rtExitCritical_enter (k : Kernel n) : rtExitCritical (rtEnterCritical k) = rtSchedule k := by
  by_cases hlock : k.lockNest = 0
  · obtain ⟨sched, timers, error, initTick, remaining, system, cleanup, current, priority, nest⟩ := k
    subst hlock
    rfl
  · have hnest : ¬k.lockNest + 1 ≤ 1 := by omega
    exact (if_neg hnest).trans (if_neg hlock).symm

namespace Sim

/-- One turn of the loop takes the first thread off the list. -/
theorem idleTurn (h : Sim k v) (hidle : v.stat idle = .ready) {l : List (Fin n)}
    (hl : v.lists .defunct = t :: l) : ∃ k', rtSchedule { k with sched := k.sched.unlink t } = .ok k' ∧
      Sim k' { v with lists := update v.lists .defunct l } ∧ k'.cleanup = k.cleanup ∧
        k'.systemObject = k.systemObject := by
  have hmem : t ∈ v.lists .defunct := hl ▸ mem_cons_self
  have hclose : v.stat t = .close := (h.ok.at' t).defunct hmem
  have hnot : ∀ p, t ∉ v.lists (.ready p) := h.ok.not_mem_ready (by simp [hclose])
  have hlists : update v.lists .defunct l = (v.leave t).lists := by
    funext hd
    change _ = (v.lists hd).erase t
    by_cases hhd : hd = .defunct
    · rw [hhd, hl, erase_cons_head, update_self]
    · rw [update_of_ne hhd, erase_of_not_mem]
      exact fun ht => hhd (h.queues.rings.apart ht hmem)
  have hok : ({ v with lists := update v.lists .defunct l } : View n).Ok :=
    h.ok.toOff (x := .close) (by simp) hlists (by rw [← hclose, update_eq_self]) rfl rfl (by simp)
  have hsim : Sim { k with sched := k.sched.unlink t } { v with lists := update v.lists .defunct l } :=
    ⟨hlists ▸ h.queues.unlink hnot, h.stat, h.prio, h.error, h.timers, h.masks, hok, h.current⟩
  obtain ⟨k', hk'⟩ := hsim.schedule_ok hidle
  refine ⟨k', hk', hsim.schedule hk', ?_⟩
  rcases rtSchedule_cases hsim.queues hk' with rfl | ⟨u, p, -, rfl⟩ <;> exact ⟨rfl, rfl⟩

/-- One call reaps the threads up to the first system object. -/
theorem idleExcute {fuel : ℕ} {l : List (Fin n)} (h : Sim k v) (hidle : v.stat idle = .ready)
    (hl : v.lists .defunct = l) (hfuel : l.length < fuel) :
    ∃ k', rtThreadIdleExcute fuel k =
        .ok (k', (reaped k.systemObject l).flatMap (reaps k.systemObject k.cleanup)) ∧
      Sim k' { v with lists := update v.lists .defunct (unreaped k.systemObject l) } := by
  induction fuel generalizing k v l with
  | zero => simp at hfuel
  | succ fuel ih =>
    rw [rtThreadIdleExcute, h.queues.rings.next_head, hl]
    cases l with
    | nil =>
      have hsame : update v.lists .defunct [] = v.lists := by rw [← hl, update_eq_self]
      refine ⟨k, rfl, ?_⟩
      rwa [show unreaped k.systemObject [] = [] from rfl, hsame]
    | cons t l =>
      obtain ⟨k₁, hk₁, hsim, hcleanup, hsystem⟩ := h.idleTurn hidle hl
      rw [Node.first_cons]
      dsimp only
      rw [rtExitCritical_enter, hk₁]
      change ∃ k', (if k₁.systemObject t then _ else _) = _ ∧ _
      rw [hsystem, hcleanup]
      by_cases ht : k.systemObject t
      · refine ⟨k₁, ?_, by simpa [unreaped, ht] using hsim⟩
        simp [ht, reaped, reaps]
        rfl
      · obtain ⟨k', hk', hsim'⟩ := ih (l := l) hsim hidle (by simp) (by simpa using hfuel)
        rw [hsystem, hcleanup] at hk'
        rw [hsystem] at hsim'
        refine ⟨k', ?_, by simpa [unreaped, ht] using hsim'⟩
        rw [if_neg ht, hk']
        simp [ht, reaped, reaps]

end Sim

/-- In every run, one call of `rt_thread_idle_excute` takes the threads up to the first system object
off the list of defunct threads and leaves all other lists as they are. It calls the cleanup functions
of these threads, which are closed, and releases each that is no system object once. -/
theorem idle_reaps (hs : Reachable (kernelSystem n) (fun s a => a.proper s) s)
    (hidle : s.k.sched.stat idle = .ready) : ∃ L, Queues s.k.sched L ∧ (L .defunct).Nodup ∧
      (∀ t ∈ L .defunct, s.k.sched.stat t = .close) ∧
      reaped s.k.systemObject (L .defunct) ++ unreaped s.k.systemObject (L .defunct) = L .defunct ∧
      ∃ k', rtThreadIdleExcute (n + 1) s.k =
          .ok (k', (reaped s.k.systemObject (L .defunct)).flatMap (reaps s.k.systemObject s.k.cleanup)) ∧
        Queues k'.sched (update L .defunct (unreaped s.k.systemObject (L .defunct))) ∧
        k'.sched.stat = s.k.sched.stat := by
  obtain ⟨v, hv⟩ := reachable_runInv hs
  have h := hv.sim
  rw [h.stat] at hidle
  obtain ⟨k', hk', hsim⟩ := h.idleExcute hidle rfl (h.length_lt .defunct)
  refine ⟨v.lists, h.queues, h.ok.nodup _, fun t ht => ?_, reaped_append_unreaped .., k', hk', hsim.queues, ?_⟩
  · rw [h.stat]
    exact (h.ok.at' t).defunct ht
  · rw [hsim.stat, h.stat]

/-- Two threads are closed, the system object last: the call leaves the other one on the list. -/
theorem idle_reaps_half : ∃ s : Sys 3, Reachable (kernelSystem 3) (fun s a => a.proper s) s ∧
    (s.k.sched.stat 2 = .ready ∧ (rtThreadIdleExcute 4 s.k).toOption.map (fun r =>
      (r.1.sched.tlist.next (.head .defunct), r.2)) = some (.item 0, [.cleanup 1])) ∧
    ∃ L, Queues s.k.sched L ∧ (L .defunct).Nodup := by
  refine exists_reachable_and ?_ fun s hs h => ?_
  · refine exists_reachable_of_exec
      ⟨32, ![3, 4, 31], fun _ => 10, ![false, true, false], fun _ => true, 0, by norm_num, by decide, rfl⟩
      [.startup 0, .startup 1, .startup 2, .start, .delete 0, .detach 1, .schedule] ?_
    decide
  · obtain ⟨L, hL, hnodup, -⟩ := idle_reaps hs h.1
    exact ⟨L, hL, hnodup⟩

end RtThread
