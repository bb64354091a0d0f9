import Mathlib.Data.Fin.VecNotation
import Mathlib.Data.Fintype.Pi
import RtThread.Ipc.Calls

/-!
# The order of a suspend list

An object with the flag `RT_IPC_FLAG_PRIO` keeps the threads that wait for it in the order of their
priorities, and threads of one priority in the order in which they came. Nothing moves a thread when
its priority changes later, neither `rt_thread_control` nor a mutex that raises the priority of its
owner by it. So the order is kept just by those changes that leave the thread at its place
(`Act.keepsPlace`).

The system is the kernel of `kernelSystem` with the time of arrival of each waiting thread. The
inheritance of a priority is a `control`, and a wake-up the `resume` of any thread of the list.
`rt_ipc_list_resume` takes the first one; `rt_event_send` chooses by the bits that the threads wait for.
-/

namespace RtThread

open Lib Function

variable {n : ℕ}

/-- The kernel, with the list on which each thread last began to wait, and the step at which it did.
-/
structure WaitSys (n : ℕ) where
  sys : Sys n
  list : Fin n → ℕ
  arrival : Fin n → ℕ

variable (flag : ℕ → IpcFlag)

/-- A thread waits on a list by the flag of the object that the list belongs to. -/
def Act.flagged : Act n → Prop
  | .wait _ i f _ => f = flag i
  | _ => True

instance (flag : ℕ → IpcFlag) (a : Act n) : Decidable (a.flagged flag) := by
  apply @Act.casesOn n _ a <;> intros <;> unfold Act.flagged <;> infer_instance

/-- The state after the step that takes the kernel to `sys`. -/
def WaitSys.after (s : WaitSys n) (a : Act n) (sys : Sys n) : WaitSys n :=
  match a with
  | .wait t i _ _ => ⟨sys, update s.list t i, update s.arrival t s.sys.clock⟩
  | _ => ⟨sys, s.list, s.arrival⟩

/-- One step, which uses a list with its own flag only. -/
def WaitSys.exec (s : WaitSys n) (a : Act n) : Option (WaitSys n) :=
  if a.flagged flag then (s.sys.exec a).map (s.after a) else none

/-- The kernel with objects of the flags `flag`. -/
def waitSystem (n : ℕ) (flag : ℕ → IpcFlag) : System (WaitSys n) (Act n) where
  init := fun s => (kernelSystem n).init s.sys
  step := fun s a s' => s.exec flag a = some s'

/-- The thread `t` comes before `u` by priority, and among equals by arrival. -/
def Before (prio arrival : Fin n → ℕ) (t u : Fin n) : Prop :=
  prio t < prio u ∨ prio t = prio u ∧ arrival t < arrival u

instance (prio arrival : Fin n → ℕ) (t u : Fin n) : Decidable (Before prio arrival t u) := by
  unfold Before; infer_instance

/-- A change of the priority of a thread that waits by priority leaves it at its place: it comes
before, and behind, the same threads of the list. -/
def Act.keepsPlace (s : WaitSys n) : Act n → Prop
  | .control t p => flag (s.list t) = .prio → t ∈ s.sys.k.sched.waiters (s.list t) →
      ∀ u ∈ s.sys.k.sched.waiters (s.list t),
        (Before s.sys.k.sched.currentPriority s.arrival t u →
          Before (update s.sys.k.sched.currentPriority t p) s.arrival t u) ∧
        (Before s.sys.k.sched.currentPriority s.arrival u t →
          Before (update s.sys.k.sched.currentPriority t p) s.arrival u t)
  | _ => True

instance (flag : ℕ → IpcFlag) (s : WaitSys n) (a : Act n) : Decidable (a.keepsPlace flag s) := by
  cases a with
  | control t p => exact inferInstanceAs (Decidable (_ → _ → ∀ u ∈ _, (_ → _) ∧ (_ → _)))
  | _ => exact isTrue trivial

section Order

variable {flag : ℕ → IpcFlag} {s s' : WaitSys n} {a : Act n} {v : View n} {prio arrival : Fin n → ℕ}
  {t u : Fin n} {l : List (Fin n)}

theorem insertByPrio_pairwise (hl : l.Pairwise (Before prio arrival)) (harrival : ∀ u ∈ l, arrival u < arrival t) :
    (insertByPrio prio t l).Pairwise (Before prio arrival) := by
  refine pairwise_insertWhile hl ?_ ?_ ?_
  · intro u hu hle
    have hlt := harrival u hu
    rw [decide_eq_true_eq] at hle
    unfold Before
    omega
  · intro u _ hgt
    rw [decide_eq_false_iff_not] at hgt
    exact Or.inl (not_le.mp hgt)
  · intro u _ w _ huw hle
    rw [decide_eq_true_eq] at hle ⊢
    unfold Before at huw
    omega

/-- The suspend lists are in order, with the times of arrival in the past. -/
structure OrderInv (flag : ℕ → IpcFlag) (s : WaitSys n) (v : View n) : Prop where
  run : RunInv s.sys v
  list : ∀ t i, t ∈ v.lists (.wait i) → s.list t = i ∧ s.arrival t < s.sys.clock
  sorted : ∀ i, flag i = .prio → (v.lists (.wait i)).Pairwise (Before v.prio s.arrival)

namespace OrderInv

theorem not_mem (h : OrderInv flag s v) (hallowed : a.allowed s.sys) {i : ℕ} {f : IpcFlag} {time : Option ℕ}
    (ha : a = .wait t i f time) (j : ℕ) : t ∉ v.lists (.wait j) := by
  subst ha
  exact fun hmem => h.run.calls t j hmem hallowed.2.1

/-- A change that keeps its place keeps the order of any two waiting threads. -/
theorem before (h : OrderInv flag s v) (hkeeps : a.keepsPlace flag s) {k : Kernel n}
    (hsim : Sim k (a.view s.sys v)) {i : ℕ} (hi : flag i = .prio) (ht : t ∈ v.lists (.wait i))
    (hu : u ∈ v.lists (.wait i)) (ht' : t ∈ (a.view s.sys v).lists (.wait i))
    (hu' : u ∈ (a.view s.sys v).lists (.wait i)) (htu : Before v.prio s.arrival t u) :
    Before (a.view s.sys v).prio s.arrival t u := by
  rw [Act.view_prio]
  cases a with
  | control w p =>
    change Before (update v.prio w p) s.arrival t u
    have hplace : w ∈ v.lists (.wait i) → ∀ x ∈ v.lists (.wait i),
        (Before v.prio s.arrival w x → Before (update v.prio w p) s.arrival w x) ∧
        (Before v.prio s.arrival x w → Before (update v.prio w p) s.arrival x w) := by
      intro hw
      unfold Act.keepsPlace at hkeeps
      dsimp only at hkeeps
      rw [(h.list w i hw).1, h.run.sim.waiters, h.run.sim.prio] at hkeeps
      exact hkeeps hi hw
    by_cases htw : t = w
    · subst htw
      exact (hplace ht u hu).1 htu
    by_cases huw : u = w
    · subst huw
      exact (hplace hu t ht).2 htu
    unfold Before
    rwa [update_of_ne htw, update_of_ne huw]
  | startup w =>
    -- A thread that is started is ready, and so on no list.
    have hready : (Act.view s.sys v (.startup w)).stat w ≠ .suspend := by
      have hstat : (Act.view s.sys v (.startup w)).stat w = .ready := update_self ..
      rw [hstat]
      simp
    have htw : t ≠ w := fun htw => hsim.ok.not_mem_wait hready i (htw ▸ ht')
    have huw : u ≠ w := fun huw => hsim.ok.not_mem_wait hready i (huw ▸ hu')
    change Before (update v.prio w _) s.arrival t u
    unfold Before
    rwa [update_of_ne htw, update_of_ne huw]
  | _ => exact htu

theorem after_of_ne (hne : ∀ i f time, a ≠ .wait t i f time) (sys : Sys n) :
    (s.after a sys).list t = s.list t ∧ (s.after a sys).arrival t = s.arrival t := by
  cases a with
  | wait u i f time =>
    have htu : t ≠ u := by
      rintro rfl
      exact hne _ _ _ rfl
    exact ⟨update_of_ne htu .., update_of_ne htu ..⟩
  | _ => exact ⟨rfl, rfl⟩

theorem after_sys (s : WaitSys n) (a : Act n) (sys : Sys n) : (s.after a sys).sys = sys := by
  cases a <;> rfl

/-- Every step that meets the condition keeps the lists in order. -/
theorem exec (h : OrderInv flag s v) (hproper : a.proper s.sys) (hkeeps : a.keepsPlace flag s)
    (hs : s.exec flag a = some s') : OrderInv flag s' (a.view s.sys v) := by
  unfold WaitSys.exec at hs
  split_ifs at hs with hflag
  obtain ⟨sys, hsys, rfl⟩ := Option.map_eq_some_iff.mp hs
  have hrun := h.run.exec hproper hsys
  obtain ⟨hallowed, k', -, hafter⟩ := Sys.exec_cases hsys
  have hclock : sys.clock = s.sys.clock + 1 := by rw [hafter]; rfl
  have hold : ∀ u i, u ∈ v.lists (.wait i) →
      (s.after a sys).list u = s.list u ∧ (s.after a sys).arrival u = s.arrival u :=
    fun u i hu => after_of_ne (fun j f time ha => h.not_mem hallowed ha i hu) sys
  refine ⟨?_, fun u i hu => ?_, fun i hi => ?_⟩
  · rwa [after_sys]
  · rw [after_sys, hclock]
    rcases Act.mem_wait hu with hbefore | ⟨f, time, rfl⟩
    · obtain ⟨hlist, hlt⟩ := h.list u i hbefore
      rw [(hold u i hbefore).1, (hold u i hbefore).2]
      exact ⟨hlist, Nat.lt_succ_of_lt hlt⟩
    · dsimp only [WaitSys.after]
      rw [update_self, update_self]
      exact ⟨rfl, Nat.lt_succ_self _⟩
  · rcases Act.wait_lists (s := s.sys) (v := v) (a := a) i with hsub | ⟨t, f, time, l, rfl, hl, hinsert⟩
    · refine ((h.sorted i hi).sublist hsub).imp_of_mem fun {x y} hx hy hxy => ?_
      have hx₀ := hsub.subset hx
      have hy₀ := hsub.subset hy
      have hbefore := h.before hkeeps hrun.sim hi hx₀ hy₀ hx hy hxy
      unfold Before at hbefore ⊢
      rwa [(hold x i hx₀).2, (hold y i hy₀).2]
    · obtain rfl : f = .prio := Eq.trans hflag hi
      rw [hinsert, Act.view_prio]
      refine insertByPrio_pairwise (((h.sorted i hi).sublist hl).imp_of_mem fun {x y} hx hy hxy => ?_) fun x hx => ?_
      · unfold Before at hxy ⊢
        rwa [(hold x i (hl.subset hx)).2, (hold y i (hl.subset hy)).2]
      · -- The new thread comes last.
        rw [(hold x i (hl.subset hx)).2]
        dsimp only [WaitSys.after]
        rw [update_self]
        exact (h.list x i (hl.subset hx)).2

end OrderInv

section

variable (hs : Reachable (waitSystem n flag) (fun s a => a.proper s.sys ∧ a.keepsPlace flag s) s)
include hs

theorem reachable_orderInv : ∃ v, OrderInv flag s v := by
  refine hs.invariant ?_ ?_
  · rintro s ⟨prioMax, prio, ticks, systemObject, cleanup, tick, hmax, hprio, hs⟩
    have hrun : RunInv (Sys.boot prioMax prio ticks systemObject cleanup tick) _ := RunInv.boot hmax hprio
    rw [← hs] at hrun
    exact ⟨_, hrun, fun t i ht => absurd ht List.not_mem_nil, fun i _ => List.Pairwise.nil⟩
  · rintro s a s' ⟨v, hv⟩ ⟨hproper, hkeeps⟩ hstep
    exact ⟨_, hv.exec hproper hkeeps hstep⟩

/-- In a run in which changes of priorities leave waiting threads at their places, the threads that
wait for an object by priority are in the order of their priorities and, among equals, of their
arrival. The thread that `rt_ipc_list_resume` wakes is a most urgent one. -/
theorem waiters_by_priority (i : ℕ) (hi : flag i = .prio) :
    (s.sys.k.sched.waiters i).Pairwise (Before s.sys.k.sched.currentPriority s.arrival) ∧
      (s.sys.k.sched.waiters i ≠ [] → ∃ t ∈ s.sys.k.sched.waiters i,
        rtIpcListResume s.sys.k i = .ok (rtThreadResume s.sys.k t).1 ∧
          ∀ u ∈ s.sys.k.sched.waiters i, s.sys.k.sched.currentPriority t ≤ s.sys.k.sched.currentPriority u) := by
  obtain ⟨v, h⟩ := reachable_orderInv hs
  have hsorted := h.sorted i hi
  rw [h.run.sim.waiters, h.run.sim.prio]
  refine ⟨hsorted, fun hne => ?_⟩
  obtain ⟨t, l, hl⟩ := List.exists_cons_of_ne_nil hne
  refine ⟨t, by rw [hl]; exact List.mem_cons_self, ?_, fun u hu => ?_⟩
  · unfold rtIpcListResume
    rw [h.run.sim.queues.rings.next_head, hl]
    rfl
  · rw [hl] at hsorted hu
    rcases List.mem_cons.mp hu with rfl | hu
    · exact le_rfl
    · have hbefore := (List.pairwise_cons.mp hsorted).1 u hu
      unfold Before at hbefore
      omega

end

end Order

/-- Two threads wait by priority, and the less urgent one is made less urgent still. -/
theorem waiters_by_priority_run : ∃ s : WaitSys 3,
    Reachable (waitSystem 3 fun _ => .prio) (fun s a => a.proper s.sys ∧ a.keepsPlace (fun _ => .prio) s) s ∧
      s.sys.k.sched.waiters 0 = [0, 1] ∧
      (s.sys.k.sched.waiters 0).Pairwise (Before s.sys.k.sched.currentPriority s.arrival) := by
  refine exists_reachable_and ?_ fun s hs _ => (waiters_by_priority hs 0 rfl).1
  refine exists_reachable_of_exec
    (s := ⟨Sys.boot 32 ![3, 4, 10] (fun _ => 10) (fun _ => false) (fun _ => false) 0, fun _ => 0, fun _ => 0⟩)
    ⟨32, ![3, 4, 10], _, _, _, _, by norm_num, by decide, rfl⟩
    [.startup 0, .startup 1, .startup 2, .start, .wait 0 0 .prio none, .schedule, .wait 1 0 .prio none, .schedule,
      .control 1 5] ?_
  decide +kernel

/-- Two threads wait by priority, and the one behind is made the more urgent one. The list stays as
it is, and the thread that is woken is the other one. -/
theorem control_leaves_list : ∃ s : WaitSys 3,
    Reachable (waitSystem 3 fun _ => .prio) (fun s a => a.proper s.sys) s ∧
      s.sys.k.sched.waiters 0 = [0, 1] ∧
      s.sys.k.sched.currentPriority 1 < s.sys.k.sched.currentPriority 0 ∧
      ∃ k, rtIpcListResume s.sys.k 0 = .ok k ∧ k.sched.waiters 0 = [1] := by
  obtain ⟨s, hs, hp⟩ : ∃ s : WaitSys 3,
      Reachable (waitSystem 3 fun _ => .prio) (fun s a => a.proper s.sys) s ∧
        s.sys.k.sched.waiters 0 = [0, 1] ∧
        s.sys.k.sched.currentPriority 1 < s.sys.k.sched.currentPriority 0 ∧
        (rtIpcListResume s.sys.k 0).toOption.map (fun k => k.sched.waiters 0) = some [1] := by
    refine exists_reachable_of_exec
      (s := ⟨Sys.boot 32 ![3, 4, 10] (fun _ => 10) (fun _ => false) (fun _ => false) 0, fun _ => 0, fun _ => 0⟩)
      ⟨32, ![3, 4, 10], _, _, _, _, by norm_num, by decide, rfl⟩
      [.startup 0, .startup 1, .startup 2, .start, .wait 0 0 .prio none, .schedule, .wait 1 0 .prio none, .schedule,
        .control 1 2] ?_
    decide +kernel
  obtain ⟨hwaiters, hprio, hresume⟩ := hp
  refine ⟨s, hs, hwaiters, hprio, ?_⟩
  cases hk : rtIpcListResume s.sys.k 0 with
  | error e =>
    rw [hk] at hresume
    cases hresume
  | ok k =>
    rw [hk] at hresume
    exact ⟨k, rfl, Option.some.inj hresume⟩

end RtThread
