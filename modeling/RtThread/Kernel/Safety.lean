import Mathlib.Data.Fin.VecNotation
import Mathlib.Data.Fintype.Pi
import RtThread.Kernel.Run

/-!
# Safety of the scheduler

In every state of a run a thread is ready exactly if it is linked once, on the ready list of its
current priority, and `rt_schedule` makes a thread current that has waited longest among the most
urgent ones. A thread's wait begins when it becomes ready, when it yields, and also when it is given a
priority while it is ready, even the one that it has.
-/

namespace RtThread

open Lib List

variable {n : ℕ} {s : Sys n}

/-- The thread is linked once, on the list of `h`. -/
def LinkedOnce (L : Head → List (Fin n)) (t : Fin n) (h : Head) : Prop :=
  (L h).count t = 1 ∧ ∀ h', h' ≠ h → t ∉ L h'

/-- A thread is ready exactly if it is linked once, on its ready list; the bitmap shows the ready
lists that are not empty; and the masks of started threads are those of their priorities. -/
theorem scheduler_consistent (hs : Reachable (kernelSystem n) (fun s a => a.proper s) s) :
    ∃ L : Head → List (Fin n), Rings s.k.sched.tlist L ∧
      (∀ t, s.k.sched.stat t = .ready ↔ LinkedOnce L t (.ready (s.k.sched.currentPriority t))) ∧
      s.k.sched.Shows {p | L (.ready p) ≠ []} ∧ ∀ t, s.started t = true → s.k.sched.HasMasks t := by
  obtain ⟨v, hv⟩ := reachable_runInv hs
  refine ⟨v.lists, hv.sim.queues.rings, fun t => ?_, hv.sim.queues.shows, fun t ht => ?_⟩
  · rw [hv.sim.stat, hv.sim.prio]
    have hready := (hv.sim.ok.at' t).ready (v.prio t)
    constructor
    · intro hst
      have hmem := hready.mpr ⟨hst, rfl⟩
      refine ⟨count_eq_one_of_mem (hv.sim.ok.nodup _) hmem, fun h' hne hmem' => ?_⟩
      exact hne (hv.sim.queues.rings.apart hmem' hmem)
    · intro hlinked
      have hmem : t ∈ v.lists (.ready (v.prio t)) := by
        rw [← count_pos_iff, hlinked.1]
        exact Nat.one_pos
      exact (hready.mp hmem).1
  · apply hv.sim.masks
    rwa [hv.started]

/-- Three threads, of which one yields, one waits with a timeout and is given another priority
there, and one exits. -/
theorem scheduler_consistent_run : ∃ s : Sys 3,
    Reachable (kernelSystem 3) (fun s a => a.proper s) s ∧
      (s.k.sched.stat = ![.suspend, .ready, .close] ∧ s.k.sched.currentPriority = ![9, 200, 7]) ∧
      ∃ L : Head → List (Fin 3), Rings s.k.sched.tlist L ∧
        (∀ t, s.k.sched.stat t = .ready ↔ LinkedOnce L t (.ready (s.k.sched.currentPriority t))) ∧
        s.k.sched.Shows {p | L (.ready p) ≠ []} ∧ ∀ t, s.started t = true → s.k.sched.HasMasks t := by
  refine exists_reachable_and ?_ fun s hs _ => scheduler_consistent hs
  refine exists_reachable_of_exec
    ⟨256, ![7, 200, 7], fun _ => 10, fun _ => false, fun _ => false, 0, le_rfl, by decide, rfl⟩
    [.startup 0, .startup 1, .startup 2, .start, .yield 0, .exit 2, .wait 0 5 .prio (some 10), .schedule,
      .control 0 9] ?_
  decide

/-- `rt_schedule` makes the head of the ready list of the least priority the current thread, a ready
thread of highest priority that became ready, yielded, or was given a priority while ready, earliest
among its equals. For one word and for a word with a table, the priority it computes is the least of
the set that they show. -/
theorem schedule_picks_first (hs : Reachable (kernelSystem n) (fun s a => a.proper s) s)
    (hready : ∃ t, s.k.sched.stat t = .ready) (hlock : s.k.lockNest = 0) :
    (∃ (L : Head → List (Fin n)) (p : ℕ) (t : Fin n) (l : List (Fin n)) (k' : Kernel n),
      Rings s.k.sched.tlist L ∧ IsLeast {p | L (.ready p) ≠ []} p ∧ L (.ready p) = t :: l ∧
      rtSchedule s.k = .ok k' ∧ k'.current = some t ∧ s.k.sched.stat t = .ready ∧
      ∀ u, s.k.sched.stat u = .ready → s.k.sched.currentPriority t ≤ s.k.sched.currentPriority u ∧
          (s.k.sched.currentPriority u = s.k.sched.currentPriority t → s.queued t ≤ s.queued u)) ∧
      (∀ (group : BitVec 32) (R : Set ℕ), OneLevel group R → R.Nonempty →
        IsLeast R (sub32 (rtFfs group) 1)) ∧
      ∀ (group : BitVec 32) (table : ℕ → BitVec 8) (R : Set ℕ), TwoLevel group table R → R.Nonempty →
        IsLeast R (sub32 (add32 (sub32 (rtFfs group) 1 <<< 3)
          (rtFfs ((table (sub32 (rtFfs group) 1)).setWidth 32))) 1) := by
  refine ⟨?_, fun group R hR hne => hR.isLeast hne, fun group table R hR hne => (hR.isLeast hne).2⟩
  obtain ⟨v, hv⟩ := reachable_runInv hs
  rw [hv.sim.stat] at hready ⊢
  rw [hv.sim.prio]
  have hmem : ∀ {u}, v.stat u = .ready → u ∈ v.lists (.ready (v.prio u)) := fun {u} hu =>
    ((hv.sim.ok.at' u).ready _).mpr ⟨hu, rfl⟩
  obtain ⟨w, hw⟩ := hready
  obtain ⟨p, t, l, k', hleast, hl, hsched, hcur⟩ :=
    rtSchedule_spec hv.sim.queues hlock ⟨_, ne_nil_of_mem (hmem hw)⟩
  have ht : t ∈ v.lists (.ready p) := by
    rw [hl]
    exact mem_cons_self
  obtain ⟨hst, hprio⟩ := ((hv.sim.ok.at' t).ready p).mp ht
  refine ⟨v.lists, p, t, l, k', hv.sim.queues.rings, hleast, hl, hsched, hcur, hst, fun u hu => ?_⟩
  rw [hprio]
  refine ⟨hleast.2 (ne_nil_of_mem (hmem hu)), fun heq => ?_⟩
  have hu' : u ∈ t :: l := by
    rw [← hl, ← heq]
    exact hmem hu
  have horder := hv.order p
  rw [hl, pairwise_cons] at horder
  rw [mem_cons] at hu'
  rcases hu' with rfl | hu'
  · exact le_rfl
  · exact horder.1 u hu'

/-- Two threads of one priority, the first of which yields. -/
theorem schedule_picks_first_run : ∃ s : Sys 2,
    Reachable (kernelSystem 2) (fun s a => a.proper s) s ∧
      ((∃ t, s.k.sched.stat t = .ready) ∧ s.k.lockNest = 0) ∧
      ∃ (L : Head → List (Fin 2)) (p : ℕ) (t : Fin 2) (l : List (Fin 2)) (k' : Kernel 2),
        Rings s.k.sched.tlist L ∧ IsLeast {p | L (.ready p) ≠ []} p ∧ L (.ready p) = t :: l ∧
        rtSchedule s.k = .ok k' ∧ k'.current = some t ∧ s.k.sched.stat t = .ready ∧
        ∀ u, s.k.sched.stat u = .ready → s.k.sched.currentPriority t ≤ s.k.sched.currentPriority u ∧
            (s.k.sched.currentPriority u = s.k.sched.currentPriority t → s.queued t ≤ s.queued u) := by
  refine exists_reachable_and ?_ fun s hs hp => (schedule_picks_first hs hp.1 hp.2).1
  refine exists_reachable_of_exec
    ⟨32, ![3, 3], fun _ => 10, fun _ => false, fun _ => false, 0, by norm_num, by decide, rfl⟩
    [.startup 0, .startup 1, .start, .yield 0] ?_
  decide

/-- Two threads of one priority became ready one after the other. The first is given the priority
that it has, and `rt_schedule` then picks the second, which became ready later. -/
theorem schedule_skips_requeued : ∃ s : Sys 2,
    Reachable (kernelSystem 2) (fun s a => a.proper s) s ∧ s.k.lockNest = 0 ∧
      (rtSchedule s.k).toOption.map (·.current) = some (some 1) ∧
      s.k.sched.stat 0 = .ready ∧ s.k.sched.stat 1 = .ready ∧
      s.k.sched.currentPriority 0 = s.k.sched.currentPriority 1 ∧ s.readied 0 < s.readied 1 := by
  refine exists_reachable_of_exec
    ⟨32, ![3, 3], fun _ => 10, fun _ => false, fun _ => false, 0, by norm_num, by decide, rfl⟩
    [.startup 0, .startup 1, .control 0 3] ?_
  decide

end RtThread
