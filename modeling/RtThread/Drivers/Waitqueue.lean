import Mathlib.Data.List.Basic
import RtThread.Lib.Wakeup

/-!
# Wait queues

`rt_wqueue_wait` puts the thread on the queue, suspends it and schedules; `rt_wqueue_wakeup` looks at
the queue, and if it is not empty resumes the first thread and removes its node. Each of these is a
section with interrupts off of its own, or a look at one pointer (`WaitPc`, `WakePc`). Nodes of `poll`,
whose wake-up function may refuse, are left out: the first node is always woken.

A device has places of its own for the threads that use it, and `Places` says which of them are on the
way to a wait queue. If only one thread waits, its wake-up is an instance of `Lib.Wakeup`.
-/

namespace RtThread

open Lib Function List

/-- Where a wake-up is: before its look at the queue, or behind it. -/
inductive WakePc
  | check
  | scan
  deriving DecidableEq

/-- Where a thread is in `rt_wqueue_wait`, once it has decided to wait. -/
inductive WaitPc
  | add
  | suspend
  | schedule
  | remove
  deriving DecidableEq

/-- The wait queues `ι` with the threads whose nodes are on them, and which threads are suspended.
-/
structure Wqueues (ι : Type) (n : ℕ) where
  nodes : ι → List (Fin n)
  suspended : Fin n → Bool

namespace Wqueues

variable {ι : Type} {n : ℕ} [DecidableEq ι] (w : Wqueues ι n) (q : ι)

/-- `rt_wqueue_add`. -/
def rtWqueueAdd (t : Fin n) : Wqueues ι n :=
  { w with nodes := update w.nodes q (w.nodes q ++ [t]) }

/-- `rt_wqueue_remove`. A node that is on no list stays so. -/
def rtWqueueRemove (t : Fin n) : Wqueues ι n :=
  { w with nodes := update w.nodes q ((w.nodes q).erase t) }

/-- The section of `rt_wqueue_wakeup`. `rt_thread_resume` of a thread that is not suspended fails,
and its node is removed all the same. -/
def scan : Wqueues ι n :=
  match w.nodes q with
  | [] => w
  | t :: _ => { w.rtWqueueRemove q t with suspended := update w.suspended t false }

/-- The next step of `rt_wqueue_wakeup`, and where it goes on, if it has not returned. -/
def rtWqueueWakeup : WakePc → Wqueues ι n × Option WakePc
  | .check => (w, if w.nodes q = [] then none else some .scan)
  | .scan => (w.scan q, none)

/-- The next step of `rt_wqueue_wait` without a timeout, and where it goes on, if it has not
returned. A suspended thread does not return from `rt_schedule`. -/
def rtWqueueWait (t : Fin n) : WaitPc → Option (Wqueues ι n × Option WaitPc)
  | .add => some (w.rtWqueueAdd q t, some .suspend)
  | .suspend => some ({ w with suspended := update w.suspended t true }, some .schedule)
  | .schedule => if w.suspended t = true then none else some (w, some .remove)
  | .remove => some (w.rtWqueueRemove q t, none)

variable {w : Wqueues ι n} {q : ι} {t : Fin n}

theorem scan_nil (h : w.nodes q = []) : w.scan q = w := by
  unfold scan
  rw [h]

variable {rest : List (Fin n)}

theorem scan_cons (h : w.nodes q = t :: rest) :
    w.scan q =
      { nodes := update w.nodes q rest, suspended := update w.suspended t false } := by
  unfold scan rtWqueueRemove
  rw [h]
  dsimp only
  rw [erase_cons_head]

theorem nodes_scan (h : w.nodes q = t :: rest) : (w.scan q).nodes q = rest := by
  rw [scan_cons h]
  exact update_self ..

theorem suspended_scan (h : w.nodes q = t :: rest) : (w.scan q).suspended t = false := by
  rw [scan_cons h]
  exact update_self ..

theorem suspended_wakeup (pc : WakePc) (h : (w.rtWqueueWakeup q pc).1.suspended t = true) : w.suspended t = true := by
  cases pc with
  | check => exact h
  | scan =>
    change (w.scan q).suspended t = true at h
    cases hnodes : w.nodes q with
    | nil => rwa [scan_nil hnodes] at h
    | cons u rest =>
      rw [scan_cons hnodes] at h
      change update w.suspended u false t = true at h
      by_cases ht : t = u
      · rw [ht, update_self] at h
        cases h
      · rwa [update_of_ne ht] at h

theorem nodes_wakeup_of_ne {p : ι} (pc : WakePc) (hp : p ≠ q) : (w.rtWqueueWakeup q pc).1.nodes p = w.nodes p := by
  cases pc with
  | check => rfl
  | scan =>
    change (w.scan q).nodes p = w.nodes p
    cases hnodes : w.nodes q with
    | nil => rw [scan_nil hnodes]
    | cons u rest =>
      rw [scan_cons hnodes]
      exact update_of_ne hp _ _

theorem wait_other {w' : Wqueues ι n} {pc : WaitPc} {next : Option WaitPc}
    (h : w.rtWqueueWait q t pc = some (w', next)) :
    (∀ p, p ≠ q → w'.nodes p = w.nodes p) ∧ ∀ u, u ≠ t → w'.suspended u = w.suspended u := by
  cases pc with
  | add | remove =>
    cases h
    exact ⟨fun p hp => update_of_ne hp _ _, fun _ _ => rfl⟩
  | suspend =>
    cases h
    exact ⟨fun _ _ => rfl, fun u hu => update_of_ne hu _ _⟩
  | schedule =>
    unfold rtWqueueWait at h
    split_ifs at h
    cases h
    exact ⟨fun _ _ => rfl, fun _ _ => rfl⟩

end Wqueues

/-! ## The wake-up of one thread -/

/-- How far a thread in `rt_wqueue_wait` is on its way to the queue. -/
def WaitPc.waiting : WaitPc → Waiting
  | .add => .decided
  | .suspend => .listed
  | .schedule => .asleep
  | .remove => .away

/-- What the places of a device's threads mean for one of its wait queues. -/
structure Places (P : Type) where
  /-- The way of a thread to the queue. -/
  waiting : P → Waiting
  /-- The part of a thread in a wake-up of the queue. -/
  wakes : P → Option WakePc

namespace Places

variable {P ι : Type} {n : ℕ}

section

variable (A : Places P) (q : ι) (r : Fin n) (pc : Fin n → P) (w : Wqueues ι n) (ready : Prop)

/-- What the wake-up of the thread `r` depends on. -/
def wakeup : Wakeup where
  waiter := A.waiting (pc r)
  onList := r ∈ w.nodes q
  stopped := w.suspended r = true
  ready := ready
  looking := ∃ t, A.wakes (pc t) = some .check
  taking := ∃ t, A.wakes (pc t) = some .scan

/-- Only `r` is on the queue, and its wake-up is covered. -/
structure Kept : Prop where
  nodes : ∀ u ∈ w.nodes q, u = r
  covered : (A.wakeup q r pc w ready).Covered

end

namespace Kept

variable {A : Places P} {q : ι} {r t : Fin n} {pc : Fin n → P} {w w' : Wqueues ι n} {ready ready' : Prop}
  {p p₀ next : P}

theorem wakes_update {c : WakePc} (hkeep : A.wakes (pc t) = some c → A.wakes p = some c)
    (h : ∃ u, A.wakes (pc u) = some c) : ∃ u, A.wakes (update pc t p u) = some c := by
  obtain ⟨u, hu⟩ := h
  by_cases hut : u = t
  · subst hut
    exact ⟨u, by rw [update_self]; exact hkeep hu⟩
  · exact ⟨u, by rw [update_of_ne hut]; exact hu⟩

theorem away (hnodes : ∀ u ∈ w'.nodes q, u = r) (hp : A.waiting p = .away) :
    A.Kept q r (update pc r p) w' ready' := by
  refine ⟨hnodes, Wakeup.Covered.of_away ?_⟩
  change A.waiting (update pc r p r) = .away
  rw [update_self, hp]

section

variable (h : A.Kept q r pc w ready)
include h

theorem decides (hp : A.waiting p = .decided) (hready : ¬ready') :
    A.Kept q r (update pc r p) w ready' := by
  refine ⟨h.nodes, h.covered.step (.decide ?_ hready)⟩
  change A.waiting (update pc r p r) = .decided
  rw [update_self, hp]

theorem other (hpc : pc t = p₀) (hp : A.waiting p = A.waiting p₀)
    (hkeep : ∀ c, A.wakes p₀ = some c → A.wakes p = some c) (hnodes : w'.nodes q = w.nodes q)
    (hsuspended : w'.suspended r = true → w.suspended r = true)
    (hready : ready' → ready ∨ A.wakes p = some .check) : A.Kept q r (update pc t p) w' ready' := by
  refine ⟨fun u hu => h.nodes u (hnodes ▸ hu), h.covered.step (.other ?_ ?_ hsuspended ?_ ?_ ?_)⟩
  · change A.waiting (update pc t p r) = A.waiting (pc r)
    by_cases hr : r = t
    · rw [hr, update_self, hpc, hp]
    · rw [update_of_ne hr]
  · intro hon
    change r ∈ w'.nodes q
    rw [hnodes]
    exact hon
  · refine fun hs => (hready hs).imp id fun hcheck => ⟨t, ?_⟩
    rw [update_self, hcheck]
  · exact wakes_update (hpc ▸ hkeep .check)
  · exact wakes_update (hpc ▸ hkeep .scan)

theorem nodes_cases : w.nodes q = [] ∨ ∃ rest, w.nodes q = r :: rest ∧ ∀ u ∈ rest, u = r := by
  have hmem := h.nodes
  cases hnodes : w.nodes q with
  | nil => exact Or.inl rfl
  | cons u rest =>
    rw [hnodes] at hmem
    exact Or.inr ⟨rest, by rw [hmem u mem_cons_self], fun v hv => hmem v (mem_cons_of_mem _ hv)⟩

theorem not_lost :
    ¬(A.waiting (pc r) = .asleep ∧ w.suspended r = true ∧ ready ∧ ∀ t, A.wakes (pc t) = none) := by
  rintro ⟨hasleep, hstopped, hready, hnone⟩
  refine h.covered.not_lost ⟨hasleep, hstopped, hready, ?_, ?_⟩
  · rintro ⟨t, ht⟩
    rw [hnone t] at ht
    cases ht
  · rintro ⟨t, ht⟩
    rw [hnone t] at ht
    cases ht

end

variable [DecidableEq ι]

/-- A section of `rt_wqueue_wait` is a step of the wake-up. -/
theorem wait {c : WaitPc} {o : Option WaitPc} {again : WaitPc → P} (h : A.Kept q r pc w ready)
    (hwait : w.rtWqueueWait q r c = some (w', o)) (hpc : pc r = p₀) (hp : A.waiting p₀ = c.waiting)
    (hwakes : A.wakes p₀ = none) (hagain : ∀ c, A.waiting (again c) = c.waiting) (hnext : A.waiting next = .away) :
    A.Kept q r (update pc r (o.elim next again)) w' ready := by
  have hc : A.waiting (pc r) = c.waiting := hpc ▸ hp
  have hkeep : ∀ (p : P) (c : WakePc), A.wakes (pc r) = some c → A.wakes p = some c := fun p c hc => by
    rw [hpc, hwakes] at hc
    cases hc
  have hplace : ∀ p, A.waiting (update pc r p r) = A.waiting p := fun p => by rw [update_self]
  -- By the section: the entry in the queue, the suspension, the return from the scheduler, and the removal.
  cases c with
  | add =>
    cases hwait
    have hnodes : (w.rtWqueueAdd q r).nodes q = w.nodes q ++ [r] := update_self ..
    refine ⟨fun u hu => ?_, h.covered.step (.enlist hc ((hplace _).trans (hagain .suspend)) ?_ id ?_)⟩
    · rw [hnodes, mem_append, mem_singleton] at hu
      exact hu.elim (h.nodes u) id
    · change r ∈ (w.rtWqueueAdd q r).nodes q
      rw [hnodes]
      exact mem_append_right _ (mem_singleton_self r)
    · exact wakes_update (hkeep _ .check)
  | suspend =>
    cases hwait
    refine ⟨h.nodes, h.covered.step (.stop hc ((hplace _).trans (hagain .schedule)) id id ?_ ?_)⟩
    · exact wakes_update (hkeep _ .check)
    · exact wakes_update (hkeep _ .scan)
  | schedule =>
    unfold Wqueues.rtWqueueWait at hwait
    split_ifs at hwait
    cases hwait
    exact away h.nodes (hagain .remove)
  | remove =>
    cases hwait
    have hnodes : (w.rtWqueueRemove q r).nodes q = (w.nodes q).erase r := update_self ..
    refine away (fun u hu => ?_) hnext
    rw [hnodes] at hu
    exact h.nodes u (mem_of_mem_erase hu)

theorem nodes_wakeup (h : A.Kept q r pc w ready) (c : WakePc) : ∀ u ∈ (w.rtWqueueWakeup q c).1.nodes q, u = r := by
  cases c with
  | check => exact h.nodes
  | scan =>
    change ∀ u ∈ (w.scan q).nodes q, u = r
    rcases h.nodes_cases with hnil | ⟨rest, hcons, hrest⟩
    · rw [Wqueues.scan_nil hnil]
      exact h.nodes
    · rw [Wqueues.nodes_scan hcons]
      exact hrest

/-- A step of `rt_wqueue_wakeup`. It does not look at the queue while `r` is on its way there and
something is available, unless another thread will; and it does not take `r` from the queue before
`r` is suspended. -/
theorem wake {c : WakePc} {again : WakePc → P} (h : A.Kept q r pc w ready) (hpc : pc t = p₀)
    (hwakes : A.wakes p₀ = some c) (hnext : A.waiting next = .away) (hagain : ∀ c, A.waiting (again c) = .away)
    (hscan : A.wakes (again .scan) = some .scan)
    (hlook : c = .check → A.waiting (pc r) = .decided → ready → ∃ u, u ≠ t ∧ A.wakes (pc u) = some .check)
    (htake : c = .scan → A.waiting (pc r) ≠ .listed) :
    A.Kept q r (update pc t ((w.rtWqueueWakeup q c).2.elim next again)) (w.rtWqueueWakeup q c).1 ready := by
  by_cases hr : r = t
  · subst hr
    refine away (h.nodes_wakeup c) ?_
    cases (w.rtWqueueWakeup q c).2 with
    | none => exact hnext
    | some c' => exact hagain c'
  have hplace : ∀ p, A.waiting (update pc t p r) = A.waiting (pc r) := fun p => by
    rw [update_of_ne hr]
  refine ⟨h.nodes_wakeup c, h.covered.step ?_⟩
  cases c with
  | check =>
    refine .look (hplace _) Iff.rfl id id ?_ ?_
    · -- `r` is on the queue, so the thread goes on to take it from there.
      intro hon
      have hne : w.nodes q ≠ [] := ne_nil_of_mem hon
      refine ⟨t, ?_⟩
      change A.wakes (update pc t ((if w.nodes q = [] then none else some WakePc.scan).elim next again) t) = some .scan
      rw [update_self, if_neg hne]
      exact hscan
    · intro hdecided hready
      obtain ⟨u, hu, hlooking⟩ := hlook rfl hdecided hready
      exact ⟨u, by rw [update_of_ne hu]; exact hlooking⟩
  | scan =>
    refine .take (hplace _) (htake rfl) (Wqueues.suspended_wakeup .scan) ?_ id ?_
    · intro hon hstopped
      change r ∈ w.nodes q at hon
      change (w.scan q).suspended r = true at hstopped
      rcases h.nodes_cases with hnil | ⟨rest, hcons, -⟩
      · rw [hnil] at hon
        cases hon
      · rw [Wqueues.suspended_scan hcons] at hstopped
        cases hstopped
    · refine wakes_update fun hcheck => ?_
      rw [hpc, hwakes] at hcheck
      cases hcheck

end Kept

end Places

end RtThread
