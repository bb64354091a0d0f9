import RtThread.Kernel.Model
import RtThread.Lib.Run
import RtThread.Lib.Wakeup

/-!
# Work queues

A work queue is a list of work items and a thread, the worker, that takes them from the list and calls
their functions. The model of `components/drivers/src/workqueue.c` has the links of the list, the
places of the worker, and those of any number of threads and interrupts that submit and cancel items.
A submission that finds no current item ends with a call of `rt_thread_resume`, which looks at the
state of the worker and then puts it on the ready list; the queue is not locked meanwhile. The
semaphore that `rt_workqueue_cancel_work_sync` waits for is left out.
-/

namespace RtThread

open Lib Function List

/-- `struct rt_workqueue`, with the links of its list head and of the work items. A pointer to a work
item is the node that it is the entry of. -/
structure Workqueue (W : Type) where
  links : Links (Node Unit W)
  current : Option (Node Unit W)

namespace Workqueue

variable {W : Type} [DecidableEq W] (q : Workqueue W)

/-- The section of `rt_workqueue_dowork` and of `rt_workqueue_critical_work`: the queue, what the
function returns, and whether it goes on to resume the worker. -/
def submit (work : W) : Workqueue W × ℤ × Bool :=
  if q.current = some (.item work) then (q, -RT_EBUSY, false)
  else
    let links := rtListRemove q.links (.item work)
    let links := rtListInsertAfter links (links.prev (.head ())) (.item work)
    ({ q with links := links }, RT_EOK, decide (q.current = none))

/-- `rt_workqueue_dowork`. -/
def rtWorkqueueDowork (work : W) : Workqueue W × ℤ × Bool := q.submit work

/-- `rt_workqueue_critical_work`, which puts the item at the end of the list as well. -/
def rtWorkqueueCriticalWork (work : W) : Workqueue W × ℤ × Bool := q.submit work

/-- `rt_workqueue_cancel_work`: the current item is busy, any other leaves the list. -/
def rtWorkqueueCancelWork (work : W) : Workqueue W × ℤ :=
  if q.current = some (.item work) then (q, -RT_EBUSY)
  else ({ q with links := rtListRemove q.links (.item work) }, RT_EOK)

/-- The section in which the worker takes the first item. -/
def take : Workqueue W :=
  let work := q.links.next (.head ())
  { links := rtListRemove q.links work, current := some work }

end Workqueue

/-- Where the worker is. -/
inductive WorkerPc
  | test
  /-- It has found the list empty. -/
  | suspend
  | schedule
  | take
  /-- In the function of the current item. -/
  | running
  /-- It is going to acknowledge the completion. -/
  | ack
  deriving DecidableEq

/-- Where a thread or an interrupt is that submits items. -/
inductive ResumePc
  | idle
  /-- It has submitted an item, and is going to look at the state of the worker. -/
  | look
  /-- It has found the worker suspended, and is going to make it ready. -/
  | insert
  deriving DecidableEq

/-- A start of the worker: what it takes for a work item, and whether that had been submitted and
neither executed nor cancelled since. -/
structure WorkStart (W : Type) where
  work : Node Unit W
  pending : Bool

/-- A work queue, its worker, and the threads and interrupts `τ` that use it, with the items that
have been submitted and neither executed nor cancelled since, and the starts of the worker. -/
structure WorkSys (W τ : Type) where
  queue : Workqueue W
  worker : WorkerPc
  suspended : Bool
  pc : τ → ResumePc
  pending : W → Bool
  starts : List (WorkStart W)

/-- A step: a call with its section, the next step of a call of `rt_thread_resume`, or the next step
of the worker. -/
inductive WorkAct (W τ : Type)
  | dowork (t : τ) (work : W)
  | criticalWork (t : τ) (work : W)
  | cancelWork (work : W)
  | resume (t : τ)
  | worker

namespace WorkSys

variable {W τ : Type} [DecidableEq W] [DecidableEq τ] (s : WorkSys W τ)

/-- The section of a submission has been passed. -/
def submitted (t : τ) (work : W) (r : Workqueue W × ℤ × Bool) : WorkSys W τ :=
  { s with
    queue := r.1
    pc := if r.2.2 = true then update s.pc t .look else s.pc
    pending := if r.2.1 = RT_EOK then update s.pending work true else s.pending }

/-- The section of a cancellation has been passed. -/
def cancelled (work : W) (r : Workqueue W × ℤ) : WorkSys W τ :=
  { s with
    queue := r.1
    pending := if r.2 = RT_EOK then update s.pending work false else s.pending }

/-- The next step of `rt_thread_resume` of the worker. -/
def resume (t : τ) : Option (WorkSys W τ) :=
  match s.pc t with
  | .idle => none
  | .look => some { s with pc := update s.pc t (if s.suspended = true then .insert else .idle) }
  | .insert => some { s with pc := update s.pc t .idle, suspended := false }

/-- The node is an item that has been submitted and not yet taken. -/
def isPending : Node Unit W → Bool
  | .head _ => false
  | .item work => s.pending work

/-- The worker has taken the first node of the list. -/
def started : WorkSys W τ :=
  let work := s.queue.links.next (.head ())
  { s with
    queue := s.queue.take
    worker := .running
    pending := fun w => if work = .item w then false else s.pending w
    starts := s.starts ++ [⟨work, s.isPending work⟩] }

/-- The next step of the worker. It is not scheduled while it is suspended, and it does not return
from what it finds as the function of the list head. -/
def runWorker : Option (WorkSys W τ) :=
  match s.worker with
  | .test => some { s with worker := if rtListIsempty s.queue.links (.head ()) = true then .suspend else .take }
  | .suspend => some { s with worker := .schedule, suspended := true }
  | .schedule => if s.suspended = true then none else some { s with worker := .take }
  | .take => some s.started
  | .running =>
    match s.queue.current with
    | some (.item _) => some { s with queue := { s.queue with current := none }, worker := .ack }
    | _ => none
  | .ack => some { s with worker := .test }

end WorkSys

/-- The state after the step, if it can be taken. -/
def WorkAct.exec {W τ : Type} [DecidableEq W] [DecidableEq τ] (s : WorkSys W τ) : WorkAct W τ → Option (WorkSys W τ)
  | .dowork t work => if s.pc t = .idle then some (s.submitted t work (s.queue.rtWorkqueueDowork work)) else none
  | .criticalWork t work =>
    if s.pc t = .idle then some (s.submitted t work (s.queue.rtWorkqueueCriticalWork work)) else none
  | .cancelWork work => some (s.cancelled work (s.queue.rtWorkqueueCancelWork work))
  | .resume t => s.resume t
  | .worker => s.runWorker

/-- The state after `rt_workqueue_create`, with all work items initialised. -/
def WorkSys.created (W τ : Type) : WorkSys W τ where
  queue := ⟨⟨id, id⟩, none⟩
  worker := .test
  suspended := false
  pc := fun _ => .idle
  pending := fun _ => false
  starts := []

/-- The runs of a work queue that has just been created. -/
def workSystem (W τ : Type) [DecidableEq W] [DecidableEq τ] : System (WorkSys W τ) (WorkAct W τ) where
  init s := s = WorkSys.created W τ
  step s a s' := a.exec s = some s'

/-! ## What the sections do to the list -/

section Sections

variable {W : Type} [DecidableEq W] {q : Workqueue W} {L : Unit → List W} {work : W}

theorem Workqueue.isempty_iff (h : Rings q.links L) : rtListIsempty q.links (.head ()) = true ↔ L () = [] :=
  rtListIsempty_head h

theorem Workqueue.rings_submit (h : Rings q.links L) (hcurrent : q.current ≠ some (.item work)) :
    ∃ L', Rings (q.submit work).1.links L' ∧ L' () = (L ()).erase work ++ [work] := by
  have hremoved := rings_rtListRemove h work
  have hnot : ∀ u, work ∉ (L u).erase work := fun u => (h.nodup u).not_mem_erase
  have hring := hremoved.ring ()
  have hhead : Node.head () ∈ Node.all () ((L ()).erase work) := Node.head_mem_all.mpr rfl
  have hlast := hremoved.prev_mem hhead
  have hinserted := rings_rtListInsertAfter hremoved hnot (append_nil ((L ()).erase work)).symm hlast
    (hring.next_prev hhead)
  have hlinks : (q.submit work).1.links = rtListInsertAfter (rtListRemove q.links (.item work))
      ((rtListRemove q.links (.item work)).prev (.head ())) (.item work) := by
    unfold submit
    rw [if_neg hcurrent]
  rw [hlinks]
  exact ⟨_, hinserted, update_self ..⟩

theorem Workqueue.rings_cancel (h : Rings q.links L) (hcurrent : q.current ≠ some (.item work)) :
    Rings (q.rtWorkqueueCancelWork work).1.links fun u => (L u).erase work := by
  unfold rtWorkqueueCancelWork
  rw [if_neg hcurrent]
  exact rings_rtListRemove h work

theorem Workqueue.rings_take {rest : List W} (h : Rings q.links L) (hcons : L () = work :: rest) :
    q.links.next (.head ()) = .item work ∧ ∃ L', Rings q.take.links L' ∧ L' () = rest := by
  have hnext : q.links.next (.head ()) = .item work := by
    rw [h.next_head, hcons]
    rfl
  refine ⟨hnext, fun u => (L u).erase work, ?_, ?_⟩
  · unfold take
    rw [hnext]
    exact rings_rtListRemove h work
  · change (L ()).erase work = rest
    rw [hcons, erase_cons_head]

end Sections

/-! ## Execution -/

section Execution

variable {W τ : Type} {s s' : WorkSys W τ}

/-- The list holds exactly the items that have been submitted and neither executed nor cancelled
since, and all that the worker has started were such items. -/
structure WorkSys.Executes (s : WorkSys W τ) : Prop where
  listed : ∃ L, Rings s.queue.links L ∧ ∀ work, work ∈ L () ↔ s.pending work = true
  starts : ∀ e ∈ s.starts, e.pending = true

/-- The worker is going to take an item without looking at the list again. -/
def WorkSys.committed (s : WorkSys W τ) : Prop :=
  s.worker = .take ∨ s.worker = .schedule ∧ s.suspended = false

instance (s : WorkSys W τ) : Decidable s.committed :=
  inferInstanceAs (Decidable (s.worker = .take ∨ s.worker = .schedule ∧ s.suspended = false))

/-- The last item is not cancelled once the worker is going to take one, and a suspended worker is not
made ready while the list is empty. -/
def WorkAct.unraced [DecidableEq W] (s : WorkSys W τ) : WorkAct W τ → Prop
  | .dowork _ _ | .criticalWork _ _ | .worker => True
  | .cancelWork work => s.committed → s.queue.links.next (.head ()) = .item work →
    s.queue.links.next (.item work) ≠ .head ()
  | .resume t => s.pc t = .insert → s.worker = .schedule → s.suspended = true →
    rtListIsempty s.queue.links (.head ()) = false

instance [DecidableEq W] (s : WorkSys W τ) (a : WorkAct W τ) : Decidable (a.unraced s) := by
  cases a <;> unfold WorkAct.unraced <;> infer_instance

/-- The list `L` holds the pending items, and it is not empty once the worker is going to take one. -/
structure WorkInv (s : WorkSys W τ) (L : Unit → List W) : Prop where
  rings : Rings s.queue.links L
  listed : ∀ work, work ∈ L () ↔ s.pending work = true
  starts : ∀ e ∈ s.starts, e.pending = true
  committed : s.committed → L () ≠ []

namespace WorkInv

variable {L : Unit → List W} {work : W} {t : τ}

theorem created : WorkInv (WorkSys.created W τ) fun _ => [] := by
  refine ⟨.empty, fun work => ?_, ?_, ?_⟩
  · change work ∈ [] ↔ false = true
    simp
  · intro e he
    cases he
  · rintro (hworker | ⟨hworker, -⟩) <;> cases hworker

theorem same (h : WorkInv s L) (hlinks : s'.queue.links = s.queue.links) (hpending : s'.pending = s.pending)
    (hstarts : s'.starts = s.starts) (hcommitted : s'.committed → s.committed ∨ L () ≠ []) : WorkInv s' L := by
  refine ⟨hlinks ▸ h.rings, hpending ▸ h.listed, hstarts ▸ h.starts, fun hc => ?_⟩
  exact (hcommitted hc).elim h.committed id

variable [DecidableEq W]

/-- Cancelling takes the item off the list. -/
theorem cancelled (h : WorkInv s L) (hunraced : (WorkAct.cancelWork (τ := τ) work).unraced s) :
    ∃ L', WorkInv (s.cancelled work (s.queue.rtWorkqueueCancelWork work)) L' := by
  by_cases hcurrent : s.queue.current = some (.item work)
  · have hr : s.queue.rtWorkqueueCancelWork work = (s.queue, -RT_EBUSY) := if_pos hcurrent
    refine ⟨L, h.same ?_ ?_ rfl .inl⟩
    · rw [hr]
      rfl
    · rw [hr]
      rfl
  · have hret : (s.queue.rtWorkqueueCancelWork work).2 = RT_EOK := by
      unfold Workqueue.rtWorkqueueCancelWork
      rw [if_neg hcurrent]
    refine ⟨_, Workqueue.rings_cancel h.rings hcurrent, fun w => ?_, h.starts, fun hc hnil => ?_⟩
    · change w ∈ (L ()).erase work ↔ (if (s.queue.rtWorkqueueCancelWork work).2 = RT_EOK then _ else s.pending) w = true
      rw [if_pos hret, (h.rings.nodup ()).mem_erase_iff, h.listed]
      by_cases hw : w = work
      · rw [hw, update_self]
        exact iff_of_false (fun hne => hne.1 rfl) Bool.false_ne_true
      · rw [update_of_ne hw]
        exact and_iff_right hw
    · -- The list has become empty, so the item was the only one.
      have hne : L () ≠ [] := h.committed hc
      have honly : L () = [work] := by
        rcases erase_eq_nil_iff.mp hnil with hnil | honly
        · exact absurd hnil hne
        · exact honly
      refine hunraced hc ?_ ?_
      · rw [h.rings.next_head, honly]
        rfl
      · have hsplit : L () = [] ++ work :: [] := honly
        exact h.rings.next_item hsplit

theorem started (h : WorkInv s L) (htake : s.worker = .take) : ∃ L', WorkInv s.started L' := by
  obtain ⟨work, rest, hcons⟩ := exists_cons_of_ne_nil (h.committed (.inl htake))
  obtain ⟨hnext, L', hrings, hrest⟩ := Workqueue.rings_take h.rings hcons
  have hnodup := h.rings.nodup ()
  rw [hcons, nodup_cons] at hnodup
  refine ⟨L', hrings, fun w => ?_, fun e he => ?_, ?_⟩
  · change w ∈ L' () ↔ (if s.queue.links.next (.head ()) = .item w then false else s.pending w) = true
    rw [hrest, hnext]
    by_cases hw : work = w
    · subst hw
      rw [if_pos rfl]
      exact iff_of_false hnodup.1 Bool.false_ne_true
    · rw [if_neg fun heq => hw (by injection heq), ← h.listed, hcons, mem_cons]
      exact (or_iff_right (Ne.symm hw)).symm
  · change e ∈ s.starts ++ [⟨_, s.isPending (s.queue.links.next (.head ()))⟩] at he
    rw [hnext] at he
    rcases mem_append.mp he with hold | hnew
    · exact h.starts e hold
    · rw [mem_singleton.mp hnew]
      exact (h.listed work).mp (hcons ▸ mem_cons_self)
  · rintro (hworker | ⟨hworker, -⟩) <;> cases hworker

/-- A section of the worker keeps the list. -/
theorem runWorker (h : WorkInv s L) (hs : s.runWorker = some s') : ∃ L', WorkInv s' L' := by
  unfold WorkSys.runWorker at hs
  cases hworker : s.worker with
  | test =>
    rw [hworker] at hs
    cases hs
    refine ⟨L, h.same rfl rfl rfl fun hc => .inr fun hnil => ?_⟩
    rw [(Workqueue.isempty_iff h.rings).mpr hnil] at hc
    rcases hc with hc | ⟨hc, -⟩ <;> cases hc
  | suspend =>
    rw [hworker] at hs
    cases hs
    refine ⟨L, h.same rfl rfl rfl ?_⟩
    rintro (hc | ⟨-, hc⟩) <;> cases hc
  | schedule =>
    rw [hworker] at hs
    dsimp only at hs
    split_ifs at hs with hsuspended
    cases hs
    exact ⟨L, h.same rfl rfl rfl fun _ => .inl (.inr ⟨hworker, Bool.eq_false_of_not_eq_true hsuspended⟩)⟩
  | take =>
    rw [hworker] at hs
    cases hs
    exact h.started hworker
  | running =>
    rw [hworker] at hs
    dsimp only at hs
    split at hs
    · cases hs
      refine ⟨L, h.same rfl rfl rfl ?_⟩
      rintro (hc | ⟨hc, -⟩) <;> cases hc
    · cases hs
  | ack =>
    rw [hworker] at hs
    cases hs
    refine ⟨L, h.same rfl rfl rfl ?_⟩
    rintro (hc | ⟨hc, -⟩) <;> cases hc

variable [DecidableEq τ]

theorem submitted (h : WorkInv s L) (t : τ) (work : W) : ∃ L', WorkInv (s.submitted t work (s.queue.submit work)) L' := by
  by_cases hcurrent : s.queue.current = some (.item work)
  · -- The item is being executed, and the call returns at once.
    have hr : s.queue.submit work = (s.queue, -RT_EBUSY, false) := if_pos hcurrent
    refine ⟨L, h.same ?_ ?_ rfl .inl⟩
    · rw [hr]
      rfl
    · rw [hr]
      rfl
  · have hret : (s.queue.submit work).2.1 = RT_EOK := by
      unfold Workqueue.submit
      rw [if_neg hcurrent]
    obtain ⟨L', hrings, hL⟩ := Workqueue.rings_submit h.rings hcurrent
    refine ⟨L', hrings, fun w => ?_, h.starts, fun _ => ?_⟩
    · change w ∈ L' () ↔ (if (s.queue.submit work).2.1 = RT_EOK then _ else s.pending) w = true
      rw [hL, if_pos hret, mem_append, mem_singleton]
      by_cases hw : w = work
      · rw [hw, update_self]
        exact iff_of_true (.inr rfl) rfl
      · rw [update_of_ne hw, ← h.listed, mem_erase_of_ne hw]
        exact or_iff_left hw
    · rw [hL]
      exact append_ne_nil_of_right_ne_nil _ (cons_ne_nil _ _)

theorem resume (h : WorkInv s L) (hunraced : (WorkAct.resume (W := W) t).unraced s) (hs : s.resume t = some s') :
    WorkInv s' L := by
  unfold WorkSys.resume at hs
  cases hpc : s.pc t with
  | idle =>
    rw [hpc] at hs
    cases hs
  | look =>
    rw [hpc] at hs
    cases hs
    exact h.same rfl rfl rfl .inl
  | insert =>
    rw [hpc] at hs
    cases hs
    refine h.same rfl rfl rfl fun hc => ?_
    rcases hc with htake | ⟨hschedule, -⟩
    · exact .inl (.inl htake)
    · cases hsuspended : s.suspended with
      | false => exact .inl (.inr ⟨hschedule, hsuspended⟩)
      | true =>
        refine .inr fun hnil => ?_
        have hfound := hunraced hpc hschedule hsuspended
        rw [(Workqueue.isempty_iff h.rings).mpr hnil] at hfound
        cases hfound

theorem step {a : WorkAct W τ} (h : WorkInv s L) (hunraced : a.unraced s) (hs : a.exec s = some s') :
    ∃ L', WorkInv s' L' := by
  cases a with
  | dowork t work | criticalWork t work =>
    unfold WorkAct.exec at hs
    dsimp only at hs
    split_ifs at hs
    cases hs
    exact h.submitted t work
  | cancelWork work =>
    cases hs
    exact h.cancelled hunraced
  | resume t => exact ⟨L, h.resume hunraced hs⟩
  | worker => exact h.runWorker hs

end WorkInv

end Execution

section Wakeup

variable {W τ : Type} {s s' : WorkSys W τ}

/-- The place of the worker on its way to sleep. -/
def WorkerPc.waiting : WorkerPc → Waiting
  | .suspend => .decided
  | .schedule => .asleep
  | .test | .take | .running | .ack => .away

variable [DecidableEq W]

/-- The worker is suspended beside an item, and nobody is going to resume it. -/
def WorkSys.Stranded (s : WorkSys W τ) : Prop :=
  s.suspended = true ∧ rtListIsempty s.queue.links (.head ()) = false ∧ ∀ t, s.pc t = .idle

instance [Fintype τ] (s : WorkSys W τ) : Decidable s.Stranded := by
  unfold WorkSys.Stranded; infer_instance

/-- Nobody looks at the state of the worker between its look at the empty list and its suspension
when there is an item by then, unless another is going to look. -/
def WorkAct.timely (s : WorkSys W τ) : WorkAct W τ → Prop
  | .dowork _ _ | .criticalWork _ _ | .cancelWork _ | .worker => True
  | .resume t => s.pc t = .look → s.worker = .suspend → rtListIsempty s.queue.links (.head ()) = false →
    ∃ u, u ≠ t ∧ s.pc u = .look

instance [Fintype τ] [DecidableEq τ] (s : WorkSys W τ) (a : WorkAct W τ) : Decidable (a.timely s) := by
  unfold WorkAct.timely; split <;> infer_instance

/-- What the wake-up of the worker depends on. -/
def WorkSys.wakeup (s : WorkSys W τ) : Wakeup where
  waiter := s.worker.waiting
  onList := s.suspended = true
  stopped := s.suspended = true
  ready := rtListIsempty s.queue.links (.head ()) = false
  looking := ∃ t, s.pc t = .look
  taking := ∃ t, s.pc t = .insert

/-- The worker sleeps only where it should, has no current item unless it executes it, and its
wake-up is covered. -/
structure WakeInv (s : WorkSys W τ) : Prop where
  rings : ∃ L, Rings s.queue.links L
  current : s.queue.current ≠ none → s.worker = .running
  asleep : s.suspended = true → s.worker = .schedule
  covered : s.wakeup.Covered

theorem rings_rtListRemove_head {q : Links (Node Unit W)} {L : Unit → List W} (h : Rings q L) (hnil : L () = []) :
    Rings (rtListRemove q (.head ())) L := by
  have hring := h.ring ()
  rw [hnil] at hring
  obtain ⟨hnext, hprev⟩ := Ring.nil_iff.mp hring
  have hsame : rtListRemove q (.head ()) = q := by
    obtain ⟨next, prev⟩ := q
    change next (.head ()) = .head () at hnext
    change prev (.head ()) = .head () at hprev
    refine congrArg₂ Links.mk (funext fun y => ?_) (funext fun y => ?_)
    · refine (rtListRemove_next ⟨next, prev⟩ y).trans ?_
      split_ifs with h1 h2
      · rw [h1, hnext]
      · exact absurd (h2.trans hprev) h1
      · rfl
    · refine (rtListRemove_prev ⟨next, prev⟩ y).trans ?_
      split_ifs with h1 h2
      · rw [h1, hprev]
      · exact absurd (h2.trans hnext) h1
      · rfl
  rw [hsame]
  exact h

theorem Workqueue.exists_rings_take {q : Workqueue W} {L : Unit → List W} (h : Rings q.links L) :
    ∃ L', Rings q.take.links L' := by
  cases hL : L () with
  | nil =>
    refine ⟨L, ?_⟩
    unfold take
    rw [h.next_head, hL]
    exact rings_rtListRemove_head h hL
  | cons work rest =>
    obtain ⟨-, L', hrings, -⟩ := rings_take h hL
    exact ⟨L', hrings⟩

namespace WakeInv

variable {t : τ} {work : W}

theorem created : WakeInv (WorkSys.created W τ) := by
  refine ⟨⟨_, .empty⟩, ?_, ?_, Wakeup.Covered.of_away rfl⟩
  · intro hcurrent
    exact absurd rfl hcurrent
  · intro hsuspended
    cases hsuspended

theorem cancelled (h : WakeInv s) (work : W) :
    WakeInv (s.cancelled work (s.queue.rtWorkqueueCancelWork work)) := by
  obtain ⟨L, hrings⟩ := h.rings
  by_cases hcurrent : s.queue.current = some (.item work)
  · have hr : s.queue.rtWorkqueueCancelWork work = (s.queue, -RT_EBUSY) := if_pos hcurrent
    rw [hr]
    exact ⟨⟨L, hrings⟩, h.current, h.asleep, h.covered⟩
  · have hrings' := Workqueue.rings_cancel hrings hcurrent
    have hstays : (s.queue.rtWorkqueueCancelWork work).1.current = s.queue.current := by
      unfold Workqueue.rtWorkqueueCancelWork
      rw [if_neg hcurrent]
    refine ⟨⟨_, hrings'⟩, fun hc => h.current (hstays ▸ hc), h.asleep, h.covered.step (.other rfl id id ?_ id id)⟩
    -- An item that is still there was there before.
    intro hready
    refine .inl (Bool.eq_false_of_not_eq_true fun hempty => ?_)
    have hnil := (Workqueue.isempty_iff hrings).mp hempty
    have hnil' := (Workqueue.isempty_iff hrings').mpr (by rw [hnil]; rfl)
    change rtListIsempty (s.queue.rtWorkqueueCancelWork work).1.links (.head ()) = false at hready
    rw [hnil'] at hready
    cases hready

/-- A section of the worker keeps its wake-up. -/
theorem runWorker (h : WakeInv s) (hs : s.runWorker = some s') : WakeInv s' := by
  obtain ⟨L, hrings⟩ := h.rings
  have hnone : s.worker ≠ .running → s.queue.current = none := fun hne =>
    not_ne_iff.mp fun hc => hne (h.current hc)
  have hawake : s.worker ≠ .schedule → s.suspended ≠ true := fun hne hsuspended => hne (h.asleep hsuspended)
  unfold WorkSys.runWorker at hs
  cases hworker : s.worker with
  | test =>
    rw [hworker] at hs hnone hawake
    cases hs
    refine ⟨⟨L, hrings⟩, fun hc => absurd (hnone (by decide)) hc, fun hc => absurd hc (hawake (by decide)), ?_⟩
    cases hempty : rtListIsempty s.queue.links (.head ()) with
    | true =>
      refine h.covered.step (.decide rfl ?_)
      change ¬rtListIsempty s.queue.links (.head ()) = false
      rw [hempty]
      decide
    | false => exact Wakeup.Covered.of_away rfl
  | suspend =>
    rw [hworker] at hs hnone
    cases hs
    refine ⟨⟨L, hrings⟩, fun hc => absurd (hnone (by decide)) hc, fun _ => rfl, ?_⟩
    -- It is marked as suspended and goes to sleep in one section.
    let v : Wakeup := { s.wakeup with waiter := .listed, onList := True }
    have hdecided : s.wakeup.waiter = .decided := congrArg WorkerPc.waiting hworker
    have hlisted : v.Covered := h.covered.step (.enlist hdecided rfl trivial id id)
    exact hlisted.step (.stop rfl rfl (fun _ => rfl) id id id)
  | schedule =>
    rw [hworker] at hs hnone
    dsimp only at hs
    split_ifs at hs with hsuspended
    cases hs
    exact ⟨⟨L, hrings⟩, fun hc => absurd (hnone (by decide)) hc, fun hc => absurd hc hsuspended,
      Wakeup.Covered.of_away rfl⟩
  | take =>
    rw [hworker] at hs hawake
    cases hs
    exact ⟨Workqueue.exists_rings_take hrings, fun _ => rfl, fun hc => absurd hc (hawake (by decide)),
      Wakeup.Covered.of_away rfl⟩
  | running =>
    rw [hworker] at hs hawake
    dsimp only at hs
    split at hs
    · cases hs
      exact ⟨⟨L, hrings⟩, fun hc => absurd rfl hc, fun hc => absurd hc (hawake (by decide)),
        Wakeup.Covered.of_away rfl⟩
    · cases hs
  | ack =>
    rw [hworker] at hs hnone hawake
    cases hs
    exact ⟨⟨L, hrings⟩, fun hc => absurd (hnone (by decide)) hc, fun hc => absurd hc (hawake (by decide)),
      Wakeup.Covered.of_away rfl⟩

variable [DecidableEq τ]

/-- A submission keeps the wake-up of the worker. -/
theorem submitted (h : WakeInv s) (hidle : s.pc t = .idle) (work : W) :
    WakeInv (s.submitted t work (s.queue.submit work)) := by
  obtain ⟨L, hrings⟩ := h.rings
  by_cases hcurrent : s.queue.current = some (.item work)
  · have hr : s.queue.submit work = (s.queue, -RT_EBUSY, false) := if_pos hcurrent
    rw [hr]
    exact ⟨⟨L, hrings⟩, h.current, h.asleep, h.covered⟩
  obtain ⟨L', hrings', -⟩ := Workqueue.rings_submit hrings hcurrent
  have hstays : (s.queue.submit work).1.current = s.queue.current := by
    unfold Workqueue.submit
    rw [if_neg hcurrent]
  have hresumes : (s.queue.submit work).2.2 = decide (s.queue.current = none) := by
    unfold Workqueue.submit
    rw [if_neg hcurrent]
  refine ⟨⟨L', hrings'⟩, fun hc => h.current (hstays ▸ hc), h.asleep, ?_⟩
  by_cases hnone : s.queue.current = none
  · -- The caller is going to look at the state of the worker.
    have hpc : (s.submitted t work (s.queue.submit work)).pc = update s.pc t .look :=
      if_pos (hresumes.trans (decide_eq_true hnone))
    have hlooks : ∃ u, (s.submitted t work (s.queue.submit work)).pc u = .look :=
      ⟨t, by rw [hpc, update_self]⟩
    refine h.covered.step (.other rfl id id (fun _ => .inr hlooks) (fun _ => hlooks) ?_)
    rintro ⟨u, hu⟩
    have hut : u ≠ t := by
      rintro rfl
      rw [hidle] at hu
      cases hu
    exact ⟨u, by rw [hpc, update_of_ne hut]; exact hu⟩
  · -- The worker is in the function of an item, and will look at the list.
    refine Wakeup.Covered.of_away ?_
    change s.worker.waiting = .away
    rw [h.current hnone]
    rfl

/-- So does the resumption that follows it. -/
theorem resume (h : WakeInv s) (htimely : (WorkAct.resume (W := W) t).timely s) (hs : s.resume t = some s') :
    WakeInv s' := by
  unfold WorkSys.resume at hs
  cases hpc : s.pc t with
  | idle =>
    rw [hpc] at hs
    cases hs
  | look =>
    rw [hpc] at hs
    cases hs
    refine ⟨h.rings, h.current, h.asleep, h.covered.step (.look rfl .rfl id id ?_ ?_)⟩
    · intro hsuspended
      exact ⟨t, (update_self ..).trans (if_pos hsuspended)⟩
    · intro hdecided hready
      have hworker : s.worker = .suspend := by
        change s.worker.waiting = .decided at hdecided
        cases hw : s.worker <;> rw [hw] at hdecided <;> first | rfl | cases hdecided
      obtain ⟨u, hut, hu⟩ := htimely hpc hworker hready
      exact ⟨u, (update_of_ne hut _ _).trans hu⟩
  | insert =>
    rw [hpc] at hs
    cases hs
    refine ⟨h.rings, h.current, fun hc => absurd hc Bool.false_ne_true,
      h.covered.step (.take rfl ?_ (fun hc => absurd hc Bool.false_ne_true) (fun _ => Bool.false_ne_true) id ?_)⟩
    · change s.worker.waiting ≠ .listed
      cases s.worker <;> decide
    · rintro ⟨u, hu⟩
      have hut : u ≠ t := by
        rintro rfl
        rw [hpc] at hu
        cases hu
      exact ⟨u, (update_of_ne hut _ _).trans hu⟩

theorem step {a : WorkAct W τ} (h : WakeInv s) (htimely : a.timely s) (hs : a.exec s = some s') : WakeInv s' := by
  cases a with
  | dowork t work | criticalWork t work =>
    unfold WorkAct.exec at hs
    dsimp only at hs
    split_ifs at hs with hidle
    cases hs
    exact h.submitted hidle work
  | cancelWork work =>
    cases hs
    exact h.cancelled work
  | resume t => exact h.resume htimely hs
  | worker => exact h.runWorker hs

end WakeInv

/-- The worker is never suspended beside an item with nobody going to resume it, in every run in which
nobody looks at its state between its look at the empty list and its suspension when there is an item
by then, unless another is going to look. -/
theorem workqueue_wakeup [DecidableEq τ] (s : WorkSys W τ)
    (h : Reachable (workSystem W τ) (fun s a => a.timely s) s) : ¬s.Stranded := by
  have hinv : WakeInv s := by
    refine h.invariant ?_ ?_
    · rintro s rfl
      exact WakeInv.created
    · exact fun s a s' h hok hs => h.step hok hs
  rintro ⟨hsuspended, hready, hidle⟩
  refine hinv.covered.not_lost ⟨congrArg WorkerPc.waiting (hinv.asleep hsuspended), hsuspended, hready, ?_, ?_⟩
  · rintro ⟨t, ht⟩
    rw [hidle t] at ht
    cases ht
  · rintro ⟨t, ht⟩
    rw [hidle t] at ht
    cases ht

end Wakeup

/-- A worker that is suspended beside an item, with a submitter that is going to resume it. -/
theorem workqueue_wakeup_run : ∃ s, Reachable (workSystem (Fin 1) (Fin 1)) (fun s a => a.timely s) s ∧
    s.suspended = true ∧ ¬s.Stranded := by
  refine exists_reachable_and ?_ fun s hs _ => workqueue_wakeup s hs
  refine exists_reachable_of_exec rfl [.worker, .worker, .dowork 0 0, .resume 0] ?_
  decide

/-- An item is submitted between the worker's look at the list and its suspension. -/
theorem worker_stranded : ¬∀ s, Reachable (workSystem (Fin 1) (Fin 1)) always s → ¬s.Stranded := by
  have hrun : ∃ s, Reachable (workSystem (Fin 1) (Fin 1)) always s ∧ s.Stranded := by
    refine exists_reachable_of_exec rfl [.worker, .dowork 0 0, .resume 0, .worker] ?_
    decide
  obtain ⟨s, hs, hstranded⟩ := hrun
  exact fun hall => hall s hs hstranded

end RtThread
