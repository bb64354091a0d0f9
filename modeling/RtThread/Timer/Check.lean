import RtThread.Kernel.Timers
import RtThread.Lib.Run

/-!
# The check of the timer list

`rt_timer_check` takes the first timer off the list while it is due, calls its timeout function, and
then starts the timer again if it is periodic and still has the flag `RT_TIMER_FLAG_ACTIVATED`, and
clears the flag otherwise. A timeout function is modelled by the list of the timer operations it
performs, which may depend on the timers and on the number of the call.

`rt_timer_detach` leaves the flag of the timer it takes off the list, and `rt_timer_check` clears the
flag of a one-shot timer that has been started by its own timeout function; `rt_timer_stop` then
refuses to stop it.
-/

namespace RtThread

open Lib Function

/-- The timers of one timer list. -/
structure AppTimers (n : ℕ) extends Timers n where
  /-- `RT_TIMER_FLAG_PERIODIC`. -/
  periodic : Fin n → Bool

/-- The commands of `rt_timer_control`. -/
inductive TimerCtrl
  | getTime
  | setTime (time : ℕ)
  | setOneshot
  | setPeriodic
  deriving DecidableEq

/-- What a thread or a timeout function may do to the timers. -/
inductive TimerOp (n : ℕ)
  | start (t : Fin n)
  | stop (t : Fin n)
  | detach (t : Fin n)
  | control (t : Fin n) (cmd : TimerCtrl)
  /-- The tick moves on, as it does under a timeout function that runs with interrupts on. -/
  | elapse (ticks : ℕ)
  deriving DecidableEq

/-- What the timeout functions that a check calls do: the operations of the `i`-th call, for the
timer that fires, in the state it finds. -/
def Callbacks (n : ℕ) : Type := ℕ → Fin n → AppTimers n → List (TimerOp n)

/-- The timeout functions from the next call on. -/
def Callbacks.tail {n : ℕ} (cb : Callbacks n) : Callbacks n := fun i => cb (i + 1)

variable {n : ℕ}

/-- The timer is on the list. -/
def Timers.Linked (ts : Timers n) (t : Fin n) : Prop := ts.rows.next (.item t) ≠ .item t

instance (ts : Timers n) (t : Fin n) : Decidable (ts.Linked t) :=
  inferInstanceAs (Decidable (ts.rows.next (.item t) ≠ .item t))

variable (ts : AppTimers n)

namespace AppTimers

variable (t : Fin n)

/-- `rt_timer_start`. -/
def rtTimerStart : Except Fault (AppTimers n) := do
  let timers ← RtThread.rtTimerStart ts.toTimers t
  return { ts with toTimers := timers }

/-- `rt_timer_stop`. -/
def rtTimerStop : AppTimers n :=
  { ts with toTimers := RtThread.rtTimerStop ts.toTimers t }

/-- The timer is taken off the list. -/
def remove : AppTimers n :=
  { ts with toTimers := rtTimerRemove ts.toTimers t }

/-- `rt_timer_detach`, which leaves the flags. -/
def rtTimerDetach : AppTimers n := ts.remove t

/-- `rt_timer_control`. -/
def rtTimerControl : TimerCtrl → AppTimers n
  | .getTime => ts
  | .setTime time => { ts with toTimers := rtTimerSetTime ts.toTimers t time }
  | .setOneshot => { ts with periodic := update ts.periodic t false }
  | .setPeriodic => { ts with periodic := update ts.periodic t true }

/-- The flag of a timer is cleared. -/
def clearActivated : AppTimers n :=
  { ts with toTimers := ts.toTimers.deactivate t }

/-- Time passes. -/
def elapse (ticks : ℕ) : AppTimers n := { ts with tick := add32 ts.tick ticks }

/-- One operation. -/
def run : TimerOp n → Except Fault (AppTimers n)
  | .start t => ts.rtTimerStart t
  | .stop t => .ok (ts.rtTimerStop t)
  | .detach t => .ok (ts.rtTimerDetach t)
  | .control t cmd => .ok (ts.rtTimerControl t cmd)
  | .elapse ticks => .ok (ts.elapse ticks)

/-- The operations of a timeout function. -/
def perform (ts : AppTimers n) : List (TimerOp n) → Except Fault (AppTimers n)
  | [] => .ok ts
  | op :: ops => do
    let ts ← ts.run op
    ts.perform ops

/-- The timer has timed out, which supposes that it is less than half the range of the tick late. -/
def timedOut (currentTick : ℕ) (t : Fin n) : Prop :=
  sub32 currentTick (ts.timeoutTick t) < halfTickMax

instance (ts : AppTimers n) (currentTick : ℕ) (t : Fin n) : Decidable (ts.timedOut currentTick t) :=
  inferInstanceAs (Decidable (_ < _))

/-- The time that remains until the timer is due, modulo `2^32`. -/
def remaining : ℕ := sub32 (ts.timeoutTick t) ts.tick

/-- The end of an iteration of the check, after the timeout function has returned: a periodic timer
is started again unless it has been stopped. -/
def rearm : Except Fault (AppTimers n) :=
  if ts.periodic t = true ∧ ts.activated t = true then (ts.clearActivated t).rtTimerStart t
  else .ok (ts.clearActivated t)

/-- One iteration of the check with a timer that has timed out, whose timeout function performs
`ops`. -/
def fire (ops : AppTimers n → List (TimerOp n)) (t : Fin n) : Except Fault (AppTimers n) := do
  let ts ← (ts.remove t).perform (ops (ts.remove t))
  ts.rearm t

end AppTimers

/-- A call of a timer's timeout function, and whether the timer was on the list when it was taken.
-/
structure TimerCall (n : ℕ) where
  timer : Fin n
  linked : Bool
  deriving DecidableEq

/-- The calls that a check makes, and how it ends. -/
structure Checked (n : ℕ) where
  calls : List (TimerCall n)
  outcome : Except Fault (AppTimers n)

/-- The call of the timer's timeout function, followed by the rest of the check. -/
def AppTimers.call (ops : AppTimers n → List (TimerOp n)) (t : Fin n)
    (rest : AppTimers n → Checked n) : Checked n :=
  let call := ⟨t, decide (ts.Linked t)⟩
  match ts.fire ops t with
  | .error e => ⟨[call], .error e⟩
  | .ok ts' => ⟨call :: (rest ts').calls, (rest ts').outcome⟩

/-- The loop of `rt_timer_check`, for at most `fuel` iterations. -/
def AppTimers.rtTimerCheckLoop : ℕ → Callbacks n → AppTimers n → ℕ → Checked n
  | 0, _, _, _ => ⟨[], .error .fuel⟩
  | fuel + 1, cb, ts, currentTick =>
    match ts.rows.next (.head ()) with
    | .head _ => ⟨[], .ok ts⟩
    | .item t =>
      if ts.timedOut currentTick t then
        ts.call (cb 0 t) t fun ts' => rtTimerCheckLoop fuel cb.tail ts' ts'.tick
      else ⟨[], .ok ts⟩

/-- `rt_timer_check`. -/
def AppTimers.rtTimerCheck (fuel : ℕ) (cb : Callbacks n) (ts : AppTimers n) : Checked n :=
  rtTimerCheckLoop fuel cb ts ts.tick

/-! ## The iterations of the check -/

variable {ops : AppTimers n → List (TimerOp n)}

namespace AppTimers

variable {ts ts' : AppTimers n} {t : Fin n} {cb : Callbacks n} {currentTick fuel : ℕ}

/-- The node is a timer's, and the timer has timed out. -/
def NodeTimedOut (ts : AppTimers n) (currentTick : ℕ) : Node Unit (Fin n) → Prop
  | .head _ => False
  | .item t => ts.timedOut currentTick t

theorem nodeTimedOut_cases (ts : AppTimers n) (currentTick : ℕ) (node : Node Unit (Fin n)) :
    ¬ts.NodeTimedOut currentTick node ∨ ∃ t, node = .item t ∧ ts.timedOut currentTick t := by
  cases node with
  | head _ => exact .inl id
  | item t =>
    by_cases hdue : ts.timedOut currentTick t
    · exact .inr ⟨t, rfl, hdue⟩
    · exact .inl hdue

theorem rtTimerCheckLoop_item (hfirst : ts.rows.next (.head ()) = .item t) (hdue : ts.timedOut currentTick t) :
    rtTimerCheckLoop (fuel + 1) cb ts currentTick =
      ts.call (cb 0 t) t fun ts' => rtTimerCheckLoop fuel cb.tail ts' ts'.tick := by
  rw [rtTimerCheckLoop, hfirst]
  exact if_pos hdue

theorem rtTimerCheckLoop_end (hnot : ¬ts.NodeTimedOut currentTick (ts.rows.next (.head ()))) :
    rtTimerCheckLoop (fuel + 1) cb ts currentTick = ⟨[], .ok ts⟩ := by
  rw [rtTimerCheckLoop]
  cases hfirst : ts.rows.next (.head ()) with
  | head _ => rfl
  | item t =>
    rw [hfirst] at hnot
    exact if_neg hnot

theorem call_ok (rest : AppTimers n → Checked n) (h : ts.fire ops t = .ok ts') :
    ts.call ops t rest = ⟨⟨t, decide (ts.Linked t)⟩ :: (rest ts').calls, (rest ts').outcome⟩ := by
  unfold call
  rw [h]

theorem call_error {e : Fault} (rest : AppTimers n → Checked n)
    (h : ts.fire ops t = .error e) : ts.call ops t rest = ⟨[⟨t, decide (ts.Linked t)⟩], .error e⟩ := by
  unfold call
  rw [h]

theorem rtTimerCheckLoop_succ_ok
    (hs : (rtTimerCheckLoop (fuel + 1) cb ts currentTick).outcome = .ok ts') :
    ts' = ts ∨ ∃ t ts₁, ts.rows.next (.head ()) = .item t ∧ ts.timedOut currentTick t ∧
      ts.fire (cb 0 t) t = .ok ts₁ ∧ (rtTimerCheckLoop fuel cb.tail ts₁ ts₁.tick).outcome = .ok ts' := by
  rcases ts.nodeTimedOut_cases currentTick (ts.rows.next (.head ())) with hend | ⟨t, hfirst, hdue⟩
  · rw [rtTimerCheckLoop_end hend] at hs
    cases hs
    exact .inl rfl
  · rw [rtTimerCheckLoop_item hfirst hdue] at hs
    cases hfire : ts.fire (cb 0 t) t with
    | error e =>
      rw [call_error _ hfire] at hs
      cases hs
    | ok ts₁ =>
      rw [call_ok _ hfire] at hs
      exact .inr ⟨t, ts₁, hfirst, hdue, hfire, hs⟩

end AppTimers

/-! ## Which steps leave a flag without its timer on the list -/

/-- The operation is no `rt_timer_detach` of a timer that runs. The timer that fires, if any, is off
the list and keeps its flag until its timeout function has returned. -/
def TimerOp.tidy (firing : Option (Fin n)) (ts : AppTimers n) : TimerOp n → Prop
  | .detach t => ts.activated t = true → firing = some t
  | _ => True

instance (firing : Option (Fin n)) (ts : AppTimers n) (op : TimerOp n) : Decidable (op.tidy firing ts) := by
  cases op <;> unfold TimerOp.tidy <;> infer_instance

namespace AppTimers

/-- The operations are tidy, each in the state it finds. -/
def PerformsTidily (firing : Option (Fin n)) (ts : AppTimers n) : List (TimerOp n) → Prop
  | [] => True
  | op :: ops => op.tidy firing ts ∧ ∀ ts', ts.run op = .ok ts' → ts'.PerformsTidily firing ops

/-- The timeout function of the timer is tidy, and it does not return with the timer on the list and
not periodic. -/
def FiresTidily (ops : AppTimers n → List (TimerOp n)) (t : Fin n) : Prop :=
  (ts.remove t).PerformsTidily (some t) (ops (ts.remove t)) ∧
    ∀ ts', (ts.remove t).perform (ops (ts.remove t)) = .ok ts' → ts'.Linked t → ts'.periodic t = true

/-- Every timeout function that the check calls is tidy. -/
def ChecksTidily : ℕ → Callbacks n → AppTimers n → ℕ → Prop
  | 0, _, _, _ => True
  | fuel + 1, cb, ts, currentTick => ∀ t, ts.rows.next (.head ()) = .item t → ts.timedOut currentTick t →
      ts.FiresTidily (cb 0 t) t ∧ ∀ ts', ts.fire (cb 0 t) t = .ok ts' → ChecksTidily fuel cb.tail ts' ts'.tick

instance decidablePerformsTidily (firing : Option (Fin n)) :
    ∀ (ts : AppTimers n) ops, Decidable (ts.PerformsTidily firing ops)
  | _, [] => isTrue trivial
  | ts, op :: ops =>
    have (ts' : AppTimers n) := decidablePerformsTidily firing ts' ops
    inferInstanceAs (Decidable (op.tidy firing ts ∧ ∀ ts', ts.run op = .ok ts' → ts'.PerformsTidily firing ops))

instance (ts : AppTimers n) (ops : AppTimers n → List (TimerOp n)) (t : Fin n) :
    Decidable (ts.FiresTidily ops t) :=
  inferInstanceAs (Decidable (_ ∧ ∀ ts' : AppTimers n, _ = Except.ok ts' → ts'.Linked t → ts'.periodic t = true))

instance decidableChecksTidily :
    ∀ fuel cb (ts : AppTimers n) currentTick, Decidable (ChecksTidily fuel cb ts currentTick)
  | 0, _, _, _ => isTrue trivial
  | fuel + 1, cb, ts, currentTick =>
    have (ts' : AppTimers n) := decidableChecksTidily fuel cb.tail ts' ts'.tick
    inferInstanceAs (Decidable (∀ t, ts.rows.next (.head ()) = .item t → ts.timedOut currentTick t →
      ts.FiresTidily (cb 0 t) t ∧
        ∀ ts', ts.fire (cb 0 t) t = .ok ts' → ChecksTidily fuel cb.tail ts' ts'.tick))

end AppTimers

/-- An operation, or a check. -/
inductive TimerAct (n : ℕ)
  | op (op : TimerOp n)
  /-- `rt_timer_check`, which ends within `fuel` iterations. -/
  | check (fuel : ℕ) (cb : Callbacks n)

/-- No operation of the step leaves a flag that is wrong. -/
def TimerAct.tidy : TimerAct n → Prop
  | .op o => o.tidy none ts
  | .check fuel cb => AppTimers.ChecksTidily fuel cb ts ts.tick

instance (ts : AppTimers n) (a : TimerAct n) : Decidable (a.tidy ts) :=
  match a with
  | .op o => inferInstanceAs (Decidable (o.tidy none ts))
  | .check fuel cb => AppTimers.decidableChecksTidily fuel cb ts ts.tick

/-- One step. -/
def TimerAct.exec : TimerAct n → Except Fault (AppTimers n)
  | .op o => ts.run o
  | .check fuel cb => (ts.rtTimerCheck fuel cb).outcome

/-- The timers after `rt_timer_init` of each, at any value of the clock. -/
def AppTimers.boot (time : Fin n → ℕ) (periodic : Fin n → Bool) (tick : ℕ) : AppTimers n where
  rows := ⟨id, id⟩
  activated := fun _ => false
  initTick := time
  timeoutTick := fun _ => 0
  tick := tick
  periodic := periodic

/-- The runs from timers that are not started. -/
def timerSystem (n : ℕ) : System (AppTimers n) (TimerAct n) where
  init ts := ∃ time periodic tick, tick < 2^32 ∧ ts = AppTimers.boot time periodic tick
  step ts a ts' := a.exec ts = .ok ts'

/-! ## The flag and the list -/

section

variable {ts ts' : AppTimers n} {firing : Option (Fin n)} {t : Fin n} {T : List (Fin n)}

theorem Timers.linked_iff_mem {ts : Timers n} (hr : Rings ts.rows fun _ : Unit => T) : ts.Linked t ↔ t ∈ T := by
  unfold Timers.Linked
  rw [ne_eq, hr.next_item_eq_iff]
  simp

theorem rtTimerStart_inv (hr : Rings ts.rows fun _ : Unit => T) (h : ts.rtTimerStart t = .ok ts') :
    ts.initTick t < halfTickMax ∧ ∃ rows, ts' = { ts with toTimers := ts.toTimers.started t rows } ∧
      Rings rows fun _ : Unit =>
        insertWhile (fun u => !ts.later (add32 ts.tick (ts.initTick t)) u) t (T.erase t) := by
  obtain ⟨timers, hstart, heq⟩ := of_bind_ok h
  by_cases htime : ts.initTick t < halfTickMax
  · obtain ⟨rows, hrows, hrings⟩ := rtTimerStart_rings hr htime
    rw [hrows] at hstart
    cases hstart
    cases heq
    exact ⟨htime, rows, rfl, hrings⟩
  · rw [rtTimerStart_assertion htime] at hstart
    cases hstart

theorem rtTimerStart_clearActivated : (ts.clearActivated t).rtTimerStart t = ts.rtTimerStart t := by
  have hflags : update (update ts.activated t false) t false =
      update ts.activated t false := update_idem ..
  have htimers : RtThread.rtTimerStart (ts.toTimers.deactivate t) t = RtThread.rtTimerStart ts.toTimers t := by
    unfold RtThread.rtTimerStart rtTimerRemove Timers.deactivate
    rw [hflags]
  unfold AppTimers.rtTimerStart AppTimers.clearActivated
  rw [htimers]

theorem AppTimers.exists_single (time : Fin n → ℕ) (periodic : Fin n → Bool) (tick : ℕ)
    (htime : time t < halfTickMax) : ∃ ts : AppTimers n, (Rings ts.rows fun _ : Unit => [t]) ∧
      ts.initTick = time ∧ ts.periodic = periodic ∧ ts.activated t = true ∧ ts.tick = tick ∧
      ts.timeoutTick t = add32 tick (time t) := by
  have hempty : Rings (boot time periodic tick).toTimers.rows fun _ : Unit => [] := .empty
  obtain ⟨rows, -, hrings⟩ := rtTimerStart_rings (t := t) hempty htime
  exact ⟨{ boot time periodic tick with toTimers := (boot time periodic tick).toTimers.started t rows },
    hrings, rfl, rfl, update_self .., rfl, update_self ..⟩

/-- The timers on the list are activated, and no others, the one that fires apart. -/
def AppTimers.Flagged (firing : Option (Fin n)) (ts : AppTimers n) : Prop :=
  ∃ T, Armed ts.toTimers T ∧ ∀ t, ts.activated t = true → t ∈ T ∨ firing = some t

namespace AppTimers.Flagged

theorem start (h : ts.Flagged firing) (hs : ts.rtTimerStart t = .ok ts') :
    ts'.Flagged (if firing = some t then none else firing) := by
  obtain ⟨T, ha, hflag⟩ := h
  obtain ⟨-, rows, rfl, hrings⟩ := rtTimerStart_inv ha.rings hs
  have hact : ∀ u, (ts.toTimers.started t rows).activated u = if u = t then true else ts.activated u :=
    fun u => update_apply ..
  refine ⟨_, ⟨hrings, fun u hu => ?_⟩, fun u hu => ?_⟩
  · rw [hact]
    split_ifs with hut
    · rfl
    · rcases mem_insertWhile.mp hu with hut' | hu
      · exact absurd hut' hut
      · exact ha.activated u (List.mem_of_mem_erase hu)
  · -- A timer that has its flag is the started one, or was on the list before, or fires.
    rw [mem_insertWhile, ha.nodup.mem_erase_iff]
    rw [hact] at hu
    split_ifs at hu with hut
    · exact .inl (.inl hut)
    · rcases hflag u hu with hmem | hfire
      · exact .inl (.inr ⟨hut, hmem⟩)
      · right
        have hne : firing ≠ some t := fun heq => hut (Option.some.inj (hfire.symm.trans heq))
        rw [if_neg hne, hfire]

theorem stop (h : ts.Flagged firing) (t : Fin n) : (ts.rtTimerStop t).Flagged firing := by
  obtain ⟨T, ha, hflag⟩ := h
  refine ⟨T.erase t, ha.stop t, fun u hu => ?_⟩
  -- A timer that still has its flag is not the one that was stopped.
  have hkept : u ≠ t ∧ ts.activated u = true := by
    change (RtThread.rtTimerStop ts.toTimers t).activated u = true at hu
    unfold RtThread.rtTimerStop at hu
    split_ifs at hu with hact
    · change update ts.activated t false u = true at hu
      rw [update_apply] at hu
      split_ifs at hu with hut
      exact ⟨hut, hu⟩
    · refine ⟨?_, hu⟩
      rintro rfl
      exact hact hu
  rcases hflag u hkept.2 with hmem | hfire
  · exact .inl ((List.mem_erase_of_ne hkept.1).mpr hmem)
  · exact .inr hfire

theorem remove (h : ts.Flagged firing) (ht : ts.activated t = true → firing = some t) :
    (ts.remove t).Flagged firing := by
  obtain ⟨T, ha, hflag⟩ := h
  refine ⟨T.erase t, ha.remove t, fun u hu => ?_⟩
  have hu : ts.activated u = true := hu
  by_cases hut : u = t
  · exact .inr (hut ▸ ht (hut ▸ hu))
  · rcases hflag u hu with hmem | hfire
    · exact .inl ((List.mem_erase_of_ne hut).mpr hmem)
    · exact .inr hfire

theorem run {op : TimerOp n} (h : ts.Flagged firing) (htidy : op.tidy firing ts) (hs : ts.run op = .ok ts') :
    ts'.Flagged firing := by
  cases op with
  | start t =>
    obtain ⟨T, ha, hflag⟩ := h.start hs
    refine ⟨T, ha, fun u hu => ?_⟩
    rcases hflag u hu with hmem | hfire
    · exact .inl hmem
    · split_ifs at hfire
      exact .inr hfire
  | stop t =>
    cases hs
    exact h.stop t
  | detach t =>
    cases hs
    exact h.remove htidy
  | control t cmd =>
    -- Neither the list nor the flag is written.
    cases hs
    obtain ⟨T, ha, hflag⟩ := h
    cases cmd with
    | getTime | setOneshot | setPeriodic => exact ⟨T, ha, hflag⟩
    | setTime time => exact ⟨T, ha.setTime t time, hflag⟩
  | elapse ticks =>
    cases hs
    obtain ⟨T, ha, hflag⟩ := h
    exact ⟨T, ⟨ha.rings, ha.activated⟩, hflag⟩

theorem perform {ops : List (TimerOp n)} (h : ts.Flagged firing) (htidy : ts.PerformsTidily firing ops)
    (hs : ts.perform ops = .ok ts') : ts'.Flagged firing := by
  induction ops generalizing ts with
  | nil =>
    cases hs
    exact h
  | cons op ops ih =>
    obtain ⟨ts₁, h₁, hs⟩ := of_bind_ok hs
    exact ih (h.run htidy.1 h₁) (htidy.2 ts₁ h₁) hs

theorem linked_iff (h : ts.Flagged none) : ts.activated t = true ↔ ts.Linked t := by
  obtain ⟨T, ha, hflag⟩ := h
  rw [Timers.linked_iff_mem ha.rings]
  constructor
  · intro hact
    exact (hflag t hact).resolve_right (by simp)
  · exact ha.activated t

theorem fire (h : ts.Flagged none) (htidy : ts.FiresTidily ops t)
    (hs : ts.fire ops t = .ok ts') : ts'.Flagged none := by
  obtain ⟨ts₁, h₁, hs⟩ := of_bind_ok hs
  have hremoved : (ts.remove t).Flagged (some t) := by
    obtain ⟨T, ha, hflag⟩ := h
    refine Flagged.remove ⟨T, ha, fun u hu => ?_⟩ fun _ => rfl
    exact .inl ((hflag u hu).resolve_right (by simp))
  have hback : ts₁.Flagged (some t) := hremoved.perform htidy.1 h₁
  unfold rearm at hs
  split_ifs at hs with hagain
  · rw [rtTimerStart_clearActivated] at hs
    simpa using hback.start hs
  · cases hs
    obtain ⟨T, ha, hflag⟩ := hback
    -- The timer is not on the list: it would be periodic and activated.
    have hnot : t ∉ T := by
      intro hmem
      have hlinked : ts₁.Linked t := (Timers.linked_iff_mem ha.rings).mpr hmem
      exact hagain ⟨htidy.2 ts₁ h₁ hlinked, ha.activated t hmem⟩
    refine ⟨T, ha.deactivate hnot, fun u hu => ?_⟩
    change update ts₁.activated t false u = true at hu
    rw [update_apply] at hu
    split_ifs at hu with hut
    rcases hflag u hu with hmem | hfire
    · exact .inl hmem
    · exact absurd (Option.some.inj hfire).symm hut

theorem checkLoop {fuel currentTick : ℕ} {cb : Callbacks n} (h : ts.Flagged none)
    (htidy : ChecksTidily fuel cb ts currentTick)
    (hs : (rtTimerCheckLoop fuel cb ts currentTick).outcome = .ok ts') : ts'.Flagged none := by
  induction fuel generalizing cb ts currentTick with
  | zero => cases hs
  | succ fuel ih =>
    rcases rtTimerCheckLoop_succ_ok hs with rfl | ⟨t, ts₁, hfirst, hdue, hfire, hs⟩
    · exact h
    · obtain ⟨hfires, hrest⟩ := htidy t hfirst hdue
      exact ih (h.fire hfires hfire) (hrest ts₁ hfire) hs

end AppTimers.Flagged

/-- In every run of tidy steps, a timer has the flag exactly if it is on the list, and stopping it
takes it off the list. -/
theorem activated_iff_linked (h : Reachable (timerSystem n) TimerAct.tidy ts) (t : Fin n) :
    (ts.activated t = true ↔ ts.Linked t) ∧ ¬(ts.rtTimerStop t).Linked t := by
  have hflagged : ts.Flagged none := by
    refine h.invariant ?_ fun ts a ts' hflagged htidy hs => ?_
    · rintro ts ⟨time, periodic, tick, -, rfl⟩
      exact ⟨[], ⟨.empty, by simp⟩, fun t ht => by cases ht⟩
    · cases a with
      | op o => exact hflagged.run htidy hs
      | check fuel cb => exact hflagged.checkLoop htidy hs
  refine ⟨hflagged.linked_iff, fun hlinked => ?_⟩
  have hstopped := hflagged.stop t
  -- The flag of a stopped timer is clear.
  have hclear : (ts.rtTimerStop t).activated t = false := by
    change (RtThread.rtTimerStop ts.toTimers t).activated t = false
    unfold RtThread.rtTimerStop
    split_ifs with hact
    · exact update_self ..
    · simpa using hact
  rw [← hstopped.linked_iff, hclear] at hlinked
  cases hlinked

/-- A run in which a timeout function stops its own periodic timer and another one starts its timer
again. -/
theorem activated_iff_linked_run : ∃ ts : AppTimers 2, Reachable (timerSystem 2) TimerAct.tidy ts ∧
    ts.activated 0 = false ∧ ts.activated 1 = true ∧
    ((ts.activated 1 = true ↔ ts.Linked 1) ∧ ¬(ts.rtTimerStop 1).Linked 1) := by
  have hinit : (timerSystem 2).init (AppTimers.boot (fun _ => 3) (fun _ => true) 0) :=
    ⟨_, _, 0, by norm_num, rfl⟩
  have hrun : ∃ ts : AppTimers 2, Reachable (timerSystem 2) TimerAct.tidy ts ∧
      ts.activated 0 = false ∧ ts.activated 1 = true := by
    refine exists_reachable_of_run (f := fun ts a => (a.exec ts).toOption)
      hinit [.op (.start 0), .op (.start 1), .op (.elapse 3),
        .check 3 fun _ t _ => if t = 0 then [.stop 0] else [.start 1]] ?_
        fun _ _ _ => ok_of_toOption
    decide
  obtain ⟨ts, hts, h0, h1⟩ := hrun
  exact ⟨ts, hts, h0, h1, activated_iff_linked hts 1⟩

/-- A timeout function that starts its own one-shot timer again leaves the timer on the list without
its flag, so that `rt_timer_stop` does not take it off. A running timer that is detached keeps its
flag. -/
theorem restarted_without_flag :
    (∃ ts : AppTimers 1, Reachable (timerSystem 1) always ts ∧ ts.Linked 0 ∧ ts.activated 0 = false ∧
      (ts.rtTimerStop 0).Linked 0) ∧
    ∃ ts : AppTimers 1, Reachable (timerSystem 1) always ts ∧ ¬ts.Linked 0 ∧ ts.activated 0 = true := by
  have hinit : (timerSystem 1).init (AppTimers.boot (fun _ => 3) (fun _ => false) 0) :=
    ⟨_, _, 0, by norm_num, rfl⟩
  constructor
  · refine exists_reachable_of_run (f := fun ts a => (a.exec ts).toOption)
      hinit [.op (.start 0), .op (.elapse 3), .check 2 fun _ _ _ => [.start 0]] ?_
      fun _ _ _ => ok_of_toOption
    decide
  · refine exists_reachable_of_run (f := fun ts a => (a.exec ts).toOption)
      hinit [.op (.start 0), .op (.detach 0)] ?_ fun _ _ _ => ok_of_toOption
    decide

end

end RtThread
