import RtThread.Timer.Check

/-!
# The check of the soft timers

`rt_soft_timer_check` walks the list of the soft timers: before it takes a timer off the list it
saves the node behind it, and goes on there after the timeout function has returned.
`rt_timer_check` looks at the first node of the list again. A timeout function that stops the next
timer makes the walk stay at the stopped timer, which is linked to itself. The thread of the soft
timers takes the deadline `RT_TICK_MAX` of a timer for an empty list, and sleeps for a tick when a timer
is due now.
-/

namespace RtThread

open Lib List AppTimers

variable {n : ℕ}

namespace AppTimers

/-- The loop of `rt_soft_timer_check` from a node, for at most `fuel` iterations. -/
def rtSoftTimerCheckLoop : ℕ → Callbacks n → AppTimers n → ℕ → Node Unit (Fin n) → Checked n
  | 0, _, _, _, _ => ⟨[], .error .fuel⟩
  | _ + 1, _, ts, _, .head _ => ⟨[], .ok ts⟩
  | fuel + 1, cb, ts, currentTick, .item t =>
    if ts.timedOut currentTick t then
      let next := ts.rows.next (.item t)
      ts.call (cb 0 t) t fun ts' => rtSoftTimerCheckLoop fuel cb.tail ts' ts'.tick next
    else ⟨[], .ok ts⟩

/-- `rt_soft_timer_check`. -/
def rtSoftTimerCheck (fuel : ℕ) (cb : Callbacks n) (ts : AppTimers n) : Checked n :=
  rtSoftTimerCheckLoop fuel cb ts ts.tick (ts.rows.next (.head ()))

/-- After the call of a timeout function, the walk that has saved the node `next` goes on as one
from the first node would: the two are one, or both walks end. -/
def GoesOn (ts : AppTimers n) (next : Node Unit (Fin n)) : Prop :=
  next = ts.rows.next (.head ()) ∨
    ¬ts.NodeTimedOut ts.tick next ∧ ¬ts.NodeTimedOut ts.tick (ts.rows.next (.head ()))

/-- After every call that `rt_timer_check` makes, the node that was behind the timer can be gone on
from. -/
def KeepsNext : ℕ → Callbacks n → AppTimers n → ℕ → Prop
  | 0, _, _, _ => True
  | fuel + 1, cb, ts, currentTick => ∀ t, ts.rows.next (.head ()) = .item t → ts.timedOut currentTick t →
      ∀ ts', ts.fire (cb 0 t) t = .ok ts' →
        ts'.GoesOn (ts.rows.next (.item t)) ∧ KeepsNext fuel cb.tail ts' ts'.tick

end AppTimers

/-- The check ends. -/
def Checked.Ends (r : Checked n) : Prop := r.outcome ≠ .error .fuel

/-! ## The list under timeout functions -/

section

variable {ts ts' : AppTimers n} {t : Fin n} {T : List (Fin n)}

namespace AppTimers

/-- The links are those of a list. -/
def Ringed (ts : AppTimers n) : Prop := ∃ T : List (Fin n), Rings ts.rows fun _ : Unit => T

namespace Ringed

theorem remove (h : ts.Ringed) (t : Fin n) : (ts.remove t).Ringed := by
  obtain ⟨T, hr⟩ := h
  exact ⟨T.erase t, rings_rtListRemove hr t⟩

theorem start (h : ts.Ringed) (hs : ts.rtTimerStart t = .ok ts') : ts'.Ringed := by
  obtain ⟨T, hr⟩ := h
  obtain ⟨-, rows, rfl, hrings⟩ := rtTimerStart_inv hr hs
  exact ⟨_, hrings⟩

theorem run {op : TimerOp n} (h : ts.Ringed) (hs : ts.run op = .ok ts') : ts'.Ringed := by
  cases op with
  | start t => exact h.start hs
  | stop t =>
    cases hs
    change ∃ T : List (Fin n), Rings (RtThread.rtTimerStop ts.toTimers t).rows fun _ : Unit => T
    unfold RtThread.rtTimerStop
    split_ifs
    · exact h.remove t
    · exact h
  | detach t =>
    cases hs
    exact h.remove t
  | control t cmd =>
    cases hs
    cases cmd <;> exact h
  | elapse ticks =>
    cases hs
    exact h

theorem perform {ops : List (TimerOp n)} (h : ts.Ringed) (hs : ts.perform ops = .ok ts') : ts'.Ringed := by
  induction ops generalizing ts with
  | nil =>
    cases hs
    exact h
  | cons op ops ih =>
    obtain ⟨ts₁, h₁, hs⟩ := of_bind_ok hs
    exact ih (h.run h₁) hs

theorem fire {ops : AppTimers n → List (TimerOp n)} (h : ts.Ringed) (hs : ts.fire ops t = .ok ts') :
    ts'.Ringed := by
  obtain ⟨ts₁, h₁, hs⟩ := of_bind_ok hs
  have hback : ts₁.Ringed := (h.remove t).perform h₁
  unfold rearm at hs
  split_ifs at hs
  · rw [rtTimerStart_clearActivated] at hs
    exact hback.start hs
  · cases hs
    exact hback

theorem checkLoop {fuel currentTick : ℕ} {cb : Callbacks n} (h : ts.Ringed)
    (hs : (rtTimerCheckLoop fuel cb ts currentTick).outcome = .ok ts') : ts'.Ringed := by
  induction fuel generalizing cb ts currentTick with
  | zero => cases hs
  | succ fuel ih =>
    rcases rtTimerCheckLoop_succ_ok hs with rfl | ⟨t, ts₁, -, -, hfire, hs⟩
    · exact h
    · exact ih (h.fire hfire) hs

theorem linked_first (h : ts.Ringed) (hfirst : ts.rows.next (.head ()) = .item t) : ts.Linked t := by
  obtain ⟨T, hr⟩ := h
  have hmem := hr.next_mem (h := ()) (b := .head ()) (by simp)
  rw [hfirst] at hmem
  exact (Timers.linked_iff_mem hr).mpr (Node.item_mem_all.mp hmem)

end Ringed

/-! ## The two checks -/

variable {cb : Callbacks n} {currentTick fuel : ℕ}

theorem rtSoftTimerCheckLoop_item (hdue : ts.timedOut currentTick t) :
    rtSoftTimerCheckLoop (fuel + 1) cb ts currentTick (.item t) =
      ts.call (cb 0 t) t fun ts' => rtSoftTimerCheckLoop fuel cb.tail ts' ts'.tick (ts.rows.next (.item t)) := by
  rw [rtSoftTimerCheckLoop]
  exact if_pos hdue

theorem rtSoftTimerCheckLoop_end {node : Node Unit (Fin n)} (hnot : ¬ts.NodeTimedOut currentTick node) :
    rtSoftTimerCheckLoop (fuel + 1) cb ts currentTick node = ⟨[], .ok ts⟩ := by
  cases node with
  | head _ => rw [rtSoftTimerCheckLoop]
  | item t =>
    rw [rtSoftTimerCheckLoop]
    exact if_neg hnot

theorem rtTimerCheckLoop_linked (h : ts.Ringed) :
    ∀ c ∈ (rtTimerCheckLoop fuel cb ts currentTick).calls, c.linked = true := by
  induction fuel generalizing cb ts currentTick with
  | zero => simp [rtTimerCheckLoop]
  | succ fuel ih =>
    rcases ts.nodeTimedOut_cases currentTick (ts.rows.next (.head ())) with hend | ⟨t, hfirst, hdue⟩
    · simp [rtTimerCheckLoop_end hend]
    · have hlinked : decide (ts.Linked t) = true := decide_eq_true (h.linked_first hfirst)
      rw [rtTimerCheckLoop_item hfirst hdue]
      cases hfire : ts.fire (cb 0 t) t with
      | error e => simp [call_error _ hfire, hlinked]
      | ok ts' =>
        rw [call_ok _ hfire, hlinked]
        exact forall_mem_cons.mpr ⟨rfl, ih (h.fire hfire)⟩

theorem rtSoftTimerCheckLoop_eq (h : KeepsNext fuel cb ts currentTick) :
    rtSoftTimerCheckLoop fuel cb ts currentTick (ts.rows.next (.head ())) =
      rtTimerCheckLoop fuel cb ts currentTick := by
  induction fuel generalizing cb ts currentTick with
  | zero => rw [rtTimerCheckLoop, rtSoftTimerCheckLoop]
  | succ fuel ih =>
    rcases ts.nodeTimedOut_cases currentTick (ts.rows.next (.head ())) with hend | ⟨t, hfirst, hdue⟩
    · rw [rtSoftTimerCheckLoop_end hend, rtTimerCheckLoop_end hend]
    · rw [rtTimerCheckLoop_item hfirst hdue, hfirst, rtSoftTimerCheckLoop_item hdue]
      cases hfire : ts.fire (cb 0 t) t with
      | error e => rw [call_error _ hfire, call_error _ hfire]
      | ok ts' =>
        obtain ⟨hgoes, hrest⟩ := h t hfirst hdue ts' hfire
        -- The walks go on from the same node, or both end.
        have hsame : rtSoftTimerCheckLoop fuel cb.tail ts' ts'.tick (ts.rows.next (.item t)) =
            rtTimerCheckLoop fuel cb.tail ts' ts'.tick := by
          rcases hgoes with heq | ⟨hnext, hhead⟩
          · rw [heq]
            exact ih hrest
          · cases fuel with
            | zero => rw [rtTimerCheckLoop, rtSoftTimerCheckLoop]
            | succ fuel => rw [rtSoftTimerCheckLoop_end hnext, rtTimerCheckLoop_end hhead]
        rw [call_ok _ hfire, call_ok _ hfire, hsame]

theorem call_calls (ts : AppTimers n) (ops : AppTimers n → List (TimerOp n)) (t : Fin n) (rest : AppTimers n → Checked n) :
    ∃ calls, (ts.call ops t rest).calls.map (·.timer) = t :: calls := by
  cases hfire : ts.fire ops t with
  | error e => exact ⟨_, by rw [call_error _ hfire, map_cons]⟩
  | ok ts' => exact ⟨_, by rw [call_ok _ hfire, map_cons]⟩

theorem goesOn_of_calls {next : Node Unit (Fin n)}
    (h : (rtSoftTimerCheckLoop 1 cb ts ts.tick next).calls.map (·.timer) =
      (rtTimerCheckLoop 1 cb ts ts.tick).calls.map (·.timer)) : ts.GoesOn next := by
  -- By whether either walk makes a call: then both do, and it is of the same timer.
  rcases ts.nodeTimedOut_cases ts.tick next with hnext | ⟨u, rfl, hnext⟩
  · rcases ts.nodeTimedOut_cases ts.tick (ts.rows.next (.head ())) with hhead | ⟨t, hfirst, hhead⟩
    · exact Or.inr ⟨hnext, hhead⟩
    · rw [rtSoftTimerCheckLoop_end hnext, rtTimerCheckLoop_item hfirst hhead] at h
      obtain ⟨calls, hcalls⟩ := call_calls ts (cb 0 t) t fun ts' => rtTimerCheckLoop 0 cb.tail ts' ts'.tick
      rw [hcalls] at h
      cases h
  · rw [rtSoftTimerCheckLoop_item hnext] at h
    obtain ⟨calls, hcalls⟩ := call_calls ts (cb 0 u) u fun ts' =>
      rtSoftTimerCheckLoop 0 cb.tail ts' ts'.tick (ts.rows.next (.item u))
    rw [hcalls] at h
    rcases ts.nodeTimedOut_cases ts.tick (ts.rows.next (.head ())) with hhead | ⟨t, hfirst, hhead⟩
    · rw [rtTimerCheckLoop_end hhead] at h
      cases h
    · obtain ⟨calls', hcalls'⟩ := call_calls ts (cb 0 t) t fun ts' =>
        rtTimerCheckLoop 0 cb.tail ts' ts'.tick
      rw [rtTimerCheckLoop_item hfirst hhead, hcalls'] at h
      have hut : u = t := (cons.inj h).1
      exact Or.inl (hut ▸ hfirst.symm)

theorem keepsNext_of_calls
    (h : ∀ k, (rtSoftTimerCheckLoop k cb ts currentTick (ts.rows.next (.head ()))).calls.map (·.timer) =
      (rtTimerCheckLoop k cb ts currentTick).calls.map (·.timer)) : KeepsNext fuel cb ts currentTick := by
  induction fuel generalizing cb ts currentTick with
  | zero => trivial
  | succ fuel ih =>
    intro t hfirst hdue ts' hfire
    -- What both do after the first call.
    have hrest : ∀ k, (rtSoftTimerCheckLoop k cb.tail ts' ts'.tick (ts.rows.next (.item t))).calls.map (·.timer) =
        (rtTimerCheckLoop k cb.tail ts' ts'.tick).calls.map (·.timer) := by
      intro k
      have hk := h (k + 1)
      rw [hfirst, rtSoftTimerCheckLoop_item hdue, rtTimerCheckLoop_item hfirst hdue, call_ok _ hfire,
        call_ok _ hfire] at hk
      exact (cons.inj hk).2
    have hgoes : ts'.GoesOn (ts.rows.next (.item t)) := goesOn_of_calls (hrest 1)
    refine ⟨hgoes, ?_⟩
    rcases hgoes with heq | ⟨-, hhead⟩
    · rw [heq] at hrest
      exact ih hrest
    · cases fuel with
      | zero => trivial
      | succ fuel =>
        intro u hu hdue'
        rw [hu] at hhead
        exact absurd hdue' hhead

end AppTimers

theorem reachable_ringed {ok : AppTimers n → TimerAct n → Prop} (h : Reachable (timerSystem n) ok ts) :
    ts.Ringed := by
  refine h.invariant ?_ fun ts a ts' hringed _ hs => ?_
  · rintro ts ⟨time, periodic, tick, -, rfl⟩
    exact ⟨[], Rings.empty⟩
  · cases a with
    | op o => exact hringed.run hs
    | check fuel cb => exact hringed.checkLoop hs

open AppTimers in
/-- For every list of soft timers and all timeout functions: `rt_soft_timer_check` fires only timers
that are on the list, makes the calls that `rt_timer_check` would make, and ends if that does,
exactly if after every call the saved node is the first one or neither has timed out. -/
theorem soft_check_iff (hr : Rings ts.rows fun _ : Unit => T) (cb : Callbacks n) :
    ((∀ fuel, ∀ c ∈ (ts.rtSoftTimerCheck fuel cb).calls, c.linked = true) ∧
      (∀ fuel, (ts.rtSoftTimerCheck fuel cb).calls.map (·.timer) =
        (ts.rtTimerCheck fuel cb).calls.map (·.timer)) ∧
      ((∃ fuel, (ts.rtTimerCheck fuel cb).Ends) → ∃ fuel, (ts.rtSoftTimerCheck fuel cb).Ends)) ↔
    ∀ fuel, KeepsNext fuel cb ts ts.tick := by
  constructor
  · rintro ⟨-, hcalls, -⟩ fuel
    exact keepsNext_of_calls hcalls
  · intro hkeeps
    -- The two checks are equal, so what holds of `rt_timer_check` holds of the other one.
    have hsame : ∀ fuel, ts.rtSoftTimerCheck fuel cb = ts.rtTimerCheck fuel cb := fun fuel =>
      rtSoftTimerCheckLoop_eq (hkeeps fuel)
    refine ⟨fun fuel => ?_, fun fuel => ?_, fun hends => ?_⟩
    · rw [hsame]
      exact rtTimerCheckLoop_linked ⟨T, hr⟩
    · rw [hsame]
    · obtain ⟨fuel, hends⟩ := hends
      exact ⟨fuel, hsame fuel ▸ hends⟩

/-- The timeout functions of a list of two timers that do nothing, and the calls of the check. -/
theorem soft_check_iff_two : ∃ (ts : AppTimers 2) (T : List (Fin 2)), (Rings ts.rows fun _ : Unit => T) ∧
    (ts.rtSoftTimerCheck 3 fun _ _ _ => []).calls = [⟨0, true⟩, ⟨1, true⟩] ∧
    ((∀ fuel, ∀ c ∈ (ts.rtSoftTimerCheck fuel fun _ _ _ => []).calls, c.linked = true) ∧
      (∀ fuel, (ts.rtSoftTimerCheck fuel fun _ _ _ => []).calls.map (·.timer) =
        (ts.rtTimerCheck fuel fun _ _ _ => []).calls.map (·.timer)) ∧
      ((∃ fuel, (ts.rtTimerCheck fuel fun _ _ _ => []).Ends) →
        ∃ fuel, (ts.rtSoftTimerCheck fuel fun _ _ _ => []).Ends) ↔
    ∀ fuel, AppTimers.KeepsNext fuel (fun _ _ _ => []) ts ts.tick) := by
  have hinit : (timerSystem 2).init (boot (fun _ => 3) (fun _ => false) 0) :=
    ⟨_, _, 0, by norm_num, rfl⟩
  have hrun : ∃ ts : AppTimers 2, Reachable (timerSystem 2) always ts ∧
      (ts.rtSoftTimerCheck 3 fun _ _ _ => []).calls = [⟨0, true⟩, ⟨1, true⟩] := by
    refine exists_reachable_of_run (f := fun ts a => (a.exec ts).toOption)
      hinit [.op (.start 0), .op (.start 1), .op (.elapse 3)] ?_ fun _ _ _ => ok_of_toOption
    decide
  obtain ⟨ts, hts, hcalls⟩ := hrun
  obtain ⟨T, hr⟩ := reachable_ringed hts
  exact ⟨ts, T, hr, hcalls, soft_check_iff hr _⟩

theorem rtSoftTimerCheckLoop_stuck {cb : Callbacks n} (hr : Rings ts.rows fun _ : Unit => T) (ht : t ∉ T)
    (hact : ts.activated t = false) (hdue : ts.timedOut ts.tick t) (hcb : ∀ i ts, cb i t ts = []) (fuel : ℕ) :
    rtSoftTimerCheckLoop fuel cb ts ts.tick (.item t) =
      ⟨replicate fuel ⟨t, false⟩, .error .fuel⟩ := by
  induction fuel generalizing cb ts with
  | zero => rfl
  | succ fuel ih =>
    -- The node of a timer off the list points to itself.
    have hself : ts.rows.next (.item t) = .item t := hr.next_item_eq_iff.mpr fun _ => ht
    have hunlinked : decide (ts.Linked t) = false :=
      decide_eq_false fun hlinked => ht ((Timers.linked_iff_mem hr).mp hlinked)
    have hfire : ts.fire (cb 0 t) t = .ok ((ts.remove t).clearActivated t) := by
      change ((ts.remove t).perform (cb 0 t (ts.remove t))).bind _ = _
      rw [hcb]
      exact if_neg fun hboth => by simp [remove, rtTimerRemove, hact] at hboth
    -- Removing it again does not change the list.
    have hremoved : Rings ((ts.remove t).clearActivated t).rows fun _ : Unit => T := by
      have herase := rings_rtListRemove hr t
      rwa [erase_of_not_mem ht] at herase
    have hloop : rtSoftTimerCheckLoop fuel cb.tail ((ts.remove t).clearActivated t) ts.tick (.item t) =
        ⟨replicate fuel ⟨t, false⟩, .error .fuel⟩ :=
      ih hremoved (Function.update_self ..) hdue fun i ts => hcb (i + 1) ts
    rw [rtSoftTimerCheckLoop_item hdue, call_ok _ hfire, hunlinked, hself,
      replicate_succ]
    exact congrArg (fun r : Checked n => (⟨_ :: r.calls, r.outcome⟩ : Checked n)) hloop

/-- Two soft timers are due, and the timeout function of the first stops the second.
`rt_timer_check` would call that function and end; `rt_soft_timer_check` goes on to call the timeout
function of the stopped timer, again and again. -/
theorem stopped_timer_fires : ∃ (ts : AppTimers 2) (T : List (Fin 2)) (cb : Callbacks 2),
    (Rings ts.rows fun _ : Unit => T) ∧
    (ts.rtTimerCheck 2 cb).calls = [⟨0, true⟩] ∧ (ts.rtTimerCheck 2 cb).Ends ∧
    ∀ fuel, ts.rtSoftTimerCheck (fuel + 1) cb =
      ⟨⟨0, true⟩ :: replicate fuel ⟨1, false⟩, .error .fuel⟩ := by
  obtain ⟨cb, hcb⟩ : ∃ cb : Callbacks 2, cb = fun _ t _ => if t = 0 then [.stop 1] else [] := ⟨_, rfl⟩
  have hinit : (timerSystem 2).init (boot (fun _ => 3) (fun _ => false) 0) :=
    ⟨_, _, 0, by norm_num, rfl⟩
  have hrun : ∃ ts : AppTimers 2, Reachable (timerSystem 2) always ts ∧
      ((ts.rtTimerCheck 2 cb).calls = [⟨0, true⟩] ∧ (ts.rtTimerCheck 2 cb).outcome.isOk = true) ∧
      (ts.rows.next (.head ()) = .item 0 ∧ ts.timedOut ts.tick 0 ∧ ts.rows.next (.item 0) = .item 1) ∧
      (ts.fire (cb 0 0) 0).toOption.any (fun ts' =>
        ¬ts'.Linked 1 ∧ ts'.activated 1 = false ∧ ts'.timedOut ts'.tick 1) = true := by
    rw [hcb]
    refine exists_reachable_of_run (f := fun ts a => (a.exec ts).toOption)
      hinit [.op (.start 0), .op (.start 1), .op (.elapse 3)] ?_ fun _ _ _ => ok_of_toOption
    decide
  obtain ⟨ts, hts, ⟨hcalls, hok⟩, ⟨hfirst, hdue, hnext⟩, hafter⟩ := hrun
  obtain ⟨T, hr⟩ := reachable_ringed hts
  refine ⟨ts, T, cb, hr, hcalls, fun heq => ?_, fun fuel => ?_⟩
  · rw [heq] at hok
    cases hok
  · obtain ⟨ts', hfire, hoff, hact, hdue'⟩ : ∃ ts', ts.fire (cb 0 0) 0 = .ok ts' ∧ ¬ts'.Linked 1 ∧
        ts'.activated 1 = false ∧ ts'.timedOut ts'.tick 1 := by
      cases hfire : ts.fire (cb 0 0) 0 with
      | error e =>
        rw [hfire] at hafter
        cases hafter
      | ok ts' =>
        rw [hfire] at hafter
        exact ⟨ts', rfl, of_decide_eq_true hafter⟩
    -- After the call the saved node is that of a timer off the list.
    obtain ⟨T', hr'⟩ := AppTimers.Ringed.fire ⟨T, hr⟩ hfire
    have hnot : 1 ∉ T' := fun hmem => hoff ((Timers.linked_iff_mem hr').mpr hmem)
    have hlinked : decide (ts.Linked 0) = true := decide_eq_true (AppTimers.Ringed.linked_first ⟨T, hr⟩ hfirst)
    have hquiet : ∀ i ts, cb.tail i 1 ts = [] := fun i ts => by rw [hcb]; rfl
    have hstuck := rtSoftTimerCheckLoop_stuck hr' hnot hact hdue' hquiet fuel
    unfold rtSoftTimerCheck
    rw [hfirst, rtSoftTimerCheckLoop_item hdue, call_ok _ hfire, hlinked, hnext, hstuck]

/-! ## The thread of the soft timers -/

/-- The largest value of the tick counter. -/
def RT_TICK_MAX : ℕ := 0xffffffff

/-- `rt_timer_list_next_timeout`: the due time of the first timer, and `RT_TICK_MAX` if there is none. -/
def rtTimerListNextTimeout (ts : AppTimers n) : ℕ :=
  match ts.rows.next (.head ()) with
  | .head _ => RT_TICK_MAX
  | .item t => ts.timeoutTick t

/-- What `rt_thread_timer_entry` does before it calls `rt_soft_timer_check`. -/
inductive EntryTurn
  /-- `rt_thread_suspend` of itself and `rt_schedule`: no time is set. -/
  | suspend
  /-- `rt_thread_delay`. -/
  | delay (ticks : ℕ)
  /-- Nothing: the first timer is late. -/
  | check
  deriving DecidableEq

/-- After how many ticks the thread calls `rt_soft_timer_check`, if a time is set. A thread that has
called `rt_thread_delay` is woken from the check of a later tick, after a delay of zero too. -/
def EntryTurn.wakes : EntryTurn → Option ℕ
  | .suspend => none
  | .delay ticks => some (max ticks 1)
  | .check => some 0

/-- A turn of `rt_thread_timer_entry` up to its call of `rt_soft_timer_check`. -/
def rtThreadTimerEntry (ts : AppTimers n) : EntryTurn :=
  let nextTimeout := rtTimerListNextTimeout ts
  if nextTimeout = RT_TICK_MAX then .suspend
  else
    let currentTick := ts.tick
    if sub32 nextTimeout currentTick < halfTickMax then .delay (sub32 nextTimeout currentTick) else .check

/-- In how many ticks the timer has to be checked: at once if it has timed out. -/
def AppTimers.due (ts : AppTimers n) (t : Fin n) : ℕ :=
  if ts.timedOut ts.tick t then 0 else ts.remaining t

theorem AppTimers.due_eq_remaining (hsoon : ts.remaining t < halfTickMax) : ts.due t = ts.remaining t := by
  unfold AppTimers.due
  split_ifs with hout
  · unfold AppTimers.timedOut at hout
    unfold AppTimers.remaining sub32 halfTickMax at *
    omega
  · rfl

theorem rtThreadTimerEntry_cons (hr : Rings ts.rows fun _ : Unit => t :: T) :
    rtThreadTimerEntry ts = if ts.timeoutTick t = RT_TICK_MAX then .suspend
      else if ts.remaining t < halfTickMax then .delay (ts.remaining t) else .check := by
  unfold rtThreadTimerEntry rtTimerListNextTimeout
  rw [hr.next_head (), Node.first_cons]
  rfl

/-- The thread checks the first timer in time exactly if that is not due at tick `RT_TICK_MAX`, which
looks like no timer, and not due now, for which the thread sleeps for a tick. -/
theorem wakes_first_iff (hr : Rings ts.rows fun _ : Unit => t :: T) :
    (∃ d ∈ (rtThreadTimerEntry ts).wakes, d ≤ ts.due t) ↔
      ts.timeoutTick t ≠ RT_TICK_MAX ∧ ts.remaining t ≠ 0 := by
  rw [rtThreadTimerEntry_cons hr]
  split_ifs with hmax hsoon
  · simp [EntryTurn.wakes, hmax]
  · simp only [EntryTurn.wakes, Option.mem_def, Option.some.injEq, exists_eq_left', hmax, ne_eq, not_false_eq_true,
      true_and]
    rw [AppTimers.due_eq_remaining hsoon]
    omega
  · have hpos : ts.remaining t ≠ 0 := by
      intro hzero
      rw [hzero] at hsoon
      exact hsoon (by decide)
    simp [EntryTurn.wakes, hmax, hpos]

/-- From every list with the most urgent timer in front: the thread of the soft timers suspends
itself with no timer on the list only, and checks every timer on the list at its deadline at the
latest, exactly if the first timer is not due at tick `RT_TICK_MAX` and not due now. -/
theorem soft_thread_suspends_iff (hr : Rings ts.rows fun _ : Unit => T)
    (hfirst : ∀ t ∈ T.head?, ∀ u ∈ T, ts.due t ≤ ts.due u) :
    ((rtThreadTimerEntry ts = .suspend → T = []) ∧
      ∀ u ∈ T, ∃ d ∈ (rtThreadTimerEntry ts).wakes, d ≤ ts.due u) ↔
    ∀ t ∈ T.head?, ts.timeoutTick t ≠ RT_TICK_MAX ∧ ts.remaining t ≠ 0 := by
  cases T with
  | nil => simp
  | cons t T =>
    simp only [head?_cons, Option.mem_def, Option.some.injEq, forall_eq'] at hfirst ⊢
    rw [← wakes_first_iff hr]
    constructor
    · rintro ⟨-, hwakes⟩
      exact hwakes t mem_cons_self
    · rintro ⟨d, hd, hle⟩
      refine ⟨fun hsuspend => ?_, fun u hu => ⟨d, hd, hle.trans (hfirst u hu)⟩⟩
      rw [hsuspend] at hd
      cases hd

/-- A timer of five ticks, started at tick 0: the thread does not suspend itself, and wakes in time. -/
theorem soft_thread_sleeps_five : ∃ ts : AppTimers 1, (Rings ts.rows fun _ : Unit => [0]) ∧
    rtThreadTimerEntry ts ≠ .suspend ∧ ∃ d ∈ (rtThreadTimerEntry ts).wakes, d ≤ ts.due 0 := by
  obtain ⟨ts, hr, -, -, -, htick, hdeadline⟩ :=
    AppTimers.exists_single (fun _ : Fin 1 => 5) (fun _ => false) 0 (t := 0) (by decide)
  have hiff := soft_thread_suspends_iff hr (by simp)
  obtain ⟨hawake, hwakes⟩ := hiff.mpr (by
    simp only [head?_cons, Option.mem_def, Option.some.injEq, forall_eq', AppTimers.remaining, hdeadline, htick]
    decide)
  exact ⟨ts, hr, fun hsuspend => by simpa using hawake hsuspend, hwakes 0 mem_cons_self⟩

/-- A timer that is due at tick `RT_TICK_MAX` looks like no timer: the thread suspends itself. A timer
that is due now is checked a tick late. -/
theorem soft_thread_misses_deadline :
    (∃ ts : AppTimers 1, (Rings ts.rows fun _ : Unit => [0]) ∧ ts.activated 0 = true ∧
      ts.tick = 0xfffffffa ∧ rtThreadTimerEntry ts = .suspend) ∧
    ∃ ts : AppTimers 1, (Rings ts.rows fun _ : Unit => [0]) ∧ ts.activated 0 = true ∧
      ts.due 0 = 0 ∧ rtThreadTimerEntry ts = .delay 0 := by
  constructor
  · obtain ⟨ts, hr, -, -, hact, htick, hdeadline⟩ :=
      AppTimers.exists_single (fun _ : Fin 1 => 5) (fun _ => false) 0xfffffffa (t := 0) (by decide)
    refine ⟨ts, hr, hact, htick, ?_⟩
    rw [rtThreadTimerEntry_cons hr]
    exact if_pos (hdeadline.trans (by decide))
  · obtain ⟨ts, hr, -, -, hact, htick, hdeadline⟩ :=
      AppTimers.exists_single (fun _ : Fin 1 => 0) (fun _ => false) 0 (t := 0) (by decide)
    refine ⟨ts, hr, hact, ?_, ?_⟩
    · rw [AppTimers.due_eq_remaining, AppTimers.remaining, hdeadline, htick]
      · decide
      · rw [AppTimers.remaining, hdeadline, htick]
        decide
    · rw [rtThreadTimerEntry_cons hr, AppTimers.remaining, hdeadline, htick]
      decide

end

end RtThread
