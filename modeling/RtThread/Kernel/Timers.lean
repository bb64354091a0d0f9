import RtThread.Kernel.Queues
import RtThread.Lib.Agenda

/-!
# The timer list

`Armed ts T` says that the links of the timers represent the timer list `T` and that every timer on
it has the flag `RT_TIMER_FLAG_ACTIVATED`, on which `rt_timer_stop` relies. The functions of
`timer.c` keep it. Stopping takes a timer off the list, and starting puts it on the list, behind the
timers that are due no later; the walk to that place ends within the length of the list
(`rowHead_spec`, `rtTimerStart_rings`).
-/

namespace RtThread

open Lib Function List

variable {n : ℕ} {ts ts' : Timers n} {T : List (Fin n)} {t : Fin n}

/-- The timers on the timer list are `T`, and they are activated. -/
structure Armed (ts : Timers n) (T : List (Fin n)) : Prop where
  rings : Rings ts.rows fun _ : Unit => T
  activated : ∀ t ∈ T, ts.activated t = true

namespace Armed

section

variable (ha : Armed ts T)
include ha

theorem nodup : T.Nodup := ha.rings.nodup ()

theorem remove (t : Fin n) : Armed (rtTimerRemove ts t) (T.erase t) :=
  ⟨rings_rtListRemove ha.rings t, fun u hu => ha.activated u (mem_of_mem_erase hu)⟩

theorem deactivate (ht : t ∉ T) : Armed (ts.deactivate t) T := by
  refine ⟨ha.rings, fun u hu => ?_⟩
  have hne : u ≠ t := by
    rintro rfl
    exact ht hu
  change update ts.activated t false u = true
  rw [update_of_ne hne]
  exact ha.activated u hu

theorem stop (t : Fin n) : Armed (rtTimerStop ts t) (T.erase t) := by
  unfold rtTimerStop
  split_ifs with hact
  · exact (ha.remove t).deactivate (ha.nodup.not_mem_erase)
  · have ht : t ∉ T := fun hmem => hact (ha.activated t hmem)
    rwa [erase_of_not_mem ht]

theorem setTime (t : Fin n) (time : ℕ) : Armed (rtTimerSetTime ts t time) T :=
  ⟨ha.rings, ha.activated⟩

end

end Armed

/-- The timer `u` is due later than `due`, in the comparison of `rt_timer_start`. -/
def Timers.later (ts : Timers n) (due : ℕ) (u : Fin n) : Bool :=
  sub32 (ts.timeoutTick u) due ≠ 0 ∧ sub32 (ts.timeoutTick u) due < halfTickMax

/-- The walk of `rt_timer_start` from a node of the list ends before the first timer that is due
later. -/
theorem rowHead_spec (hr : Rings ts.rows fun _ : Unit => T) (timer : Fin n) {l₁ l₂ : List (Fin n)}
    {row : Node Unit (Fin n)} {fuel : ℕ} (hsplit : T = l₁ ++ l₂) (hrow : row ∈ Node.all () T)
    (hnext : ts.rows.next row = Node.first () l₂) (hfuel : l₂.length < fuel) :
    ∃ r, ts.rowHead timer fuel row = .ok r ∧ r ∈ Node.all () T ∧
      ts.rows.next r = Node.first () (l₂.dropWhile fun u => !ts.later (ts.timeoutTick timer) u) := by
  -- Along the rest `l₂` of the list.
  induction l₂ generalizing l₁ row fuel with
  | nil =>
    obtain ⟨fuel, rfl⟩ := Nat.exists_eq_succ_of_ne_zero (by omega : fuel ≠ 0)
    have hlast : row = ts.rows.prev (.head ()) := by
      rw [← Node.first_nil (M := Fin n), ← hnext, (hr.ring ()).prev_next hrow]
    exact ⟨row, by rw [Timers.rowHead, if_pos hlast], hrow, hnext⟩
  | cons u l₂ ih =>
    obtain ⟨fuel, rfl⟩ := Nat.exists_eq_succ_of_ne_zero (by omega : fuel ≠ 0)
    have hnotlast : row ≠ ts.rows.prev (.head ()) := by
      intro hlast
      rw [hlast, (hr.ring ()).next_prev (by simp)] at hnext
      simp at hnext
    rw [Timers.rowHead, if_neg hnotlast, hnext, Node.first_cons]
    dsimp only
    by_cases hlater : ts.later (ts.timeoutTick timer) u = true
    · -- The walk stops here.
      obtain ⟨h0, h1⟩ : _ ≠ 0 ∧ _ < halfTickMax := by simpa [Timers.later] using hlater
      rw [if_neg h0, if_pos h1, dropWhile_cons_of_neg (by simp [hlater])]
      exact ⟨row, rfl, hrow, hnext⟩
    · -- And goes on past a timer that is due no later.
      have hsplit' : T = (l₁ ++ [u]) ++ l₂ := by simp [hsplit]
      rw [length_cons] at hfuel
      have hfuel' : l₂.length < fuel := by omega
      obtain ⟨r, hr', hmem, hfirst⟩ := ih hsplit' (by simp [hsplit]) (hr.next_item hsplit) hfuel'
      rw [dropWhile_cons_of_pos (by simp [hlater])]
      refine ⟨r, ?_, hmem, hfirst⟩
      split_ifs with h0 h1
      · exact hr'
      · exact absurd (by simpa [Timers.later] using ⟨h0, h1⟩) hlater
      · exact hr'

/-- What `rt_timer_start` writes, with the links `rows`. -/
def Timers.started (ts : Timers n) (t : Fin n) (rows : Links (Node Unit (Fin n))) : Timers n :=
  { ts with
    rows := rows
    activated := update ts.activated t true
    timeoutTick := update ts.timeoutTick t (add32 ts.tick (ts.initTick t)) }

/-- Starting puts the timer behind those that are due no later. -/
theorem rtTimerStart_rings (hr : Rings ts.rows fun _ : Unit => T) (htime : ts.initTick t < halfTickMax) :
    ∃ rows, rtTimerStart ts t = .ok (ts.started t rows) ∧ Rings rows fun _ : Unit =>
        insertWhile (fun u => !ts.later (add32 ts.tick (ts.initTick t)) u) t (T.erase t) := by
  have hnodup : (T.erase t).Nodup := (hr.nodup ()).erase t
  have hlen : (T.erase t).length ≤ n := by simpa using hnodup.length_le_card
  have hnot : t ∉ T.erase t := (hr.nodup ()).not_mem_erase
  -- The walk reads the timer's new due time.
  obtain ⟨due, hdue⟩ : ∃ due : Timers n, due = { (rtTimerRemove ts t).deactivate t with
      timeoutTick := update ts.timeoutTick t (add32 ts.tick (ts.initTick t)) } := ⟨_, rfl⟩
  have hself : due.timeoutTick t = add32 ts.tick (ts.initTick t) := by
    rw [hdue]
    exact update_self ..
  have hrings : Rings due.rows fun _ : Unit => T.erase t := by
    rw [hdue]
    exact rings_rtListRemove hr t
  obtain ⟨row, hwalk, hrow, hnext⟩ := rowHead_spec hrings t (nil_append _).symm (by simp)
    (hrings.next_head ()) (Nat.lt_succ_of_le hlen)
  have hinsert := rings_rtListInsertAfter hrings (fun _ => hnot)
    (takeWhile_append_dropWhile ..).symm hrow hnext
  have hplace : update (fun _ : Unit => T.erase t) ()
      (insertWhile (fun u => !due.later (due.timeoutTick t) u) t (T.erase t)) =
      fun _ => insertWhile (fun u => !ts.later (add32 ts.tick (ts.initTick t)) u) t (T.erase t) := by
    funext h
    rw [update_self, hself]
    refine insertWhile_congr fun u hu => ?_
    have hut : u ≠ t := fun heq => hnot (heq ▸ hu)
    have hother : due.timeoutTick u = ts.timeoutTick u := by
      rw [hdue]
      exact update_of_ne hut ..
    unfold Timers.later
    rw [hother]
  refine ⟨rtListInsertAfter due.rows row (.item t), ?_, hplace ▸ hinsert⟩
  have hflags : update due.activated t true = update ts.activated t true := by
    rw [hdue]
    exact update_idem ..
  change (if ts.initTick t < halfTickMax then _ else _) = _
  rw [if_pos htime]
  change ((Timers.rowHead { (rtTimerRemove ts t).deactivate t with
    timeoutTick := update ts.timeoutTick t (add32 ts.tick (ts.initTick t)) } t (n + 1)
      (.head ())).bind _) = _
  rw [← hdue, hwalk]
  unfold Timers.started
  rw [← hflags, hdue]
  rfl

theorem rtTimerStart_spec (ha : Armed ts T) (htime : ts.initTick t < halfTickMax) :
    ∃ ts' T', rtTimerStart ts t = .ok ts' ∧ Armed ts' T' ∧ (∀ u, u ∈ T' ↔ u = t ∨ u ∈ T) ∧
      ts'.tick = ts.tick := by
  obtain ⟨rows, hstart, hrings⟩ := rtTimerStart_rings ha.rings htime
  have hmem : ∀ {u}, u ∈ insertWhile (fun u => !ts.later (add32 ts.tick (ts.initTick t)) u) t (T.erase t) ↔
      u = t ∨ u ∈ T := by
    intro u
    rw [mem_insertWhile, ha.nodup.mem_erase_iff]
    tauto
  refine ⟨_, _, hstart, ⟨hrings, fun u hu => ?_⟩, fun _ => hmem, rfl⟩
  change update ts.activated t true u = true
  rw [update_apply]
  split_ifs with hut
  · rfl
  · exact ha.activated u ((hmem.mp hu).resolve_left hut)

theorem rtTimerStart_assertion (htime : ¬ts.initTick t < halfTickMax) :
    rtTimerStart ts t = .error .assertion := by
  exact if_neg htime

/-- The timers that run are those of the threads with `f`. -/
def Timers.Run (ts : Timers n) (f : Fin n → Bool) : Prop :=
  ∃ T, Armed ts T ∧ ∀ t, f t = true ↔ t ∈ T

namespace Timers.Run

variable {f : Fin n → Bool}

theorem of_erase (hf : ∀ u, f u = true ↔ u ∈ T) (hnodup : T.Nodup) (t u : Fin n) :
    update f t false u = true ↔ u ∈ T.erase t := by
  rw [hnodup.mem_erase_iff, ← hf u, update_apply]
  by_cases hu : u = t
  · simp [hu]
  · simp [hu]

theorem remove (hr : ts.Run f) (t : Fin n) : (rtTimerRemove ts t).Run (update f t false) := by
  obtain ⟨T, ha, hf⟩ := hr
  exact ⟨T.erase t, ha.remove t, of_erase hf ha.nodup t⟩

theorem stop (hr : ts.Run f) (t : Fin n) : (rtTimerStop ts t).Run (update f t false) := by
  obtain ⟨T, ha, hf⟩ := hr
  exact ⟨T.erase t, ha.stop t, of_erase hf ha.nodup t⟩

theorem deactivate (hr : ts.Run f) (ht : f t = false) : (ts.deactivate t).Run f := by
  obtain ⟨T, ha, hf⟩ := hr
  have hnot : t ∉ T := by
    rw [← hf t, ht]
    exact Bool.false_ne_true
  exact ⟨T, ha.deactivate hnot, hf⟩

theorem start (hr : ts.Run f) (htime : ts.initTick t < halfTickMax) :
    ∃ ts', rtTimerStart ts t = .ok ts' ∧ ts'.Run (update f t true) ∧ ts'.tick = ts.tick := by
  obtain ⟨T, ha, hf⟩ := hr
  obtain ⟨ts', T', hstart, ha', hmem, htick⟩ := rtTimerStart_spec ha htime
  refine ⟨ts', hstart, ⟨T', ha', fun u => ?_⟩, htick⟩
  rw [hmem, ← hf u, update_apply]
  by_cases hu : u = t
  · simp [hu]
  · simp [hu]

theorem of_next (hr : ts.Run f) (hnext : ts.rows.next (.head ()) = .item t) : f t = true := by
  obtain ⟨T, ha, hf⟩ := hr
  have hmem := ha.rings.next_mem (h := ()) (b := .head ()) (by simp)
  rw [hnext] at hmem
  exact (hf t).mpr (Node.item_mem_all.mp hmem)

end Timers.Run

end RtThread
