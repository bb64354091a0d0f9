import RtThread.Kernel.Model
import RtThread.Lib.Run
import RtThread.Lib.Word

/-!
# Water marks of the VBus

`rt_wm_que_inc` and `rt_wm_que_dec` of `components/vbus/watermark_queue.h`, by any parties, with fixed
marks. A step is a part with interrupts disabled, the test of `rt_wm_que_dec` in front of it, or the
end of a wait.

The test of `rt_wm_que_dec` is made before interrupts are disabled. If another party takes the level
to zero in between, the level wraps around. Otherwise it falls by one, and does not pass the low mark
without waking all those who wait (`WmInv.exec`).
-/

namespace RtThread

open Lib Function Option

/-- Where a party is: outside the functions, on the list of suspended threads, behind `rt_schedule`
with the error of the thread, or behind the test of `rt_wm_que_dec`. -/
inductive WmDoing
  | idle
  | waits (timeout : ℤ)
  | resumed (timeout error : ℤ)
  | tested
  deriving DecidableEq

/-- `struct rt_watermark_queue`, with the parties. -/
structure WmQueue (α : Type) where
  level : ℕ
  low : ℕ
  high : ℕ
  doing : α → WmDoing

/-- The steps of the parties. -/
inductive WmAct (α : Type)
  | inc (t : α) (timeout : ℤ)
  | expire (t : α)
  | go (t : α)
  | test (t : α)
  | dec (t : α)

variable {α : Type} [DecidableEq α]

namespace WmQueue

variable (s : WmQueue α)

/-- `rt_wm_que_inc` from its loop on, up to `rt_schedule`, with what it returns if it does. -/
def incLoop (t : α) (timeout : ℤ) : WmQueue α × Option ℤ :=
  if s.high < s.level then
    if timeout = 0 then ({ s with doing := update s.doing t .idle }, some (-RT_EFULL))
    else ({ s with doing := update s.doing t (.waits timeout) }, none)
  else
    let level := add32 s.level 1
    ({ s with level := if level = 0 then 2^32 - 1 else level, doing := update s.doing t .idle }, some RT_EOK)

/-- `rt_wm_que_dec` behind its test: at the low mark all those who wait are resumed. -/
def decSection (t : α) : WmQueue α :=
  { s with
    level := sub32 s.level 1
    doing := fun u => match update s.doing t .idle u with
      | .waits timeout => if sub32 s.level 1 = s.low then .resumed timeout RT_EOK else .waits timeout
      | d => d }

/-- One step. -/
def exec : WmAct α → Option (WmQueue α)
  | .inc t timeout => if s.doing t = .idle then some (s.incLoop t timeout).1 else none
  | .expire t => match s.doing t with
    | .waits timeout =>
      if 0 < timeout then some { s with doing := update s.doing t (.resumed timeout (-RT_ETIMEOUT)) } else none
    | _ => none
  | .go t => match s.doing t with
    | .resumed timeout error =>
      some (if error ≠ RT_EOK then { s with doing := update s.doing t .idle } else (s.incLoop t timeout).1)
    | _ => none
  | .test t => if s.doing t = .idle then
      some { s with doing := update s.doing t (if s.level = 0 then .idle else .tested) } else none
  | .dec t => if s.doing t = .tested then some (s.decSection t) else none

end WmQueue

variable (α) in
/-- A queue as `rt_wm_que_init` leaves it. -/
def wmSystem : System (WmQueue α) (WmAct α) where
  init := fun s => s.level = 0 ∧ s.low ≤ s.high ∧ s.high < 2^32 ∧ s.doing = fun _ => .idle
  step := fun s a s' => s.exec a = some s'

/-- No party has taken the level to zero since the test. -/
def WmAct.Covered (s : WmQueue α) : WmAct α → Prop
  | .dec _ => s.level ≠ 0
  | _ => True

instance (s : WmQueue α) (a : WmAct α) : Decidable (a.Covered s) := by
  cases a <;> unfold WmAct.Covered <;> infer_instance

/-- What every step keeps. -/
structure WmInv (s : WmQueue α) : Prop where
  marks : s.low ≤ s.high ∧ s.high < 2^32
  level : s.level ≤ s.high + 1 ∧ s.level < 2^32
  suspended : ∀ t timeout, s.doing t = .waits timeout → s.low < s.level

variable {s s' : WmQueue α}

theorem WmInv.move (h : WmInv s) (t : α) {d : WmDoing} {level : ℕ} (hd : ∀ timeout, d ≠ .waits timeout)
    (hlevel : s.level ≤ level ∧ level ≤ s.high + 1 ∧ level < 2^32) :
    WmInv { s with level := level, doing := update s.doing t d } := by
  refine ⟨h.marks, hlevel.2, fun u timeout hu => ?_⟩
  rcases eq_or_ne u t with rfl | hne
  · exact absurd ((update_self ..).symm.trans hu) (hd timeout)
  · exact (h.suspended u timeout ((update_of_ne hne ..).symm.trans hu)).trans_le hlevel.1

theorem WmInv.incLoop (h : WmInv s) (t : α) (timeout : ℤ) : WmInv (s.incLoop t timeout).1 := by
  obtain ⟨hlow, hhigh⟩ := h.marks
  obtain ⟨hle, hlt⟩ := h.level
  unfold WmQueue.incLoop
  split_ifs with hfull
  · exact h.move t (by simp) ⟨le_rfl, hle, hlt⟩
  · exact ⟨h.marks, h.level, fun _ _ _ => hlow.trans_lt hfull⟩
  · refine h.move t (by simp) ?_
    unfold add32
    split_ifs <;> omega

/-- A covered step lowers the level by one at most, and wakes all at the low mark. -/
theorem WmInv.exec {a : WmAct α} (h : WmInv s) (hok : a.Covered s) (hs : s.exec a = some s') : WmInv s' := by
  have hkeep : s.level ≤ s.level ∧ s.level ≤ s.high + 1 ∧ s.level < 2^32 := ⟨le_rfl, h.level⟩
  cases a with
  | inc t timeout =>
    obtain ⟨-, hs⟩ := ite_none_right_eq_some.mp hs
    exact some.inj hs ▸ h.incLoop t timeout
  | expire t =>
    rw [WmQueue.exec] at hs
    split at hs
    · obtain ⟨-, hs⟩ := ite_none_right_eq_some.mp hs
      exact some.inj hs ▸ h.move t (by simp) hkeep
    · cases hs
  | go t =>
    rw [WmQueue.exec] at hs
    split at hs
    · obtain rfl := some.inj hs
      split_ifs
      · exact h.move t (by simp) hkeep
      · exact h.incLoop t _
    · cases hs
  | test t =>
    obtain ⟨-, hs⟩ := ite_none_right_eq_some.mp hs
    exact some.inj hs ▸ h.move t (by split_ifs <;> simp) hkeep
  | dec t =>
    obtain ⟨-, hs⟩ := ite_none_right_eq_some.mp hs
    have hpos : s.level ≠ 0 := hok
    have hlevel : sub32 s.level 1 = s.level - 1 := sub32_eq (by omega) h.level.2
    rw [← some.inj hs, WmQueue.decSection, hlevel]
    refine ⟨h.marks, ?_, fun u timeout hu => ?_⟩
    · have := h.level
      dsimp only
      omega
    · -- Whoever still waits was waiting before, and the low mark is not met.
      dsimp only at hu ⊢
      split at hu
      next hwaits =>
        split_ifs at hu with hlow
        have hbefore := (h.move t (d := .idle) (by simp) hkeep).suspended u _ hwaits
        dsimp only at hbefore
        omega
      next hnot => exact absurd hu (hnot timeout)

/-- In every run in which no level of zero is decremented, the level is at most one above the high mark,
it falls by one with each decrement, and it is above the low mark while a thread is suspended. -/
theorem watermark_level (hs : Reachable (wmSystem α) (fun s a => a.Covered s) s) :
    s.level ≤ s.high + 1 ∧ (∀ t timeout, s.doing t = .waits timeout → s.low < s.level) ∧
      ∀ t s', s.level ≠ 0 → s.exec (.dec t) = some s' → s'.level + 1 = s.level := by
  have h : WmInv s := by
    refine hs.invariant ?_ fun s a s' h hok hstep => h.exec hok hstep
    rintro s ⟨hlevel, hmarks, hhigh, hidle⟩
    exact ⟨⟨hmarks, hhigh⟩, by omega, by simp [hidle]⟩
  refine ⟨h.level.1, h.suspended, fun t s' hpos hstep => ?_⟩
  obtain ⟨-, hs'⟩ := ite_none_right_eq_some.mp hstep
  rw [← some.inj hs']
  dsimp only [WmQueue.decSection]
  rw [sub32_eq (by omega) h.level.2]
  omega

/-- A thread is suspended at the level above the high mark. -/
theorem watermark_level_suspended : ∃ s, Reachable (wmSystem (Fin 2)) (fun s a => a.Covered s) s ∧
    s.doing 1 = .waits (-1) ∧ s.low < s.level := by
  refine exists_reachable_and ?_ fun s hs hwait => (watermark_level hs).2.1 1 _ hwait
  exact exists_reachable_of_exec (s := ⟨0, 1, 1, fun _ => .idle⟩) ⟨rfl, by decide, by decide, rfl⟩
    [.inc 0 0, .inc 0 0, .inc 1 (-1)] (by decide)

/-- Two parties test a level of one, and both decrement it. -/
theorem watermark_wraps : ∃ s, Reachable (wmSystem (Fin 2)) always s ∧ s.high = 0 ∧ s.level = 2^32 - 1 := by
  exact exists_reachable_of_exec (s := ⟨0, 0, 0, fun _ => .idle⟩) ⟨rfl, by decide, by decide, rfl⟩
    [.inc 0 0, .test 0, .test 1, .dec 1, .dec 0] (by decide)

end RtThread
