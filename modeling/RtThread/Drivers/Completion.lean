import RtThread.Kernel.Model
import RtThread.Lib.Run

/-!
# Completions

`rt_completion_wait` and `rt_completion_done` of `components/drivers/src/completion.c`, with one waiter.
A step is a section with interrupts off, the test of `rt_completion_done` in front of its section, or
the expiry of the waiter's timer.

A waiter whose time is over clears the flag when it runs again, so a completion that came in between is
lost. In all other cases the flag stays until a wait returns `RT_EOK` (`completion_kept`).
-/

namespace RtThread

open Lib Option

/-- Where the waiter is: outside `rt_completion_wait`, on the list, or behind `rt_schedule` with its error. -/
inductive CompWaiter
  | idle
  | waits (timeout : ℤ)
  | resumed (error : ℤ)
  deriving DecidableEq

/-- The flag of `struct rt_completion`, with the waiter and the number of calls of `rt_completion_done`
that have found the flag clear. -/
structure Completion where
  flag : Bool
  waiter : CompWaiter
  tested : ℕ

/-- The steps of the waiter and of those that complete. -/
inductive CompAct
  | wait (timeout : ℤ)
  | expire
  | go
  | test
  | done

/-- A step, with the result of `rt_completion_wait` if it returns. -/
def Completion.exec (s : Completion) : CompAct → Option (Completion × Option ℤ)
  | .wait timeout => if s.waiter ≠ .idle then none else
      some (if s.flag then ({ s with flag := false }, some RT_EOK)
        else if timeout = 0 then (s, some (-RT_ETIMEOUT))
        else ({ s with waiter := .waits timeout }, none))
  | .expire => match s.waiter with
    | .waits timeout => if 0 < timeout then some ({ s with waiter := .resumed (-RT_ETIMEOUT) }, none) else none
    | _ => none
  | .go => match s.waiter with
    | .resumed error => some ({ s with flag := false, waiter := .idle }, some error)
    | _ => none
  | .test => some (if s.flag then s else { s with tested := s.tested + 1 }, none)
  | .done => if s.tested = 0 then none else
      some ({ s with
        flag := true
        tested := s.tested - 1
        waiter := match s.waiter with
          | .waits _ => .resumed RT_EOK
          | w => w }, none)

/-- The state after a step. -/
def Completion.next (s : Completion) (a : CompAct) : Option Completion :=
  (s.exec a).map Prod.fst

/-- The runs from a completion that is not done. -/
def compSystem : System Completion CompAct where
  init := fun s => s = ⟨false, .idle, 0⟩
  step := fun s a s' => s.next a = some s'

/-- The completion does not come between the expiry of the timer and the waiter's next step. -/
def CompAct.InTime (s : Completion) : CompAct → Prop
  | .done => s.waiter ≠ .resumed (-RT_ETIMEOUT)
  | _ => True

instance (s : Completion) (a : CompAct) : Decidable (a.InTime s) := by
  cases a <;> unfold CompAct.InTime <;> infer_instance

/-- The flag is set just for a waiter that has been completed, or for the next one. -/
def Completion.Fits (s : Completion) : Prop :=
  match s.waiter with
  | .idle => True
  | .waits _ => s.flag = false
  | .resumed error => error = if s.flag then RT_EOK else -RT_ETIMEOUT

/-- What a step may do to the flag: a completion sets it, only a wait that returns `RT_EOK` takes it,
and a wait that times out does not change it. -/
structure Completion.Keeps (s s' : Completion) (a : CompAct) (r : Option ℤ) : Prop where
  done : a = .done → s'.flag = true
  kept : s.flag = true → s'.flag = true ∨ r = some RT_EOK
  taken : r = some RT_EOK → s.flag = true ∧ s'.flag = false
  timeout : r = some (-RT_ETIMEOUT) → s'.flag = s.flag

variable {s s' : Completion} {a : CompAct} {r : Option ℤ}

/-- A step keeps the flag until a wait returns `RT_EOK`. -/
theorem Completion.Fits.exec (h : s.Fits) (hok : a.InTime s) (hs : s.exec a = some (s', r)) :
    s'.Fits ∧ s.Keeps s' a r := by
  obtain ⟨flag, waiter, tested⟩ := s
  cases a with
  | wait timeout =>
    obtain ⟨hidle, hs⟩ := ite_none_left_eq_some.mp hs
    obtain rfl := of_not_not hidle
    cases flag
    · by_cases hzero : timeout = 0
      · cases (if_pos hzero).symm.trans (some.inj hs)
        exact ⟨h, by constructor <;> simp [RT_EOK, RT_ETIMEOUT]⟩
      · cases (if_neg hzero).symm.trans (some.inj hs)
        exact ⟨rfl, by constructor <;> simp⟩
    · cases hs
      exact ⟨trivial, by constructor <;> simp [RT_EOK, RT_ETIMEOUT]⟩
  | expire =>
    cases waiter with
    | waits timeout =>
      obtain ⟨-, hs⟩ := ite_none_right_eq_some.mp hs
      cases hs
      obtain rfl : flag = false := h
      exact ⟨rfl, by constructor <;> simp⟩
    | _ => cases hs
  | go =>
    cases waiter with
    | resumed error =>
      cases hs
      obtain rfl : error = if flag then RT_EOK else -RT_ETIMEOUT := h
      exact ⟨trivial, by constructor <;> cases flag <;> simp [RT_EOK, RT_ETIMEOUT]⟩
    | _ => cases hs
  | test =>
    cases hs
    cases flag <;> exact ⟨h, by constructor <;> simp⟩
  | done =>
    obtain ⟨-, hs⟩ := ite_none_left_eq_some.mp hs
    cases hs
    refine ⟨?_, by constructor <;> simp⟩
    cases waiter with
    | idle => trivial
    | waits timeout => rfl
    | resumed error =>
      -- A waiter that has not timed out has been completed already.
      cases flag
      · exact absurd (congrArg CompWaiter.resumed h) hok
      · exact h

/-- In every run in which no completion comes between a timeout and the next step of the waiter, the
flag is clear while the waiter is suspended, and every step keeps completions. -/
theorem completion_kept (hs : Reachable compSystem (fun s a => a.InTime s) s) :
    (∀ timeout, s.waiter = .waits timeout → s.flag = false) ∧
      ∀ a s' r, a.InTime s → s.exec a = some (s', r) → s.Keeps s' a r := by
  have h : s.Fits := by
    refine hs.invariant (fun s hinit => by subst hinit; trivial) fun s a s' h hok hstep => ?_
    obtain ⟨⟨_, r⟩, hexec, rfl⟩ := map_eq_some_iff.mp hstep
    exact (h.exec hok hexec).1
  refine ⟨fun timeout hwaits => ?_, fun a s' r hok hstep => (h.exec hok hstep).2⟩
  unfold Completion.Fits at h
  rwa [hwaits] at h

/-- A completion that is done before the wait. -/
theorem completion_kept_done : ∃ s, Reachable compSystem (fun s a => a.InTime s) s ∧
    s.waiter = .resumed RT_EOK ∧ s.flag = true := by
  refine exists_reachable_and ?_ fun s hs hwaiter => ?_
  · exact exists_reachable_of_exec (f := Completion.next) rfl [.wait 1, .test, .done] (by decide)
  · have hgo : s.exec .go = some ({ s with flag := false, waiter := .idle }, some RT_EOK) := by
      rw [Completion.exec, hwaiter]
    exact (((completion_kept hs).2 .go _ _ trivial hgo).taken rfl).1

/-- The completion comes behind the timeout, and the wait that has timed out takes it. -/
theorem timeout_takes_completion : ∃ s, Reachable compSystem always s ∧ s.flag = true ∧
    (s.exec .go).map (fun x => (x.1.flag, x.2)) = some (false, some (-RT_ETIMEOUT)) := by
  exact exists_reachable_of_exec (f := Completion.next) rfl [.wait 1, .expire, .test, .done] (by decide)

end RtThread
