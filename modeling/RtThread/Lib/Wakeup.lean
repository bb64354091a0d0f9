import Mathlib.Logic.Basic

/-!
# Waiting without losing a wake-up

A waiter tests for what it needs. If there is nothing, it puts itself on a list, stops, and tests
again once it has been woken. A waker makes something available, looks at the list, and if the list
is not empty takes the waiter from it and lets it go on. All of these are steps of their own,
between which the other party may run.

`Wakeup` is what the argument needs of a state, whatever the state is, and `Wakeup.Step` are the
steps. The wake-up is lost in two cases: a waker looks at the list between the test and the entry in
the list, and a waker takes the waiter from the list before it stops. `Step` leaves both out. Then
whenever the waiter is stopped and something is there, a waker is still under way
(`Covered.not_lost`).
-/

namespace RtThread.Lib

/-- Where the waiter is. -/
inductive Waiting
  | away
  /-- It has found nothing, and is not on the list yet. -/
  | decided
  /-- On the list, and not stopped yet. -/
  | listed
  /-- Stopped, or woken and not yet running. -/
  | asleep
  deriving DecidableEq

/-- What a state says about a wake-up. -/
structure Wakeup where
  waiter : Waiting
  onList : Prop
  stopped : Prop
  /-- There is something for the waiter. -/
  ready : Prop
  /-- A waker is going to look at the list. -/
  looking : Prop
  /-- A waker has found the list not empty, and is going to take from it. -/
  taking : Prop

namespace Wakeup

/-- The steps that lose no wake-up. -/
inductive Step (v v' : Wakeup) : Prop
  /-- The waiter does something else. -/
  | leave (hwaiter : v'.waiter = .away)
  | decide (hwaiter : v'.waiter = .decided) (hready : ¬v'.ready)
  | enlist (hwaiter : v.waiter = .decided) (hwaiter' : v'.waiter = .listed) (hlist : v'.onList)
    (hready : v'.ready → v.ready) (hlooking : v.looking → v'.looking)
  | stop (hwaiter : v.waiter = .listed) (hwaiter' : v'.waiter = .asleep) (hlist : v.onList → v'.onList)
    (hready : v'.ready → v.ready) (hlooking : v.looking → v'.looking) (htaking : v.taking → v'.taking)
  /-- Something may become available if a waker is going to look at the list. -/
  | other (hwaiter : v'.waiter = v.waiter) (hlist : v.onList → v'.onList) (hstopped : v'.stopped → v.stopped)
    (hready : v'.ready → v.ready ∨ v'.looking) (hlooking : v.looking → v'.looking) (htaking : v.taking → v'.taking)
  /-- A waker looks at the list. If the waiter is about to go there, another waker is to follow. -/
  | look (hwaiter : v'.waiter = v.waiter) (hlist : v'.onList ↔ v.onList) (hstopped : v'.stopped → v.stopped)
    (hready : v'.ready → v.ready) (hfound : v.onList → v'.taking) (hfollows : v.waiter = .decided → v.ready → v'.looking)
  /-- A waker takes the waiter from the list, unless the waiter has yet to stop. -/
  | take (hwaiter : v'.waiter = v.waiter) (hlisted : v.waiter ≠ .listed) (hstopped : v'.stopped → v.stopped)
    (hwoken : v.onList → ¬v'.stopped) (hready : v'.ready → v.ready) (hlooking : v.looking → v'.looking)

/-- The waiter is stopped although there is something for it, and no waker is under way. -/
def Lost (v : Wakeup) : Prop := v.waiter = .asleep ∧ v.stopped ∧ v.ready ∧ ¬v.looking ∧ ¬v.taking

/-- While something is there and the waiter is not away, a waker is under way that will find it. -/
structure Covered (v : Wakeup) : Prop where
  decided : v.waiter = .decided → v.ready → v.looking
  listed : v.waiter = .listed → v.onList ∧ (v.ready → v.looking ∨ v.taking)
  asleep : v.waiter = .asleep → v.stopped → v.onList ∧ (v.ready → v.looking ∨ v.taking)

namespace Covered

variable {v v' : Wakeup}

theorem of_away (h : v.waiter = .away) : v.Covered := by
  constructor <;> intro hwaiter <;> rw [h] at hwaiter <;> cases hwaiter

/-- A step loses no wake-up. -/
theorem step (h : v.Covered) (hs : Step v v') : v'.Covered := by
  cases hs with
  | leave hwaiter => exact of_away hwaiter
  | decide hwaiter hready =>
    constructor
    · exact fun _ hready' => absurd hready' hready
    · intro hlisted
      rw [hwaiter] at hlisted
      cases hlisted
    · intro hasleep
      rw [hwaiter] at hasleep
      cases hasleep
  | enlist hwaiter hwaiter' hlist hready hlooking =>
    constructor
    · intro hdecided
      rw [hwaiter'] at hdecided
      cases hdecided
    · -- The waker that was to look at the list before is still to look.
      exact fun _ => ⟨hlist, fun hready' => Or.inl (hlooking (h.decided hwaiter (hready hready')))⟩
    · intro hasleep
      rw [hwaiter'] at hasleep
      cases hasleep
  | stop hwaiter hwaiter' hlist hready hlooking htaking =>
    obtain ⟨hon, hwaker⟩ := h.listed hwaiter
    constructor
    · intro hdecided
      rw [hwaiter'] at hdecided
      cases hdecided
    · intro hlisted
      rw [hwaiter'] at hlisted
      cases hlisted
    · exact fun _ _ => ⟨hlist hon, fun hready' => (hwaker (hready hready')).imp hlooking htaking⟩
  | other hwaiter hlist hstopped hready hlooking htaking =>
    constructor
    · intro hdecided hready'
      exact (hready hready').elim (fun hold => hlooking (h.decided (hwaiter ▸ hdecided) hold)) id
    · intro hlisted
      obtain ⟨hon, hwaker⟩ := h.listed (hwaiter ▸ hlisted)
      exact ⟨hlist hon, fun hready' => (hready hready').elim (fun hold => (hwaker hold).imp hlooking htaking) Or.inl⟩
    · intro hasleep hstopped'
      obtain ⟨hon, hwaker⟩ := h.asleep (hwaiter ▸ hasleep) (hstopped hstopped')
      exact ⟨hlist hon, fun hready' => (hready hready').elim (fun hold => (hwaker hold).imp hlooking htaking) Or.inl⟩
  | look hwaiter hlist hstopped hready hfound hfollows =>
    constructor
    · exact fun hdecided hready' => hfollows (hwaiter ▸ hdecided) (hready hready')
    · intro hlisted
      obtain ⟨hon, -⟩ := h.listed (hwaiter ▸ hlisted)
      exact ⟨hlist.mpr hon, fun _ => Or.inr (hfound hon)⟩
    · intro hasleep hstopped'
      obtain ⟨hon, -⟩ := h.asleep (hwaiter ▸ hasleep) (hstopped hstopped')
      exact ⟨hlist.mpr hon, fun _ => Or.inr (hfound hon)⟩
  | take hwaiter hlisted hstopped hwoken hready hlooking =>
    constructor
    · exact fun hdecided hready' => hlooking (h.decided (hwaiter ▸ hdecided) (hready hready'))
    · exact fun hlisted' => absurd (hwaiter ▸ hlisted') hlisted
    · -- A stopped waiter was on the list, and has been woken.
      intro hasleep hstopped'
      obtain ⟨hon, -⟩ := h.asleep (hwaiter ▸ hasleep) (hstopped hstopped')
      exact absurd hstopped' (hwoken hon)

theorem not_lost (h : v.Covered) : ¬v.Lost := by
  rintro ⟨hasleep, hstopped, hready, hlooking, htaking⟩
  obtain ⟨-, hwaker⟩ := h.asleep hasleep hstopped
  exact (hwaker hready).elim hlooking htaking

end Covered

end Wakeup

end RtThread.Lib
