import Mathlib.Algebra.Group.Int.Defs
import Mathlib.Data.Fintype.Basic
import Mathlib.Logic.Function.Basic
import RtThread.Lib.Run

/-!
# The read-write lock

The model of the lock functions of `components/libc/pthreads/pthread_rwlock.c`. Each begins with a
test of `attr` and, for a lock from `PTHREAD_RWLOCK_INITIALIZER`, with `pthread_rwlock_init`, both
without a lock. All else is done with `rw_mutex` held, which is given up before the end only to wait
for a condition variable. A step is the test, the initialisation, or what a thread does while it holds
the mutex. Of the condition variables nothing is assumed: a wait may end at any time, signalled or
not, and with an error or without one.
-/

namespace RtThread.Rwlock

open Lib Option

/-- How a thread holds the lock, or wants to. -/
inductive Kind
  | read
  | write
  deriving DecidableEq

/-- The counters of `pthread_rwlock_t`. -/
structure Counters where
  refcount : ℤ
  nwaitreaders : ℤ
  nwaitwriters : ℤ

/-- What a thread does next: its call returns 0 or an error, or it waits. -/
inductive Outcome
  | locked
  | failed
  | waits
  deriving DecidableEq

section

variable (rw : Counters) (k : Kind)

/-- The condition of the loop: the lock cannot be taken. -/
def Counters.Busy : Kind → Prop
  | .read => rw.refcount < 0 ∨ 0 < rw.nwaitwriters
  | .write => rw.refcount ≠ 0

instance : Decidable (rw.Busy k) :=
  match k with
  | .read => inferInstanceAs (Decidable (_ ∨ _))
  | .write => inferInstanceAs (Decidable (_ ≠ _))

/-- The number of waiting threads changes. -/
def Counters.waiting (d : ℤ) : Kind → Counters
  | .read => { rw with nwaitreaders := rw.nwaitreaders + d }
  | .write => { rw with nwaitwriters := rw.nwaitwriters + d }

/-- The lock is taken. -/
def Counters.taken : Kind → Counters
  | .read => { rw with refcount := rw.refcount + 1 }
  | .write => { rw with refcount := -1 }

/-- The lock is taken if it is not busy. -/
def attempt (busy : Counters × Outcome) : Counters × Outcome :=
  if rw.Busy k then busy else (rw.taken k, .locked)

/-- `pthread_rwlock_tryrdlock` and `pthread_rwlock_trywrlock`. -/
def trylock : Counters × Outcome := attempt rw k (rw, .failed)

/-- `pthread_rwlock_rdlock`, `pthread_rwlock_wrlock` and the functions with a timeout: the head of the
loop, up to the wait or to the end of the function. -/
def lock : Counters × Outcome := attempt rw k (rw.waiting 1 k, .waits)

/-- They go on when the wait has ended, with an error or without. -/
def woken (error : Bool) : Counters × Outcome :=
  let rw := rw.waiting (-1) k
  if error then (rw, .failed) else lock rw k

/-- `pthread_rwlock_unlock`, with the condition variable that is signalled. -/
def unlock : Counters × Option Kind :=
  let rw :=
    if 0 < rw.refcount then { rw with refcount := rw.refcount - 1 }
    else if rw.refcount = -1 then { rw with refcount := 0 }
    else rw
  (rw,
    if 0 < rw.nwaitwriters then if rw.refcount = 0 then some .write else none
    else if 0 < rw.nwaitreaders then some .read else none)

end

/-- The calls of the interface, those with a timeout among `lock`. -/
inductive Call
  | trylock (k : Kind)
  | lock (k : Kind)
  | unlock (k : Kind)
  deriving DecidableEq

/-- Where a thread is: outside a call, before `pthread_rwlock_init`, before `rw_mutex` is taken, or
inside a wait. -/
inductive Place
  | outside
  | initialises (c : Call)
  | enters (c : Call)
  | waits (k : Kind)
  deriving DecidableEq

/-- The thread has seen the lock uninitialised and has not yet initialised it. -/
def Place.Initialises : Place → Prop
  | .initialises _ => True
  | _ => False

instance : DecidablePred Place.Initialises := fun p => by
  cases p <;> unfold Place.Initialises <;> infer_instance

/-- The lock and its threads. -/
structure Threads (τ : Type) where
  /-- The field `attr` is -1: the lock is as `PTHREAD_RWLOCK_INITIALIZER` makes it. -/
  raw : Bool
  rw : Counters
  place : τ → Place
  /-- Who holds the lock. A thread may hold it for reading more than once. -/
  holders : List (τ × Kind)

/-- The steps of the threads. -/
inductive Act (τ : Type)
  /-- A call begins, and looks at `attr`. -/
  | call (t : τ) (c : Call)
  /-- `pthread_rwlock_init`. -/
  | init (t : τ)
  /-- What the call does with `rw_mutex` held, up to its wait or its end. -/
  | enter (t : τ)
  /-- The wait ends, and the call goes on. -/
  | wake (t : τ) (error : Bool)

namespace Threads

variable {τ : Type} [DecidableEq τ] (s : Threads τ)

/-- The state behind a step of a lock function. `rw_refcount` is an `int`, and there is no step that
leads out of its range. -/
def after (t : τ) (k : Kind) : Counters × Outcome → Option (Threads τ)
  | (rw, outcome) =>
    if rw.refcount < 2 ^ 31 then some
      { s with
        rw := rw
        place := Function.update s.place t (if outcome = .waits then .waits k else .outside)
        holders := if outcome = .locked then (t, k) :: s.holders else s.holders }
    else none

/-- The part of a call with `rw_mutex` held. Only a holder calls `pthread_rwlock_unlock`. -/
def enter (t : τ) : Call → Option (Threads τ)
  | .trylock k => s.after t k (trylock s.rw k)
  | .lock k => s.after t k (lock s.rw k)
  | .unlock k =>
    if (t, k) ∈ s.holders then some
      { s with
        rw := (unlock s.rw).1
        place := Function.update s.place t .outside
        holders := s.holders.erase (t, k) }
    else none

/-- A step. -/
def exec : Act τ → Option (Threads τ)
  | .call t c =>
    if s.place t = .outside then
      some { s with place := Function.update s.place t (if s.raw then .initialises c else .enters c) }
    else none
  | .init t =>
    match s.place t with
    | .initialises c =>
      some { s with raw := false, rw := ⟨0, 0, 0⟩, place := Function.update s.place t (.enters c) }
    | _ => none
  | .enter t =>
    match s.place t with
    | .enters c => s.enter t c
    | _ => none
  | .wake t error =>
    match s.place t with
    | .waits k => s.after t k (woken s.rw k error)
    | _ => none

/-- The lock as `pthread_rwlock_init` or `PTHREAD_RWLOCK_INITIALIZER` leaves it. -/
def fresh (τ : Type) (raw : Bool) : Threads τ := ⟨raw, ⟨0, 0, 0⟩, fun _ => .outside, []⟩

end Threads

/-- The runs from a lock that nobody holds, initialised or not. -/
def rwlockSystem (τ : Type) [DecidableEq τ] : System (Threads τ) (Act τ) where
  init := fun s => ∃ raw, s = .fresh τ raw
  step := fun s a s' => s.exec a = some s'

/-- No call begins while a thread initialises the lock. -/
def Act.apart {τ : Type} (s : Threads τ) : Act τ → Prop
  | .call _ _ => ∀ u, ¬(s.place u).Initialises
  | _ => True

instance {τ : Type} [Fintype τ] (s : Threads τ) : DecidablePred (Act.apart s) := fun a => by
  cases a <;> unfold Act.apart <;> infer_instance

section

variable {τ : Type} {rw : Counters} {k : Kind} {t : τ} {l : List (τ × Kind)}

/-- The references are those of one writer, or of readers. -/
def Excludes (refcount : ℤ) (l : List (τ × Kind)) : Prop :=
  (refcount = -1 ∧ ∃ t, l = [(t, .write)]) ∨ (refcount = l.length ∧ ∀ x ∈ l, x.2 = .read)

theorem refcount_waiting (rw : Counters) (d : ℤ) (k : Kind) :
    (rw.waiting d k).refcount = rw.refcount := by
  cases k <;> rfl

theorem Excludes.taken (h : Excludes rw.refcount l) (hfree : ¬rw.Busy k) :
    Excludes (rw.taken k).refcount ((t, k) :: l) := by
  cases k with
  | read =>
    obtain ⟨hcount, hread⟩ := h.resolve_left fun hwrite => hfree (Or.inl (by omega))
    refine Or.inr ⟨?_, by simpa using hread⟩
    simp [Counters.taken, hcount]
  | write =>
    have hzero : rw.refcount = 0 := not_not.mp hfree
    obtain ⟨hcount, -⟩ := h.resolve_left fun hwrite => by omega
    obtain rfl : l = [] := List.length_eq_zero_iff.mp (by omega)
    exact Or.inl ⟨rfl, t, rfl⟩

theorem Excludes.attempt {busy : Counters × Outcome} (h : Excludes rw.refcount l)
    (hcount : busy.1.refcount = rw.refcount) (hbusy : busy.2 ≠ .locked) :
    Excludes (attempt rw k busy).1.refcount
      (if (attempt rw k busy).2 = .locked then (t, k) :: l else l) := by
  unfold Rwlock.attempt
  by_cases hfree : rw.Busy k
  · rwa [if_pos hfree, if_neg hbusy, hcount]
  · rw [if_neg hfree, if_pos rfl]
    exact h.taken hfree

theorem Excludes.lock (h : Excludes rw.refcount l) :
    Excludes (lock rw k).1.refcount (if (lock rw k).2 = .locked then (t, k) :: l else l) :=
  h.attempt (refcount_waiting rw 1 k) (by simp)

theorem Excludes.woken {error : Bool} (h : Excludes rw.refcount l) :
    Excludes (woken rw k error).1.refcount
      (if (woken rw k error).2 = .locked then (t, k) :: l else l) := by
  rw [← refcount_waiting rw (-1) k] at h
  cases error with
  | true => exact h
  | false => exact h.lock

variable [DecidableEq τ]

theorem Excludes.unlock (h : Excludes rw.refcount l) (hmem : (t, k) ∈ l) :
    Excludes (unlock rw).1.refcount (l.erase (t, k)) := by
  have hpos := List.length_pos_of_mem hmem
  unfold Rwlock.unlock
  rcases h with ⟨hcount, u, rfl⟩ | ⟨hcount, hread⟩
  · -- The writer unlocks it.
    cases List.mem_singleton.mp hmem
    simp [hcount, Excludes]
  · refine Or.inr ⟨?_, fun x hx => hread x (List.mem_of_mem_erase hx)⟩
    rw [if_pos (by omega), List.length_erase_of_mem hmem]
    dsimp only
    omega

/-- The references are those of the holders, and the lock is initialised once, before any thread enters
it. -/
structure Inv (s : Threads τ) : Prop where
  excludes : Excludes s.rw.refcount s.holders
  raw : s.raw = true → s.holders = [] ∧ ∀ t, s.place t = .outside ∨ (s.place t).Initialises
  initialises : ∀ t u, (s.place t).Initialises → s.raw = true ∧ ((s.place u).Initialises → u = t)

section Steps

variable {s s' : Threads τ} {p : Place}

omit [DecidableEq τ] in
/-- A thread inside a call has found the lock initialised, or has initialised it. -/
theorem Inv.not_raw (h : Inv s) (hout : s.place t ≠ .outside) (hinit : ¬(s.place t).Initialises) :
    s.raw = false := by
  rw [← Bool.not_eq_true]
  intro hraw
  rcases (h.raw hraw).2 t with hplace | hplace
  · exact hout hplace
  · exact hinit hplace

theorem initialises_of_update {f : τ → Place} {u : τ} (hplace : ¬p.Initialises)
    (hu : (Function.update f t p u).Initialises) : u ≠ t ∧ (f u).Initialises := by
  by_cases hut : u = t
  · subst hut
    rw [Function.update_self] at hu
    exact absurd hu hplace
  · rw [Function.update_of_ne hut] at hu
    exact ⟨hut, hu⟩

/-- A step of a thread inside a call, on an initialised lock. -/
theorem Inv.move (h : Inv s) (hraw : s.raw = false) {rw : Counters} {l : List (τ × Kind)}
    (hplace : ¬p.Initialises) (hexcludes : Excludes rw.refcount l) :
    Inv { s with rw := rw, place := Function.update s.place t p, holders := l } where
  excludes := hexcludes
  raw := fun htrue => absurd (hraw.symm.trans htrue) Bool.false_ne_true
  initialises := by
    intro u _ hu
    obtain ⟨-, hu⟩ := initialises_of_update hplace hu
    exact absurd (hraw.symm.trans (h.initialises u u hu).1) Bool.false_ne_true

theorem Inv.after {r : Counters × Outcome} (h : Inv s) (hraw : s.raw = false)
    (hexcludes : Excludes r.1.refcount (if r.2 = .locked then (t, k) :: s.holders else s.holders))
    (hs : s.after t k r = some s') : Inv s' := by
  obtain ⟨-, hs⟩ := ite_none_right_eq_some.mp hs
  exact some.inj hs ▸ h.move hraw (by split_ifs <;> exact id) hexcludes

theorem Inv.call (h : Inv s) {c : Call} (hapart : ∀ u, ¬(s.place u).Initialises) :
    Inv { s with place := Function.update s.place t (if s.raw then .initialises c else .enters c) } := by
  cases hraw : s.raw with
  | false =>
    have hmove := h.move (t := t) (p := .enters c) hraw id h.excludes
    rwa [hraw] at hmove
  | true =>
    -- The caller is the only thread that is going to initialise the lock.
    obtain ⟨hnone, hplaces⟩ := h.raw hraw
    have hothers : ∀ u, (Function.update s.place t (Place.initialises c) u).Initialises → u = t := by
      intro u hu
      by_contra hut
      rw [Function.update_of_ne hut] at hu
      exact hapart u hu
    refine ⟨h.excludes, fun _ => ⟨hnone, fun u => ?_⟩, fun u w hu => ⟨rfl, fun hw => ?_⟩⟩
    · change Function.update s.place t (.initialises c) u = .outside ∨
        (Function.update s.place t (.initialises c) u).Initialises
      by_cases hut : u = t
      · rw [hut, Function.update_self]
        exact .inr trivial
      · rw [Function.update_of_ne hut]
        exact hplaces u
    · exact (hothers w hw).trans (hothers u hu).symm

theorem Inv.init (h : Inv s) {c : Call} (hplace : s.place t = .initialises c) :
    Inv { s with raw := false, rw := ⟨0, 0, 0⟩, place := Function.update s.place t (.enters c) } := by
  have ht : (s.place t).Initialises := by
    rw [hplace]
    trivial
  obtain ⟨hnone, -⟩ := h.raw (h.initialises t t ht).1
  refine ⟨.inr ⟨by rw [hnone]; rfl, by simp [hnone]⟩, nofun, fun u _ hu => ?_⟩
  -- No other thread initialises the lock.
  obtain ⟨hut, hu⟩ := initialises_of_update id hu
  exact absurd ((h.initialises t u ht).2 hu) hut

theorem Inv.exec {a : Act τ} (h : Inv s) (hapart : a.apart s) (hs : s.exec a = some s') : Inv s' := by
  cases a with
  | call t c =>
    obtain ⟨-, hs⟩ := ite_none_right_eq_some.mp hs
    exact some.inj hs ▸ h.call hapart
  | init t =>
    dsimp only [Threads.exec] at hs
    split at hs
    · next c hplace => exact some.inj hs ▸ h.init hplace
    · cases hs
  | enter t =>
    dsimp only [Threads.exec] at hs
    split at hs
    · next c hplace =>
      have hraw : s.raw = false := h.not_raw (t := t) (by simp [hplace]) (by rw [hplace]; exact id)
      cases c with
      | trylock k => exact h.after hraw (h.excludes.attempt rfl (by simp)) hs
      | lock k => exact h.after hraw h.excludes.lock hs
      | unlock k =>
        obtain ⟨hmem, hs⟩ := ite_none_right_eq_some.mp hs
        exact some.inj hs ▸ h.move hraw id (h.excludes.unlock hmem)
    · cases hs
  | wake t error =>
    dsimp only [Threads.exec] at hs
    split at hs
    · next k hplace =>
      have hraw : s.raw = false := h.not_raw (t := t) (by simp [hplace]) (by rw [hplace]; exact id)
      exact h.after hraw h.excludes.woken hs
    · cases hs

end Steps

/-- In every run in which no call begins while a thread initialises the lock, `rw_refcount` is -1
exactly while a thread holds the lock for writing, and then nobody else holds it. Otherwise it is the
number of those who hold it for reading. -/
theorem rwlock_exclusion {s : Threads τ} (h : Reachable (rwlockSystem τ) Act.apart s) :
    (s.rw.refcount = -1 ↔ ∃ t, (t, .write) ∈ s.holders) ∧
      (∀ t, (t, .write) ∈ s.holders → s.holders = [(t, .write)]) ∧ (s.rw.refcount ≠ -1 →
        s.rw.refcount = s.holders.length ∧ ∀ x ∈ s.holders, x.2 = .read) := by
  have hinv : Inv s := by
    refine h.invariant ?_ ?_
    · rintro s ⟨raw, rfl⟩
      exact ⟨.inr ⟨rfl, by simp [Threads.fresh]⟩, fun _ => ⟨rfl, fun _ => .inl rfl⟩, fun _ _ hu => hu.elim⟩
    · intro s a s' hinv hapart hs
      exact hinv.exec hapart hs
  rcases hinv.excludes with ⟨hcount, t, hholds⟩ | ⟨hcount, hread⟩
  · simp [hcount, hholds]
  · have hnone : ∀ t, (t, Kind.write) ∉ s.holders := fun t ht => by cases hread _ ht
    refine ⟨⟨fun hneg => by omega, fun ⟨t, ht⟩ => absurd ht (hnone t)⟩,
      fun t ht => absurd ht (hnone t), fun _ => ⟨hcount, hread⟩⟩

/-- The first reader initialises the lock. A writer waits for two readers, is woken without cause and
waits again, and holds the lock when they have unlocked it. -/
theorem rwlock_exclusion_writer : ∃ s, Reachable (rwlockSystem (Fin 3)) Act.apart s ∧
    s.rw.refcount = -1 ∧ ∃ t, (t, .write) ∈ s.holders := by
  refine exists_reachable_and ?_ fun s hs hcount => (rwlock_exclusion hs).1.mp hcount
  exact exists_reachable_of_exec ⟨true, rfl⟩
    [.call 0 (.lock .read), .init 0, .enter 0, .call 1 (.trylock .read), .enter 1,
      .call 2 (.lock .write), .enter 2, .wake 2 false, .call 0 (.unlock .read), .enter 0,
      .call 1 (.unlock .read), .enter 1, .wake 2 false] (by decide)

/-- Two threads begin with `pthread_rwlock_wrlock` of an uninitialised lock. Both see it uninitialised;
the second initialises it when the first holds it, and then both hold it for writing. -/
theorem initialised_while_held : ∃ s, Reachable (rwlockSystem (Fin 2)) always s ∧
    s.holders = [(1, .write), (0, .write)] :=
  exists_reachable_of_exec ⟨true, rfl⟩
    [.call 0 (.lock .write), .call 1 (.lock .write), .init 0, .enter 0, .init 1, .enter 1] (by decide)

end

end RtThread.Rwlock
