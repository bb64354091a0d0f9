import RtThread.Kernel.Timers

/-!
# The threads in the abstract

A `View` is what the rest of the kernel needs to know of the threads: the lists they are on as plain
lists, their states, current priorities and error codes, and whose timer runs. The operations on
threads are functions on views, without links, masks, bitmaps or due times. `View.Ok` is what always
holds of a view. An operation moves one thread, and it keeps `View.Ok` if the thread's new place fits
its new state (`View.Ok.move`).
-/

namespace RtThread

open Lib Function List

/-- The lists of the threads, their states and timers. -/
structure View (n : ℕ) where
  lists : Head → List (Fin n)
  stat : Fin n → Stat
  /-- The current priorities. -/
  prio : Fin n → ℕ
  error : Fin n → ℤ
  /-- Whether the thread's timer is on the timer list. -/
  armed : Fin n → Bool
  /-- Whether the thread has been started. -/
  started : Fin n → Bool

variable {n : ℕ}

/-- The list `l` with a thread inserted before the first that is less urgent. -/
def insertByPrio (prio : Fin n → ℕ) (t : Fin n) (l : List (Fin n)) : List (Fin n) :=
  l.takeWhile (fun u => prio u ≤ prio t) ++ t :: l.dropWhile (fun u => prio u ≤ prio t)

/-- A thread is put on a suspend list. -/
def IpcFlag.insert (flag : IpcFlag) (prio : Fin n → ℕ) (t : Fin n) (l : List (Fin n)) : List (Fin n) :=
  match flag with
  | .fifo => l ++ [t]
  | .prio => insertByPrio prio t l

variable {l : List (Fin n)}

@[simp] theorem mem_insertByPrio {prio : Fin n → ℕ} {t u : Fin n} :
    u ∈ insertByPrio prio t l ↔ u = t ∨ u ∈ l := mem_insertWhile

@[simp] theorem IpcFlag.mem_insert {flag : IpcFlag} {prio : Fin n → ℕ} {t u : Fin n} :
    u ∈ flag.insert prio t l ↔ u = t ∨ u ∈ l := by
  cases flag with
  | fifo => rw [IpcFlag.insert, mem_append, mem_singleton, or_comm]
  | prio => exact mem_insertByPrio

namespace View

/-! ## Operations -/

variable (v : View n) (t : Fin n)

/-- The thread leaves its list. -/
def leave : View n := { v with lists := fun h => (v.lists h).erase t }

/-- A list is replaced. -/
def place (h : Head) (l : List (Fin n)) : View n :=
  { v with lists := update v.lists h l }

/-- The state of the thread is set. -/
def setStat (x : Stat) : View n := { v with stat := update v.stat t x }

/-- The priority of the thread is set. -/
def setPrio (p : ℕ) : View n := { v with prio := update v.prio t p }

/-- The error code of the thread is set. -/
def setError (e : ℤ) : View n := { v with error := update v.error t e }

/-- The timer of the thread runs. -/
def arm : View n := { v with armed := update v.armed t true }

/-- The timer of the thread is stopped. -/
def disarm : View n := { v with armed := update v.armed t false }

/-- The thread goes to the end of the ready list of its priority. -/
def queue : View n :=
  let v := v.leave t
  v.place (.ready (v.prio t)) (v.lists (.ready (v.prio t)) ++ [t])

/-- The thread goes to the end of its ready list. -/
def makeReady : View n := (v.queue t).setStat t .ready

/-- A ready thread is suspended. -/
def suspend : View n :=
  if v.stat t = .ready then ((v.leave t).setStat t .suspend).disarm t else v

/-- A suspended thread becomes ready. -/
def resume : View n :=
  if v.stat t = .suspend then (v.makeReady t).disarm t else v

/-- The expiry of a thread's timer: `rt_timer_check` and `rt_thread_timeout`. -/
def expire : View n :=
  ((v.makeReady t).setError t (-RT_ETIMEOUT)).disarm t

/-- The thread is started. -/
def startup (p : ℕ) : View n :=
  ({ (v.setPrio t p).setStat t .suspend with
    started := update v.started t true }.makeReady t).disarm t

/-- The thread is closed. -/
def close : View n := ((v.leave t).setStat t .close).disarm t

/-- The thread is put on the list of defunct threads. -/
def bury : View n := v.place .defunct (t :: v.lists .defunct)

/-- A ready thread goes to the end of its list. -/
def yield : View n := if v.stat t = .ready then v.queue t else v

/-- `rt_thread_control` with `RT_THREAD_CTRL_CHANGE_PRIORITY`. -/
def changePriority (p : ℕ) : View n :=
  if v.stat t = .ready then (v.setPrio t p).queue t else v.setPrio t p

/-- The thread is suspended on the list of an object. -/
def wait (i : ℕ) (t : Fin n) (flag : IpcFlag) : View n :=
  let v := v.suspend t
  v.place (.wait i) (flag.insert v.prio t (v.lists (.wait i)))

/-- All threads of a suspend list become ready, with an error. -/
def resumeAll (i : ℕ) : View n :=
  (v.lists (.wait i)).foldl (fun v t => (v.setError t (-RT_ERROR)).resume t) v

/-! ## What always holds -/

/-- The place of a thread fits its state. -/
structure OkAt (v : View n) (t : Fin n) : Prop where
  ready : ∀ p, t ∈ v.lists (.ready p) ↔ v.stat t = .ready ∧ v.prio t = p
  wait : ∀ i, t ∈ v.lists (.wait i) → v.stat t = .suspend
  defunct : t ∈ v.lists .defunct → v.stat t = .close
  started : v.stat t = .ready ∨ v.stat t = .suspend → v.started t = true

/-- The places of all threads fit their states, and no thread is twice on a list. -/
structure Ok (v : View n) : Prop where
  at' : ∀ t, v.OkAt t
  nodup : ∀ h, (v.lists h).Nodup

/-- The other threads are where and what they were. -/
structure Others (v v' : View n) (t : Fin n) : Prop where
  lists : ∀ u, u ≠ t → ∀ h, u ∈ v'.lists h ↔ u ∈ v.lists h
  stat : ∀ u, u ≠ t → v'.stat u = v.stat u
  prio : ∀ u, u ≠ t → v'.prio u = v.prio u
  started : ∀ u, u ≠ t → v'.started u = v.started u

variable {v v' : View n} {t u : Fin n}

theorem Ok.move (hv : v.Ok) (hothers : v.Others v' t) (hself : v'.OkAt t)
    (hnodup : ∀ h, (v'.lists h).Nodup) : v'.Ok := by
  refine ⟨fun u => ?_, hnodup⟩
  by_cases hu : u = t
  · exact hu ▸ hself
  · obtain ⟨hready, hwait, hdefunct, hstarted⟩ := hv.at' u
    constructor
    · intro p
      rw [hothers.lists u hu, hothers.stat u hu, hothers.prio u hu]
      exact hready p
    · intro i
      rw [hothers.lists u hu, hothers.stat u hu]
      exact hwait i
    · rw [hothers.lists u hu, hothers.stat u hu]
      exact hdefunct
    · rw [hothers.stat u hu, hothers.started u hu]
      exact hstarted

variable {h : Head}

section Lists

variable (hnodup : ∀ h, (v.lists h).Nodup)
include hnodup

theorem mem_leave : u ∈ (v.leave t).lists h ↔ u ≠ t ∧ u ∈ v.lists h :=
  (hnodup h).mem_erase_iff

theorem nodup_leave (t : Fin n) (h : Head) : ((v.leave t).lists h).Nodup := (hnodup h).erase t

theorem nodup_place (hl : l.Nodup) (h' : Head) : ((v.place h l).lists h').Nodup := by
  change (update v.lists h l h').Nodup
  rw [update_apply]
  split_ifs
  · exact hl
  · exact hnodup h'

omit hnodup in
theorem mem_place {h' : Head} :
    u ∈ (v.place h l).lists h' ↔ if h' = h then u ∈ l else u ∈ v.lists h' := by
  change u ∈ update v.lists h l h' ↔ _
  rw [update_apply]
  split_ifs <;> rfl

theorem mem_queue : u ∈ (v.queue t).lists h ↔
    u ≠ t ∧ u ∈ v.lists h ∨ u = t ∧ h = .ready (v.prio t) := by
  unfold queue
  rw [mem_place]
  change (if h = .ready (v.prio t) then _ else _) ↔ _
  split_ifs with hh
  · subst hh
    rw [mem_append, mem_singleton]
    exact or_congr (mem_leave hnodup) (by simp)
  · rw [mem_leave hnodup]
    exact ⟨Or.inl, fun hor => hor.resolve_right fun hand => hh hand.2⟩

theorem nodup_queue (t : Fin n) (h : Head) : ((v.queue t).lists h).Nodup := by
  apply nodup_place (nodup_leave hnodup t)
  rw [nodup_append]
  refine ⟨nodup_leave hnodup t _, nodup_singleton t, ?_⟩
  intro a ha b hb hab
  rw [mem_singleton] at hb
  exact ((mem_leave hnodup).mp ha).1 (hab.trans hb)

end Lists

theorem Ok.not_mem_of_init (hv : v.Ok) (ht : v.stat t = .init) (h : Head) : t ∉ v.lists h := by
  intro hmem
  cases h with
  | ready p =>
    rw [(hv.at' t).ready, ht] at hmem
    cases hmem.1
  | defunct =>
    have := (hv.at' t).defunct hmem
    rw [ht] at this
    cases this
  | wait i =>
    have := (hv.at' t).wait i hmem
    rw [ht] at this
    cases this

theorem Ok.not_mem_ready (hv : v.Ok) (ht : v.stat t ≠ .ready) (p : ℕ) : t ∉ v.lists (.ready p) :=
  fun hmem => ht (((hv.at' t).ready p).mp hmem).1

theorem Ok.toReady (hv : v.Ok) (p : ℕ) {w : View n} (hlists : w.lists = ((v.setPrio t p).queue t).lists)
    (hstat : w.stat = update v.stat t .ready) (hprio : w.prio = update v.prio t p)
    (hstarted : ∀ u, u ≠ t → w.started u = v.started u) (hself : w.started t = true) : w.Ok := by
  have hmem : ∀ {u h}, u ∈ w.lists h ↔ u ≠ t ∧ u ∈ v.lists h ∨ u = t ∧ h = .ready p := by
    intro u h
    have hq := mem_queue (v := v.setPrio t p) (u := u) (t := t) (h := h) hv.nodup
    rwa [show (v.setPrio t p).prio t = p from update_self .., ← hlists] at hq
  refine hv.move (t := t) ⟨?_, ?_, ?_, hstarted⟩ ⟨?_, ?_, ?_, fun _ => hself⟩ ?_
  · intro u hu h
    rw [hmem]
    simp [hu]
  · intro u hu
    rw [hstat, update_of_ne hu]
  · intro u hu
    rw [hprio, update_of_ne hu]
  · intro q
    rw [hmem, hstat, hprio, update_self, update_self]
    simp [eq_comm]
  · intro i hi
    simp [hmem] at hi
  · intro hd
    simp [hmem] at hd
  · rw [hlists]
    exact nodup_queue (v := v.setPrio t p) hv.nodup t

theorem Ok.toOff (hv : v.Ok) {x : Stat} (hx : x ≠ .ready) {w : View n} (hlists : w.lists = (v.leave t).lists)
    (hstat : w.stat = update v.stat t x) (hprio : w.prio = v.prio)
    (hstarted : w.started = v.started) (hself : x = .suspend → v.started t = true) : w.Ok := by
  have hmem : ∀ {u h}, u ∈ w.lists h ↔ u ≠ t ∧ u ∈ v.lists h := by
    rw [hlists]
    exact mem_leave hv.nodup
  refine hv.move (t := t) ⟨?_, ?_, ?_, ?_⟩ ⟨?_, ?_, ?_, ?_⟩ ?_
  · intro u hu h
    rw [hmem]
    simp [hu]
  · intro u hu
    rw [hstat, update_of_ne hu]
  · intro u _
    rw [hprio]
  · intro u _
    rw [hstarted]
  · intro q
    rw [hmem, hstat, update_self]
    simp [hx]
  · intro i hi
    simp [hmem] at hi
  · intro hd
    simp [hmem] at hd
  · rw [hstat, update_self, hstarted]
    exact fun hor => hself (hor.resolve_left hx)
  · rw [hlists]
    exact nodup_leave hv.nodup t

/-- A thread on no list may be put where its state allows. -/
theorem Ok.toPlace (hv : v.Ok) (hoff : ∀ h, t ∉ v.lists h)
    (hl : ∀ u, u ∈ l ↔ u = t ∨ u ∈ v.lists h) (hnodup : l.Nodup)
    (hh : h = .defunct ∧ v.stat t = .close ∨ (∃ i, h = .wait i) ∧ v.stat t = .suspend) :
    (v.place h l).Ok := by
  have hmem : ∀ {u h'}, u ∈ (v.place h l).lists h' ↔ u ∈ v.lists h' ∨ u = t ∧ h' = h := by
    intro u h'
    rw [mem_place]
    split_ifs with hh'
    · rw [hl, hh', or_comm]
      simp
    · simp [hh']
  refine hv.move (t := t) ⟨?_, fun _ _ => rfl, fun _ _ => rfl, fun _ _ => rfl⟩
    ⟨?_, ?_, ?_, (hv.at' t).started⟩ (nodup_place hv.nodup hnodup)
  · intro u hu h'
    rw [hmem]
    simp [hu]
  · intro p
    rw [hmem]
    change _ ↔ v.stat t = .ready ∧ v.prio t = p
    rcases hh with ⟨rfl, hst⟩ | ⟨⟨i, rfl⟩, hst⟩
    · simp [hoff, hst]
    · simp [hoff, hst]
  · intro i hi
    rw [hmem] at hi
    rcases hh with ⟨rfl, hst⟩ | ⟨-, hst⟩
    · simp [hoff] at hi
    · exact hst
  · intro hd
    rw [hmem] at hd
    rcases hh with ⟨-, hst⟩ | ⟨⟨i, rfl⟩, hst⟩
    · exact hst
    · simp [hoff] at hd

end View

end RtThread
