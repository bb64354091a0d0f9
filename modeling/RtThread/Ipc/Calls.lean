import RtThread.Kernel.Limits

/-!
# Threads in the calls of an object

The functions of `ipc.c` and `mempool.c` block the caller on a suspend list of the object and go on
when it runs again. This file has what they share: what each thread is doing (`Doing`), the steps of
the rest of the system (`Env`), and the steps by which an object puts the caller on a list, or wakes
threads from it. `Good` is what every step keeps: the threads on a suspend list are those that are
suspended in a call that waits there.

The calls of `rt_schedule` at the end of the objects' functions come after interrupts are enabled
again. They are steps of the rest of the system, where `rt_schedule` may be called at any time.
-/

namespace RtThread

open Lib Function List

variable {n : ℕ} {C : Type}

/-! ## The threads on a suspend list -/

/-- The threads along the links from a node to a head. -/
def Sched.walk (s : Sched n) : ℕ → Node Head (Fin n) → List (Fin n)
  | 0, _ => []
  | _ + 1, .head _ => []
  | fuel + 1, .item t => t :: s.walk fuel (s.tlist.next (.item t))

/-- The threads on the suspend list `i`. -/
def Sched.waiters (s : Sched n) (i : ℕ) : List (Fin n) := s.walk n (s.tlist.next (.head (.wait i)))

variable {l : List (Fin n)}

section Waiters

variable {k k' : Kernel n} {v v' : View n} {t u : Fin n} {i j : ℕ}

theorem walk_eq {s : Sched n} {L : Head → List (Fin n)} (hs : Rings s.tlist L) {h : Head}
    {l₁ l₂ : List (Fin n)} {fuel : ℕ} (hsplit : L h = l₁ ++ l₂) (hfuel : l₂.length ≤ fuel) :
    s.walk fuel (Node.first h l₂) = l₂ := by
  induction l₂ generalizing l₁ fuel with
  | nil =>
    rw [Node.first_nil]
    cases fuel <;> rfl
  | cons t l₂ ih =>
    obtain ⟨fuel, rfl⟩ := Nat.exists_eq_succ_of_ne_zero (by rw [length_cons] at hfuel; omega : fuel ≠ 0)
    have hsplit' : L h = (l₁ ++ [t]) ++ l₂ := by rw [hsplit, append_assoc]; rfl
    rw [length_cons] at hfuel
    rw [Node.first_cons, Sched.walk, hs.next_item hsplit, ih hsplit' (by omega)]

theorem Sim.waiters (h : Sim k v) (i : ℕ) : k.sched.waiters i = v.lists (.wait i) := by
  have hsplit : v.lists (.wait i) = [] ++ v.lists (.wait i) := rfl
  have hlen := h.length_lt (.wait i)
  unfold Sched.waiters
  rw [h.queues.rings.next_head]
  exact walk_eq h.queues.rings hsplit (by omega)

theorem View.Ok.not_mem_wait (hv : v.Ok) (ht : v.stat t ≠ .suspend) (i : ℕ) : t ∉ v.lists (.wait i) :=
  fun hmem => ht ((hv.at' t).wait i hmem)

theorem View.Ok.erase_wait (hv : v.Ok) (ht : v.stat t ≠ .suspend) (i : ℕ) :
    (v.lists (.wait i)).erase t = v.lists (.wait i) :=
  erase_of_not_mem (hv.not_mem_wait ht i)

theorem View.Ok.wait_lists (hv : v.Ok) (ht : v.stat t = .ready) (flag : IpcFlag) (j : ℕ) :
    (v.wait i t flag).lists (.wait j) =
      if j = i then flag.insert v.prio t (v.lists (.wait i)) else v.lists (.wait j) := by
  have hne : v.stat t ≠ .suspend := by rw [ht]; simp
  have hsusp : (v.suspend t).lists = (v.leave t).lists ∧ (v.suspend t).prio = v.prio := by
    unfold View.suspend
    rw [if_pos ht]
    exact ⟨rfl, rfl⟩
  have hleave : ∀ i, (v.leave t).lists (.wait i) = v.lists (.wait i) := hv.erase_wait hne
  unfold View.wait
  dsimp only [View.place]
  rw [update_apply, hsusp.1, hsusp.2, hleave, hleave]
  simp

theorem View.wait_stat (ht : v.stat t = .ready) (i : ℕ) (flag : IpcFlag) :
    (v.wait i t flag).stat = update v.stat t .suspend := by
  unfold View.wait View.suspend
  rw [if_pos ht]
  rfl

theorem View.wait_error (v : View n) (t : Fin n) (i : ℕ) (flag : IpcFlag) :
    (v.wait i t flag).error = v.error ∧ (v.wait i t flag).prio = v.prio := by
  unfold View.wait View.suspend
  split_ifs <;> exact ⟨rfl, rfl⟩

/-- Resuming the threads of a list one after the other empties it. -/
theorem View.foldl_resume (hl : l.Nodup) (hst : ∀ t ∈ l, v.stat t = .suspend)
    {w : View n} (hw : w = l.foldl (fun v t => (v.setError t (-RT_ERROR)).resume t) v) :
    (∀ i, w.lists (.wait i) = (v.lists (.wait i)).diff l) ∧
      (∀ u, w.stat u = if u ∈ l then .ready else v.stat u) ∧
      (∀ u, w.error u = if u ∈ l then -RT_ERROR else v.error u) ∧ w.prio = v.prio := by
  induction l generalizing v with
  | nil =>
    subst hw
    simp
  | cons t l ih =>
    obtain ⟨ht, hl⟩ := nodup_cons.mp hl
    have hres : (v.setError t (-RT_ERROR)).resume t = ((v.setError t (-RT_ERROR)).makeReady t).disarm t :=
      if_pos (hst t mem_cons_self)
    rw [foldl_cons, hres] at hw
    have hst' : ∀ u ∈ l, (((v.setError t (-RT_ERROR)).makeReady t).disarm t).stat u = .suspend := by
      intro u hu
      have hut : u ≠ t := fun heq => ht (heq ▸ hu)
      change update v.stat t .ready u = .suspend
      rw [update_of_ne hut]
      exact hst u (mem_cons_of_mem _ hu)
    obtain ⟨hlists, hstat, herror, hprio⟩ := ih hl hst' hw
    refine ⟨fun i => ?_, fun u => ?_, fun u => ?_, hprio⟩
    · rw [hlists, diff_cons]
      exact congrArg (List.diff · l) (View.queue_wait _ t i)
    · rw [hstat]
      change (if u ∈ l then _ else update v.stat t .ready u) = _
      by_cases hut : u = t
      · simp [hut]
      · simp [hut]
    · rw [herror]
      change (if u ∈ l then _ else update v.error t (-RT_ERROR) u) = _
      by_cases hut : u = t
      · simp [hut]
      · simp [hut]

end Waiters

/-! ## What the threads are doing -/

/-- What a thread is doing. A thread in a call is where the call waits, on a suspend list or woken
from it, or where it has enabled interrupts between two of its sections. -/
inductive Doing (C : Type)
  /-- Its own work. -/
  | free
  /-- It is in `rt_thread_sleep`. -/
  | sleep
  | call (c : C)
  deriving DecidableEq

/-- The kernel and what the threads are doing. -/
structure Callers (C : Type) (n : ℕ) where
  k : Kernel n
  doing : Fin n → Doing C

variable (s : Callers C n)

/-- The start of the system, with all threads initialised. -/
def Callers.Boot : Prop :=
  ∃ prioMax prio ticks systemObject cleanup tick, prioMax ≤ 256 ∧ (∀ t, prio t < prioMax) ∧
    s = ⟨Kernel.boot prioMax prio ticks systemObject cleanup tick, fun _ => .free⟩

/-- Threads with these priorities, before they are started. -/
def Callers.idle (prio : Fin n → ℕ) : Callers C n :=
  ⟨Kernel.boot 32 prio (fun _ => 10) (fun _ => false) (fun _ => false) 0, fun _ => .free⟩

theorem Callers.boot_idle {prio : Fin n → ℕ} (h : ∀ t, prio t < 32) :
    (Callers.idle prio : Callers C n).Boot :=
  ⟨32, prio, _, _, _, _, by norm_num, h, rfl⟩

/-- The error code of a thread is set. -/
def Kernel.setError (k : Kernel n) (t : Fin n) (e : ℤ) : Kernel n :=
  { k with error := update k.error t e }

theorem SameLimits.setError (k : Kernel n) (t : Fin n) (e : ℤ) : SameLimits k (k.setError t e) := ⟨rfl, rfl⟩

/-- The timeout of a wait, for an argument of type `rt_int32_t`. A negative one is to wait forever.
-/
def waitTime (time : ℤ) : Option ℕ := if 0 < time then some time.toNat else none

theorem waitTime_lt {time : ℤ} (h : time < halfTickMax) (x : ℕ) (hx : waitTime time = some x) :
    x < halfTickMax := by
  unfold waitTime at hx
  split_ifs at hx with hpos
  have := Option.some.inj hx
  omega

/-- The time that is left of a timeout, a signed word, after `delta` ticks. -/
def timeLeft (time : ℤ) (delta : ℕ) : ℤ :=
  if 0 < time then
    let left := (time - delta).bmod (2^32)
    if left < 0 then 0 else left
  else time

/-- The threads fit their calls, where `list c` is the suspend list on which the call `c` waits. -/
structure Good (list : C → Option ℕ) (s : Callers C n) : Prop where
  sim : ∃ v, Sim s.k v
  /-- No thread has been closed. -/
  alive : ∀ t, s.k.sched.stat t ≠ .close
  /-- The waiting threads are suspended in a call that waits there. -/
  wait : ∀ t i, t ∈ s.k.sched.waiters i ↔
    s.k.sched.stat t = .suspend ∧ ∃ c, s.doing t = .call c ∧ list c = some i
  /-- A suspended thread sleeps or waits. -/
  busy : ∀ t, s.k.sched.stat t = .suspend → s.doing t = .sleep ∨ ∃ c i, s.doing t = .call c ∧ list c = some i
  /-- A thread in a call has been started. -/
  started : ∀ t, s.doing t ≠ .free → s.k.sched.stat t ≠ .init

namespace Good

variable {list : C → Option ℕ} {s : Callers C n} {k' : Kernel n} {t u : Fin n} {c : C} {i j : ℕ}

theorem boot (h : s.Boot) : Good list s ∧ s.k.sched.waiters = fun _ => [] := by
  obtain ⟨prioMax, prio, ticks, systemObject, cleanup, tick, hmax, hprio, rfl⟩ := h
  have hsim : Sim (Kernel.boot prioMax prio ticks systemObject cleanup tick) _ := (RunInv.boot hmax hprio).sim
  refine ⟨⟨⟨_, hsim⟩, fun t => ?_, fun t i => ?_, fun t ht => ?_, fun t ht => ?_⟩, funext hsim.waiters⟩
  · rw [hsim.stat]
    simp
  · dsimp only
    rw [hsim.waiters, hsim.stat]
    simp
  · rw [hsim.stat] at ht
    cases ht
  · exact absurd rfl ht

section

variable (h : Good list s)
include h

theorem nodup (i : ℕ) : (s.k.sched.waiters i).Nodup := by
  obtain ⟨v, hv⟩ := h.sim
  rw [hv.waiters]
  exact hv.ok.nodup _

theorem apart (hi : t ∈ s.k.sched.waiters i) (hj : t ∈ s.k.sched.waiters j) : i = j := by
  obtain ⟨v, hv⟩ := h.sim
  rw [hv.waiters] at hi hj
  exact Head.wait.inj (hv.queues.rings.apart hi hj)

theorem ready (hcur : s.k.current = some t) (ht : s.doing t = .free) :
    s.k.sched.stat t = .ready := by
  obtain ⟨v, hv⟩ := h.sim
  have hinit : s.k.sched.stat t ≠ .init := by
    rw [hv.stat]
    exact hv.current t hcur
  have hsusp : s.k.sched.stat t ≠ .suspend := by
    intro hst
    rcases h.busy t hst with hd | ⟨c, i, hd, -⟩
    · rw [ht] at hd
      cases hd
    · rw [ht] at hd
      cases hd
  have halive := h.alive t
  cases hst : s.k.sched.stat t with
  | init => exact absurd hst hinit
  | ready => rfl
  | suspend => exact absurd hst hsusp
  | close => exact absurd hst halive

theorem woken (hcall : s.doing t = .call c) (hc : list c = some i)
    (hnot : t ∉ s.k.sched.waiters i) : s.k.sched.stat t = .ready := by
  have hinit : s.k.sched.stat t ≠ .init := h.started t (by rw [hcall]; simp)
  have hsusp : s.k.sched.stat t ≠ .suspend := fun hst => hnot ((h.wait t i).mpr ⟨hst, c, hcall, hc⟩)
  have halive := h.alive t
  cases hst : s.k.sched.stat t with
  | init => exact absurd hst hinit
  | ready => rfl
  | suspend => exact absurd hst hsusp
  | close => exact absurd hst halive

theorem isempty : rtListIsempty s.k.sched.tlist (.head (.wait i)) = true ↔
    s.k.sched.waiters i = [] := by
  obtain ⟨v, hv⟩ := h.sim
  rw [hv.waiters, rtListIsempty_head hv.queues.rings]

end

theorem not_isempty {l : List (Fin n)} (h : Good list s) (hl : s.k.sched.waiters i = t :: l) :
    ¬rtListIsempty s.k.sched.tlist (.head (.wait i)) = true := by
  rw [h.isempty, hl]
  simp

theorem move (h : Good list s) (ht : s.k.sched.stat t = .ready) (d : Doing C) :
    Good list { s with doing := update s.doing t d } := by
  refine ⟨h.sim, h.alive, fun u i => ?_, fun u hu => ?_, fun u hu => ?_⟩
  · rw [h.wait]
    by_cases hut : u = t
    · subst hut
      simp [ht]
    · simp [update_of_ne hut]
  · by_cases hut : u = t
    · subst hut
      simp [ht] at hu
    · simpa [update_of_ne hut] using h.busy u hu
  · by_cases hut : u = t
    · subst hut
      simp [ht]
    · exact h.started u (by simpa [update_of_ne hut] using hu)

end Good

/-! ## Waiting and waking -/

/-- The waiting threads, states, error codes and priorities of a kernel. -/
structure Becomes (k : Kernel n) (waiters : ℕ → List (Fin n)) (stat : Fin n → Stat) (error : Fin n → ℤ)
    (prio : Fin n → ℕ) : Prop where
  waiters : k.sched.waiters = waiters
  stat : k.sched.stat = stat
  error : k.error = error
  prio : k.sched.currentPriority = prio

theorem Sim.becomes {k : Kernel n} {v : View n} {waiters : ℕ → List (Fin n)} (h : Sim k v)
    (hw : ∀ j, v.lists (.wait j) = waiters j) : Becomes k waiters v.stat v.error v.prio :=
  ⟨funext fun j => (h.waiters j).trans (hw j), h.stat, h.error, h.prio⟩

namespace Good

variable {list : C → Option ℕ} {s : Callers C n} {k' : Kernel n} {t u : Fin n} {c : C} {i j : ℕ}

section

variable (h : Good list s)
include h

/-- A thread that blocks joins the list of its call. -/
theorem blocked (ht : s.k.sched.stat t = .ready) (hc : list c = some i) (hsim : ∃ v, Sim k' v)
    (hl : ∀ u, u ∈ l ↔ u = t ∨ u ∈ s.k.sched.waiters i)
    (hwaiters : k'.sched.waiters = update s.k.sched.waiters i l)
    (hstat : k'.sched.stat = update s.k.sched.stat t .suspend) :
    Good list ⟨k', update s.doing t (.call c)⟩ := by
  refine ⟨hsim, fun u => ?_, fun u j => ?_, fun u hu => ?_, fun u hu => ?_⟩
  · rw [hstat, update_apply]
    split_ifs
    · simp
    · exact h.alive u
  · dsimp only
    rw [hstat, hwaiters]
    by_cases hut : u = t
    · subst hut
      have hnot : ∀ j, u ∉ s.k.sched.waiters j := fun j hmem => by
        rw [h.wait, ht] at hmem
        cases hmem.1
      rw [update_apply]
      split_ifs with hji
      · simp [hji, hc, hl]
      · simp [hnot, hc, Ne.symm hji]
    · rw [update_of_ne hut, update_of_ne hut, ← h.wait, update_apply]
      split_ifs with hji
      · subst hji
        simp [hut, hl]
      · rfl
  · dsimp only at hu ⊢
    rw [hstat] at hu
    by_cases hut : u = t
    · subst hut
      exact .inr ⟨c, i, update_self .., hc⟩
    · rw [update_of_ne hut] at hu ⊢
      exact h.busy u hu
  · dsimp only at hu ⊢
    rw [hstat]
    by_cases hut : u = t
    · subst hut
      simp
    · rw [update_of_ne hut] at hu ⊢
      exact h.started u hu

variable {time : Option ℕ}

theorem block (ht : s.k.sched.stat t = .ready) (hc : list c = some i) {flag : IpcFlag}
    (hw : s.k.waitThread t i flag time = .ok k') : Good list ⟨k', update s.doing t (.call c)⟩ ∧
      Becomes k' (update s.k.sched.waiters i
          (flag.insert s.k.sched.currentPriority t (s.k.sched.waiters i)))
        (update s.k.sched.stat t .suspend) s.k.error s.k.sched.currentPriority := by
  obtain ⟨v, hv⟩ := h.sim
  have hready : v.stat t = .ready := by rw [← hv.stat, ht]
  have hsim := hv.waitThread (.inl hready) hw
  obtain ⟨v', hv', hlists, hstat, herror, hprio⟩ : ∃ v', Sim k' v' ∧
      v'.lists = (v.wait i t flag).lists ∧ v'.stat = (v.wait i t flag).stat ∧
      v'.error = v.error ∧ v'.prio = v.prio := by
    obtain ⟨herror, hprio⟩ := v.wait_error t i flag
    cases time with
    | none => exact ⟨_, hsim, rfl, rfl, herror, hprio⟩
    | some time => exact ⟨_, hsim, rfl, rfl, herror, hprio⟩
  have hbec : Becomes k' (update s.k.sched.waiters i
      (flag.insert s.k.sched.currentPriority t (s.k.sched.waiters i)))
      (update s.k.sched.stat t .suspend) s.k.error s.k.sched.currentPriority := by
    refine ⟨funext fun j => ?_, ?_, ?_, ?_⟩
    · rw [hv'.waiters, hlists, hv.ok.wait_lists hready, update_apply, hv.prio, hv.waiters,
        hv.waiters]
    · rw [hv'.stat, hstat, View.wait_stat hready, hv.stat]
    · rw [hv'.error, herror, hv.error]
    · rw [hv'.prio, hprio, hv.prio]
  exact ⟨h.blocked ht hc ⟨v', hv'⟩ (fun _ => IpcFlag.mem_insert) hbec.waiters hbec.stat, hbec⟩

/-- `rt_ipc_list_suspend` and the start of the timer return, unless the time is half of the clock's
range or more. -/
theorem block_ok (ht : s.k.sched.stat t = .ready) (i : ℕ) (flag : IpcFlag)
    (htime : ∀ x, time = some x → x < halfTickMax) :
    ∃ k', s.k.waitThread t i flag time = .ok k' := by
  obtain ⟨v, hv⟩ := h.sim
  have hready : v.stat t = .ready := by rw [← hv.stat, ht]
  obtain ⟨k₁, hk₁, hsim⟩ := hv.wait i flag (.inl hready)
  unfold Kernel.waitThread
  rw [hk₁]
  cases time with
  | none => exact ⟨k₁, rfl⟩
  | some x => exact hsim.startTimer_ok (htime x rfl)

theorem of_ready (hsim : ∃ v, Sim k' v)
    (hwaiters : k'.sched.waiters = fun i => (s.k.sched.waiters i).erase t)
    (hstat : k'.sched.stat = update s.k.sched.stat t .ready) : Good list ⟨k', s.doing⟩ := by
  refine ⟨hsim, fun u => ?_, fun u j => ?_, fun u hu => ?_, fun u hu => ?_⟩
  · rw [hstat, update_apply]
    split_ifs
    · simp
    · exact h.alive u
  · rw [hwaiters, hstat, (h.nodup j).mem_erase_iff, h.wait]
    by_cases hut : u = t
    · simp [hut]
    · simp [hut]
  · rw [hstat, update_apply] at hu
    split_ifs at hu
    exact h.busy u hu
  · dsimp only
    rw [hstat, update_apply]
    split_ifs
    · simp
    · exact h.started u hu

theorem resume (hst : s.k.sched.stat t = .suspend) :
    Good list { s with k := (rtThreadResume s.k t).1 } ∧
      Becomes (rtThreadResume s.k t).1 (fun j => (s.k.sched.waiters j).erase t)
        (update s.k.sched.stat t .ready) s.k.error s.k.sched.currentPriority := by
  obtain ⟨v, hv⟩ := h.sim
  have hsusp : v.stat t = .suspend := by rw [← hv.stat, hst]
  have hsim := hv.resume t
  unfold View.resume at hsim
  rw [if_pos hsusp] at hsim
  have hbec : Becomes (rtThreadResume s.k t).1 (fun j => (s.k.sched.waiters j).erase t)
      (update s.k.sched.stat t .ready) s.k.error s.k.sched.currentPriority := by
    rw [hv.stat, hv.error, hv.prio]
    refine hsim.becomes fun j => ?_
    rw [hv.waiters]
    exact v.queue_wait t j
  exact ⟨h.of_ready ⟨_, hsim⟩ hbec.waiters hbec.stat, hbec⟩

theorem wake (ht : t ∈ s.k.sched.waiters i) :
    Good list { s with k := (rtThreadResume s.k t).1 } ∧
      Becomes (rtThreadResume s.k t).1 (fun j => (s.k.sched.waiters j).erase t)
        (update s.k.sched.stat t .ready) s.k.error s.k.sched.currentPriority :=
  h.resume ((h.wait t i).mp ht).1

theorem wakeHead (hl : s.k.sched.waiters i = t :: l) :
    rtIpcListResume s.k i = .ok (rtThreadResume s.k t).1 ∧
      Good list { s with k := (rtThreadResume s.k t).1 } ∧
      Becomes (rtThreadResume s.k t).1 (update s.k.sched.waiters i l)
        (update s.k.sched.stat t .ready) s.k.error s.k.sched.currentPriority := by
  have ht : t ∈ s.k.sched.waiters i := by rw [hl]; exact mem_cons_self
  obtain ⟨hgood, hbec⟩ := h.wake ht
  refine ⟨?_, hgood, ?_, hbec.stat, hbec.error, hbec.prio⟩
  · obtain ⟨v, hv⟩ := h.sim
    rw [hv.waiters] at hl
    exact hv.ipcResume hl
  · rw [hbec.waiters]
    funext j
    rw [update_apply]
    split_ifs with hji
    · rw [hji, hl, erase_cons_head]
    · exact erase_of_not_mem fun hmem => hji (h.apart hmem ht)

/-- Waking all threads of a list gives each an error. -/
theorem wakeAll (i : ℕ) : ∃ k', rtIpcListResumeAll s.k i = .ok k' ∧
    Good list { s with k := k' } ∧
    Becomes k' (update s.k.sched.waiters i [])
      (fun u => if u ∈ s.k.sched.waiters i then .ready else s.k.sched.stat u)
      (fun u => if u ∈ s.k.sched.waiters i then -RT_ERROR else s.k.error u) s.k.sched.currentPriority := by
  obtain ⟨v, hv⟩ := h.sim
  obtain ⟨k', hk', hsim⟩ := hv.ipcResumeAll i
  obtain ⟨hlists, hstat, herror, hprio⟩ := View.foldl_resume (hv.ok.nodup (.wait i))
    (fun t ht => (hv.ok.at' t).wait i ht) (w := v.resumeAll i) rfl
  have hbec : Becomes k' (update s.k.sched.waiters i [])
      (fun u => if u ∈ s.k.sched.waiters i then .ready else s.k.sched.stat u)
      (fun u => if u ∈ s.k.sched.waiters i then -RT_ERROR else s.k.error u) s.k.sched.currentPriority := by
    refine ⟨funext fun j => ?_, funext fun u => ?_, funext fun u => ?_, ?_⟩
    · -- A thread is on one list, so the other lists lose nobody.
      rw [hsim.waiters, hlists, (hv.ok.nodup _).sdiff_eq_filter, update_apply]
      split_ifs with hji
      · simp [hji]
      · rw [hv.waiters, filter_eq_self]
        intro u hu
        rw [decide_eq_true_iff]
        exact fun hu' => hji (Head.wait.inj (hv.queues.rings.apart hu hu'))
    · rw [hsim.stat, hstat, hv.waiters, hv.stat]
    · rw [hsim.error, herror, hv.waiters, hv.error]
    · rw [hsim.prio, hprio, hv.prio]
  refine ⟨k', hk', ⟨⟨_, hsim⟩, fun u => ?_, fun u j => ?_, fun u hu => ?_, fun u hu => ?_⟩, hbec⟩
  · rw [hbec.stat]
    dsimp only
    split_ifs
    · simp
    · exact h.alive u
  · rw [hbec.waiters, hbec.stat, update_apply]
    dsimp only
    by_cases hu : u ∈ s.k.sched.waiters i
    · have hnot : j ≠ i → u ∉ s.k.sched.waiters j := fun hji hmem => hji (h.apart hmem hu)
      split_ifs with hji
      · simp
      · simp [hnot hji]
    · rw [if_neg hu, ← h.wait]
      split_ifs with hji
      · simp [hji, hu]
      · rfl
  · rw [hbec.stat] at hu
    dsimp only at hu
    split_ifs at hu
    exact h.busy u hu
  · rw [hbec.stat]
    dsimp only
    split_ifs
    · simp
    · exact h.started u hu

theorem setError (t : Fin n) (e : ℤ) :
    Good list { s with k := s.k.setError t e } := by
  obtain ⟨v, hv⟩ := h.sim
  exact ⟨⟨_, hv.setError t e⟩, h.alive, h.wait, h.busy, h.started⟩

theorem blockReset (ht : s.k.sched.stat t = .ready) (hc : list c = some i) {flag : IpcFlag}
    (hw : (s.k.setError t RT_EOK).waitThread t i flag time = .ok k') :
    Good list ⟨k', update s.doing t (.call c)⟩ ∧ Becomes k' (update s.k.sched.waiters i
          (flag.insert s.k.sched.currentPriority t (s.k.sched.waiters i)))
        (update s.k.sched.stat t .suspend) (update s.k.error t RT_EOK) s.k.sched.currentPriority :=
  (h.setError t RT_EOK).block ht hc hw

theorem changePriority (t : Fin n) {p : ℕ} (hp : p < s.k.sched.prioMax) :
    Good list { s with k := rtThreadChangePriority s.k t p } ∧
      Becomes (rtThreadChangePriority s.k t p) s.k.sched.waiters s.k.sched.stat s.k.error
        (update s.k.sched.currentPriority t p) := by
  obtain ⟨v, hv⟩ := h.sim
  have hsim := hv.changePriority (t := t) hp
  have hbec : Becomes (rtThreadChangePriority s.k t p) s.k.sched.waiters s.k.sched.stat s.k.error
      (update s.k.sched.currentPriority t p) := by
    unfold View.changePriority at hsim
    rw [hv.stat, hv.error, hv.prio]
    split_ifs at hsim with hst
    · refine hsim.becomes fun j => ?_
      rw [View.queue_wait, hv.waiters]
      exact hv.ok.erase_wait (by rw [hst]; simp) j
    · exact hsim.becomes fun j => (hv.waiters j).symm
  refine ⟨⟨⟨_, hsim⟩, ?_, ?_, ?_, ?_⟩, hbec⟩
  · rw [hbec.stat]
    exact h.alive
  · rw [hbec.stat, hbec.waiters]
    exact h.wait
  · dsimp only
    rw [hbec.stat]
    exact h.busy
  · rw [hbec.stat]
    exact h.started

end

end Good

/-! ## The rest of the system -/

/-- The steps of the rest of the system. -/
inductive Env (n : ℕ)
  | start
  | startup (t : Fin n)
  | schedule
  | yield (t : Fin n)
  | control (t : Fin n) (p : ℕ)
  | sleep (t : Fin n) (tick : ℕ)
  /-- The return from `rt_thread_sleep`. -/
  | wake (t : Fin n)
  | clock (t : Fin n)
  | expire (t : Fin n)
  deriving DecidableEq

/-- The step of the kernel that it is. -/
def Env.act : Env n → Act n
  | .start => .start
  | .startup t => .startup t
  | .schedule => .schedule
  | .yield t => .yield t
  | .control t p => .control t p
  | .sleep t tick => .sleep t tick
  | .wake t => .ret t
  | .clock t => .clock t
  | .expire t => .expire t

/-- The blocking call of the kernel that the thread is in. -/
def Doing.toCall : Doing C → Option Call
  | .free => none
  | .sleep => some .sleep
  | .call _ => some .wait

theorem Doing.eq_free_of_toCall {d : Doing C} (h : d.toCall = none) : d = .free := by
  cases d with
  | free => rfl
  | _ => cases h

/-- The state as a state of the kernel's runs. What those record for their statements does not
matter. -/
def Callers.sys : Sys n where
  k := s.k
  call := fun t => (s.doing t).toCall
  started := fun _ => false
  clock := 0
  readied := fun _ => 0
  queued := fun _ => 0

/-- What the threads are doing after it. -/
def Env.after (doing : Fin n → Doing C) : Env n → Fin n → Doing C
  | .sleep t _ => update doing t .sleep
  | .wake t => update doing t .free
  | _ => doing

/-- The return from `rt_thread_sleep` is that of a thread that sleeps. -/
def Env.allowed : Env n → Prop
  | .wake t => s.doing t = .sleep ∧ Act.allowed s.sys (.ret t)
  | e => e.act.allowed s.sys

instance [DecidableEq C] (s : Callers C n) (e : Env n) : Decidable (e.allowed s) := by
  apply @Env.casesOn n _ e <;> intros <;> unfold Env.allowed <;> infer_instance

/-- A step of the rest of the system, unless it does not return. -/
def Callers.env [DecidableEq C] (s : Callers C n) (e : Env n) : Option (Callers C n) :=
  if e.allowed s then
    match e.act.run s.sys with
    | .ok k' => some ⟨k', e.after s.doing⟩
    | .error _ => none
  else none

/-- A step that leaves the threads in calls alone. -/
structure Quiet (s s' : Callers C n) : Prop where
  calls : ∀ t c, s'.doing t = .call c ↔ s.doing t = .call c
  waiters : s'.k.sched.waiters = s.k.sched.waiters
  stat : ∀ t c, s.doing t = .call c → s'.k.sched.stat t = s.k.sched.stat t
  error : ∀ t c, s.doing t = .call c → s'.k.error t = s.k.error t
  started : ∀ t, s.k.sched.stat t ≠ .init → s'.k.sched.stat t ≠ .init

/-- The timer of `t` has expired: it is off its list and ready, with the error code of a timeout. -/
structure Expired (s s' : Callers C n) (t : Fin n) : Prop where
  was : s.k.sched.stat t = .suspend
  doing : s'.doing = s.doing
  becomes : Becomes s'.k (fun i => (s.k.sched.waiters i).erase t)
    (update s.k.sched.stat t .ready) (update s.k.error t (-RT_ETIMEOUT))
    s.k.sched.currentPriority

section Env

variable [DecidableEq C] {list : C → Option ℕ} {s s' : Callers C n} {e : Env n} {v : View n} {t : Fin n}

theorem Callers.env_cases (h : s.env e = some s') : e.allowed s ∧ ∃ k', e.act.run s.sys = .ok k' ∧
    s' = ⟨k', e.after s.doing⟩ := by
  unfold Callers.env at h
  split_ifs at h with hallowed
  cases hrun : e.act.run s.sys with
  | error x =>
    rw [hrun] at h
    cases h
  | ok k' =>
    rw [hrun] at h
    exact ⟨hallowed, k', rfl, (Option.some.inj h).symm⟩

omit [DecidableEq C] in
theorem Env.allowed.act (h : e.allowed s) : e.act.allowed s.sys := by
  cases e with
  | wake t => exact h.2
  | _ => exact h

omit [DecidableEq C] in
/-- The rule for a step that leaves the threads in calls alone. -/
theorem Good.quiet (h : Good list s) (hv : Sim s'.k v) (hlists : ∀ i, v.lists (.wait i) = s.k.sched.waiters i)
    (hstat : ∀ t, v.stat t = s.k.sched.stat t ∧ s'.doing t = s.doing t ∨
      (∀ c, s.doing t ≠ .call c) ∧ (v.stat t = .ready ∧ s'.doing t = .free ∨
        v.stat t = .suspend ∧ s'.doing t = .sleep))
    (herror : ∀ t c, s.doing t = .call c → v.error t = s.k.error t) : Good list s' ∧ Quiet s s' := by
  have hcalls : ∀ t c, s'.doing t = .call c ↔ s.doing t = .call c := by
    intro t c
    rcases hstat t with ⟨-, hd⟩ | ⟨hnot, ⟨-, hd⟩ | ⟨-, hd⟩⟩
    · rw [hd]
    · simp [hd, hnot]
    · simp [hd, hnot]
  constructor
  · refine ⟨⟨v, hv⟩, fun t => ?_, fun t i => ?_, fun t ht => ?_, fun t ht => ?_⟩
    · rw [hv.stat]
      rcases hstat t with ⟨hst, -⟩ | ⟨-, ⟨hst, -⟩ | ⟨hst, -⟩⟩
      · rw [hst]
        exact h.alive t
      · simp [hst]
      · simp [hst]
    · rw [hv.waiters, hlists, h.wait, hv.stat]
      simp only [hcalls]
      rcases hstat t with ⟨hst, -⟩ | ⟨hnot, -⟩
      · rw [hst]
      · simp [hnot]
    · rw [hv.stat] at ht
      rcases hstat t with ⟨hst, hd⟩ | ⟨-, ⟨hst, -⟩ | ⟨-, hd⟩⟩
      · rw [hst] at ht
        rw [hd]
        exact h.busy t ht
      · rw [hst] at ht
        cases ht
      · exact .inl hd
    · rw [hv.stat]
      rcases hstat t with ⟨hst, hd⟩ | ⟨-, ⟨hst, -⟩ | ⟨hst, -⟩⟩
      · rw [hst]
        exact h.started t (hd ▸ ht)
      · simp [hst]
      · simp [hst]
  · refine ⟨hcalls, ?_, fun t c hc => ?_, fun t c hc => ?_, fun t ht => ?_⟩
    · funext i
      rw [hv.waiters, hlists]
    · rw [hv.stat]
      rcases hstat t with ⟨hst, -⟩ | ⟨hnot, -⟩
      · exact hst
      · exact absurd hc (hnot c)
    · rw [hv.error]
      exact herror t c hc
    · rw [hv.stat]
      rcases hstat t with ⟨hst, -⟩ | ⟨-, ⟨hst, -⟩ | ⟨hst, -⟩⟩
      · rwa [hst]
      · simp [hst]
      · simp [hst]

omit [DecidableEq C] in
theorem Good.mayWait (h : Good list s) (hv : Sim s.k v) : MayWait s.sys v := by
  intro t hcur hcall _
  exact .inl (hv.stat ▸ h.ready hcur (Doing.eq_free_of_toCall hcall))

omit [DecidableEq C] in
theorem Good.same (h : Good list s) {k' : Kernel n} (hv : Sim s.k v) {w : View n} (hw : Sim k' w)
    (hlists : ∀ i, w.lists (.wait i) = v.lists (.wait i)) (hstat : w.stat = v.stat)
    (herror : w.error = v.error) : Good list ⟨k', s.doing⟩ ∧ Quiet s ⟨k', s.doing⟩ := by
  refine h.quiet hw (fun i => ?_) (fun t => .inl ⟨?_, rfl⟩) fun t c _ => ?_
  · rw [hlists, hv.waiters]
  · rw [hstat, hv.stat]
  · rw [herror, hv.error]

omit [DecidableEq C] in
theorem Good.yield (h : Good list s) {k' : Kernel n} (hv : Sim s.k v) (hw : Sim k' (v.yield t)) :
    Good list ⟨k', s.doing⟩ ∧ Quiet s ⟨k', s.doing⟩ := by
  unfold View.yield at hw
  split_ifs at hw with ht
  · refine h.same hv hw (fun i => ?_) rfl rfl
    rw [View.queue_wait]
    exact hv.ok.erase_wait (by rw [ht]; simp) i
  · exact h.same hv hw (fun _ => rfl) rfl rfl

omit [DecidableEq C] in
theorem Good.expire (h : Good list s) {k' : Kernel n} (he : rtTimerExpire s.k t = .ok k') :
    Good list ⟨k', s.doing⟩ ∧ Expired s ⟨k', s.doing⟩ t := by
  obtain ⟨v, hv⟩ := h.sim
  have hst := hv.of_expire he
  have hsim := hv.expire hst he
  have hbec : Becomes k' (fun i => (s.k.sched.waiters i).erase t)
      (update s.k.sched.stat t .ready) (update s.k.error t (-RT_ETIMEOUT))
      s.k.sched.currentPriority := by
    rw [hv.stat, hv.error, hv.prio]
    refine hsim.becomes fun i => ?_
    rw [hv.waiters]
    exact v.queue_wait t i
  refine ⟨h.of_ready ⟨_, hsim⟩ hbec.waiters hbec.stat, ?_, rfl, hbec⟩
  rw [hv.stat, hst]

omit [DecidableEq C] in
theorem Good.control {p : ℕ} {k' : Kernel n} (h : Good list s) (hp : p < s.k.sched.prioMax)
    (hk' : rtThreadChangePriority s.k t p = k') : Good list ⟨k', s.doing⟩ ∧ Quiet s ⟨k', s.doing⟩ := by
  have hgood := h.changePriority t (p := p) hp
  rw [hk'] at hgood
  refine ⟨hgood.1, fun _ _ => .rfl, hgood.2.waiters, fun u c _ => ?_, fun u c _ => ?_, fun u hu => ?_⟩
  · exact congrFun hgood.2.stat u
  · exact congrFun hgood.2.error u
  · rw [hgood.2.stat]
    exact hu

omit [DecidableEq C] in
theorem Good.startup {k' : Kernel n} (h : Good list s) (hv : Sim s.k v) (hinit : v.stat t = .init)
    (hsim : Sim k' (Act.view s.sys v (.startup t))) : Good list ⟨k', s.doing⟩ ∧ Quiet s ⟨k', s.doing⟩ := by
  have hfree : s.doing t = .free := by
    by_contra hd
    exact h.started t hd (hv.stat ▸ hinit)
  refine h.quiet hsim (fun i => ?_) (fun u => ?_) fun u c hc => ?_
  · rw [hv.waiters]
    exact (View.queue_wait _ t i).trans (hv.ok.erase_wait (by rw [hinit]; simp) i)
  · change update (update v.stat t .suspend) t .ready u = _ ∧ _ ∨ _
    by_cases hut : u = t
    · subst hut
      refine .inr ⟨by simp [hfree], .inl ⟨?_, hfree⟩⟩
      exact update_self ..
    · rw [update_of_ne hut, update_of_ne hut, hv.stat]
      exact .inl ⟨rfl, rfl⟩
  · rw [hv.error]
    rfl

omit [DecidableEq C] in
theorem Good.sleep {tick : ℕ} {k' : Kernel n} (h : Good list s) (hv : Sim s.k v) (hcur : s.k.current = some t)
    (hfree : s.doing t = .free) (hsim : Sim k' (Act.view s.sys v (.sleep t tick))) :
    Good list ⟨k', update s.doing t .sleep⟩ ∧ Quiet s ⟨k', update s.doing t .sleep⟩ := by
  have hready : v.stat t = .ready := hv.stat ▸ h.ready hcur hfree
  have hsusp : v.suspend t = ((v.leave t).setStat t .suspend).disarm t := if_pos hready
  have hview : Act.view s.sys v (.sleep t tick) = (v.suspend t).arm t := rfl
  rw [hview, hsusp] at hsim
  refine h.quiet hsim (fun i => ?_) (fun u => ?_) fun u c hc => ?_
  · rw [hv.waiters]
    exact hv.ok.erase_wait (by rw [hready]; simp) i
  · change update v.stat t .suspend u = _ ∧ update s.doing t .sleep u = _ ∨ _
    by_cases hut : u = t
    · subst hut
      refine .inr ⟨by simp [hfree], .inr ⟨?_, ?_⟩⟩
      · exact update_self ..
      · exact update_self ..
    · rw [update_of_ne hut, update_of_ne hut, hv.stat]
      exact .inl ⟨rfl, rfl⟩
  · rw [hv.error]
    rfl

omit [DecidableEq C] in
/-- The end of a sleep changes the code of the thread that slept, and of no other. -/
theorem Good.awake {k' : Kernel n} (h : Good list s) (hv : Sim s.k v) (hsleep : s.doing t = .sleep)
    (hready : s.k.sched.stat t = .ready) (hsim : Sim k' (Act.view s.sys v (.ret t))) :
    Good list ⟨k', update s.doing t .free⟩ ∧ Quiet s ⟨k', update s.doing t .free⟩ := by
  have hlists : (Act.view s.sys v (.ret t)).lists = v.lists ∧ (Act.view s.sys v (.ret t)).stat = v.stat ∧
      ∀ u, u ≠ t → (Act.view s.sys v (.ret t)).error u = v.error u := by
    unfold Act.view
    dsimp only
    split_ifs
    · exact ⟨rfl, rfl, fun u hu => update_of_ne hu ..⟩
    · exact ⟨rfl, rfl, fun _ _ => rfl⟩
  refine h.quiet hsim (fun i => ?_) (fun u => ?_) fun u c hc => ?_
  · rw [hlists.1, hv.waiters]
  · change _ ∧ update s.doing t .free u = _ ∨ _
    rw [hlists.2.1, hv.stat]
    by_cases hut : u = t
    · subst hut
      refine .inr ⟨by simp [hsleep], .inl ⟨?_, update_self ..⟩⟩
      rw [← hv.stat]
      exact hready
    · rw [update_of_ne hut]
      exact .inl ⟨rfl, rfl⟩
  · have hut : u ≠ t := by
      rintro rfl
      rw [hsleep] at hc
      cases hc
    rw [hlists.2.2 u hut, hv.error]

/-- A step of the scheduler or the clock leaves the waiting threads as they are, or it is the expiry
of a timer. -/
theorem Good.env (h : Good list s) (hs : s.env e = some s') :
    Good list s' ∧ (Quiet s s' ∨ ∃ t, e = .expire t ∧ Expired s s' t) := by
  obtain ⟨hallowed, k', hrun, rfl⟩ := Callers.env_cases hs
  obtain ⟨v, hv⟩ := h.sim
  have hproper : e.act.proper s.sys := by cases e <;> trivial
  have hsim := Act.sim (s := s.sys) hv (h.mayWait hv) hallowed.act hproper hrun
  suffices hquiet : (∀ t, e ≠ .expire t) → Good list ⟨k', e.after s.doing⟩ ∧ Quiet s ⟨k', e.after s.doing⟩ by
    cases e with
    | expire t =>
      obtain ⟨hgood, hexp⟩ := h.expire hrun
      exact ⟨hgood, .inr ⟨t, rfl, hexp⟩⟩
    | _ => exact ⟨(hquiet (by simp)).1, .inl (hquiet (by simp)).2⟩
  intro hne
  cases e with
  | start | schedule => exact h.same hv hsim (fun _ => rfl) rfl rfl
  | yield t => exact h.yield hv hsim
  | clock t =>
    rcases Act.view_clock s.sys v t with ⟨-, hview⟩ | ⟨-, hview⟩
    · exact h.yield hv (hview ▸ hsim)
    · exact h.same hv (hview ▸ hsim) (fun _ => rfl) rfl rfl
  | expire t => exact absurd rfl (hne t)
  | control t p => exact h.control hallowed (Except.ok.inj hrun)
  | startup t => exact h.startup hv (hv.of_startup hrun) hsim
  | sleep t tick =>
    obtain ⟨hcur, hcall⟩ : s.k.current = some t ∧ (s.doing t).toCall = none := hallowed
    exact h.sleep hv hcur (Doing.eq_free_of_toCall hcall) hsim
  | wake t =>
    obtain ⟨hsleep, -, -, hready⟩ := hallowed
    exact h.awake hv hsleep hready hsim

theorem Callers.env_limits (hs : s.env e = some s') : SameLimits s.k s'.k := by
  obtain ⟨hallowed, k', hrun, rfl⟩ := Callers.env_cases hs
  cases e with
  | start => exact SameLimits.schedulerStart hrun
  | startup t => exact SameLimits.startup hrun
  | schedule => exact SameLimits.schedule hrun
  | yield t => exact SameLimits.yieldThread ((rtThreadYield_eq hallowed.1).symm.trans hrun)
  | control t p => exact Except.ok.inj hrun ▸ SameLimits.changePriority s.k t p
  | sleep t tick =>
    have hsleep := (rtThreadSleep_eq hallowed.1 tick).symm.trans hrun
    exact (SameLimits.suspend s.k t).trans (SameLimits.startTimer hsleep)
  | wake t =>
    rw [← Except.ok.inj hrun]
    split_ifs
    · exact SameLimits.sleepEnd s.k t
    · exact SameLimits.refl s.k
  | clock t =>
    have htick := SameLimits.tickThread (k := s.k.advance) hallowed hrun
    exact ⟨htick.prioMax, htick.initPriority⟩
  | expire t => exact SameLimits.expire hrun

theorem Good.env_prio (h : Good list s) (hs : s.env e = some s') (hne : ∀ u p, e ≠ .control u p) (t : Fin n) :
    s'.k.sched.currentPriority t = s.k.sched.currentPriority t ∨
      s.k.sched.stat t = .init ∧ s'.k.sched.currentPriority t = s.k.sched.initPriority t := by
  obtain ⟨hallowed, k', hrun, rfl⟩ := Callers.env_cases hs
  obtain ⟨v, hv⟩ := h.sim
  have hproper : e.act.proper s.sys := by cases e <;> trivial
  have hsim := Act.sim (s := s.sys) hv (h.mayWait hv) hallowed.act hproper hrun
  rw [hsim.prio, hv.prio, Act.view_prio]
  cases e with
  | control u p => exact absurd rfl (hne u p)
  | startup u =>
    by_cases htu : t = u
    · subst htu
      exact .inr ⟨hv.stat ▸ hv.of_startup hrun, update_self ..⟩
    · exact .inl (update_of_ne htu ..)
  | _ => exact .inl rfl

end Env

/-! ## Counting threads -/

/-- The number of threads with a property. -/
def tally (p : Fin n → Prop) [DecidablePred p] : ℕ := (Finset.univ.filter p).card

section Tally

variable {p q : Fin n → Prop} [DecidablePred p] [DecidablePred q] {t : Fin n}

theorem tally_congr (h : ∀ u, q u ↔ p u) : tally q = tally p := by
  unfold tally
  congr 1
  exact Finset.filter_congr fun u _ => h u

theorem tally_succ (hp : ¬p t) (hq : q t) (h : ∀ u, u ≠ t → (q u ↔ p u)) : tally q = tally p + 1 := by
  unfold tally
  have hset : Finset.univ.filter q = insert t (Finset.univ.filter p) := by
    ext u
    by_cases hu : u = t
    · simp [hu, hq]
    · simp [hu, h u hu]
  rw [hset, Finset.card_insert_of_notMem (by simp [hp])]

end Tally

end RtThread
