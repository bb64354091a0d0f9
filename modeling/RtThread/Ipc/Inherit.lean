import RtThread.Ipc.Mutex

/-!
# Priority inheritance

A thread that waits for a mutex passes its priority on to the owner, if it is the more urgent one. A
release gives the owner the priority back that it had when it got this mutex. Neither step looks at
other mutexes: an owner that itself waits for a mutex does not pass the priority on, and a release
may take a priority away that another mutex still asks for, or give one back that was itself
inherited. `MutexAct.inherits` and `MutexAct.restores` leave out just the steps after which an owner
is not as urgent as the threads that wait for it, or does not get its own priority back.
-/

namespace RtThread

open Lib Function Option

variable {n q : ℕ} (s : MutexSys n q)

/-- The mutex that a thread waits for. -/
def MutexSys.waitsFor (x : Fin n) : Option (Fin q) :=
  match s.doing x with
  | .call m => if x ∈ s.k.sched.waiters m then some m else none
  | _ => none

/-- The owner of the mutex that the thread waits for. -/
def MutexSys.blockedBy (x : Fin n) : Option (Fin n) :=
  (s.waitsFor x).bind fun m => (s.mutex m).owner

/-- A release by the thread frees the mutex. -/
def MutexSys.givesUp (t : Fin n) (m : Fin q) : Prop :=
  (s.mutex m).owner = some t ∧ (s.mutex m).drop.hold = 0

instance (s : MutexSys n q) (t : Fin n) (m : Fin q) : Decidable (s.givesUp t m) := by
  unfold MutexSys.givesUp; infer_instance

/-- A step that is not a change of a priority by `rt_thread_control`. -/
def MutexAct.plain : MutexAct n q → Prop
  | .env (.control _ _) => False
  | _ => True

instance (a : MutexAct n q) : Decidable a.plain := by
  unfold MutexAct.plain
  split <;> infer_instance

/-- A step after which owners are still as urgent as the threads that wait for them:

* no priority is changed by `rt_thread_control`;
* an owner that inherits a priority while it waits itself waits for a thread that is as urgent;
* a release that gives a mutex up leaves the thread as urgent as those that wait for its other mutexes, and
  hands the mutex to a thread that is as urgent as the rest of the list. -/
def MutexAct.inherits : MutexAct n q → Prop
  | .env (.control _ _) => False
  | .take t m time => time = 0 ∨ ∀ u w, (s.mutex m).owner = some u → u ≠ t → s.blockedBy u = some w →
      s.k.sched.currentPriority u ≤ s.k.sched.currentPriority t ∨
        s.k.sched.currentPriority w ≤ s.k.sched.currentPriority t
  | .release t m => s.givesUp t m →
      (∀ x, s.blockedBy x = some t → s.waitsFor x ≠ some m →
        (s.mutex m).originalPriority ≤ s.k.sched.currentPriority x) ∧
      ∀ u x, (s.k.sched.waiters m).head? = some u → x ∈ s.k.sched.waiters m →
        s.k.sched.currentPriority u ≤ s.k.sched.currentPriority x
  | _ => True

instance (s : MutexSys n q) (a : MutexAct n q) : Decidable (a.inherits s) := by
  unfold MutexAct.inherits
  split <;> infer_instance

/-- A step after which threads that own nothing are at the priority that they were started with:

* no priority is changed by `rt_thread_control`;
* a release that gives up a thread's last mutex gives it this priority back. -/
def MutexAct.restores : MutexAct n q → Prop
  | .env (.control _ _) => False
  | .release t m => s.givesUp t m → (∃ m', m' ≠ m ∧ (s.mutex m').owner = some t) ∨
      (s.mutex m).originalPriority = s.k.sched.initPriority t
  | _ => True

instance (s : MutexSys n q) (a : MutexAct n q) : Decidable (a.restores s) := by
  unfold MutexAct.restores
  split <;> infer_instance

variable {k : Kernel n}

section Inherit

variable {s s' : MutexSys n q} {a : MutexAct n q} {t u x w : Fin n} {m : Fin q}

theorem waitsFor_eq_some (h : MutexInv s) : s.waitsFor x = some m ↔ x ∈ s.k.sched.waiters m := by
  unfold MutexSys.waitsFor
  constructor
  · intro hm
    cases hd : s.doing x with
    | call m' =>
      rw [hd] at hm
      dsimp only at hm
      split_ifs at hm with hmem
      exact some.inj hm ▸ hmem
    | _ =>
      rw [hd] at hm
      cases hm
  · intro hmem
    obtain ⟨-, c, hd, hc⟩ := (h.good.wait x m).mp hmem
    obtain rfl : c = m := Fin.ext (some.inj hc)
    rw [hd]
    exact if_pos hmem

theorem blockedBy_eq_some (h : MutexInv s) : s.blockedBy x = some w ↔
    ∃ m : Fin q, x ∈ s.k.sched.waiters m ∧ (s.mutex m).owner = some w := by
  unfold MutexSys.blockedBy
  rw [bind_eq_some_iff]
  simp only [waitsFor_eq_some h]

/-- Every owner is as urgent as the threads that wait for its mutexes. -/
def Inherits (s : MutexSys n q) : Prop :=
  ∀ m u x, (s.mutex m).owner = some u → x ∈ s.k.sched.waiters m →
    s.k.sched.currentPriority u ≤ s.k.sched.currentPriority x

theorem MutexInv.waiter_started (h : MutexInv s) (hx : x ∈ s.k.sched.waiters m) :
    s.k.sched.stat x ≠ .init := by
  rw [((h.good.wait x m).mp hx).1]
  simp

theorem Inherits.mono (hinv : MutexInv s) (h : Inherits s)
    (howner : ∀ m, (s'.mutex m).owner = (s.mutex m).owner)
    (hsub : ∀ m, s'.k.sched.waiters m ⊆ s.k.sched.waiters m)
    (hprio : ∀ t, s.k.sched.stat t ≠ .init → s'.k.sched.currentPriority t = s.k.sched.currentPriority t) :
    Inherits s' := by
  intro m u x hu hx
  rw [howner] at hu
  have hx := hsub m hx
  rw [hprio u ((hinv.agrees m).owner u hu).2, hprio x (hinv.waiter_started hx)]
  exact h m u x hu hx

/-- A thread that waits passes its priority on. -/
theorem Inherits.wait (hinv : MutexInv s) (h : Inherits s) (hready : s.k.sched.stat t = .ready)
    (howner : (s.mutex m).owner = some u) (hut : u ≠ t) {l : List (Fin n)}
    (hl : ∀ x, x ∈ l ↔ x = t ∨ x ∈ s.k.sched.waiters m)
    (hwaiters : k.sched.waiters = update s.k.sched.waiters m l)
    (hprio : k.sched.currentPriority = update s.k.sched.currentPriority u
      (min (s.k.sched.currentPriority u) (s.k.sched.currentPriority t)))
    (hok : ∀ w, s.blockedBy u = some w → s.k.sched.currentPriority u ≤ s.k.sched.currentPriority t ∨
      s.k.sched.currentPriority w ≤ s.k.sched.currentPriority t) {doing : Fin n → Doing (Fin q)} :
    Inherits { s with k := k, doing := doing } := by
  intro m' w x hw hx
  have hle : ∀ y, k.sched.currentPriority y ≤ s.k.sched.currentPriority y := by
    intro y
    rw [hprio, update_apply]
    split_ifs with hy
    · exact hy ▸ min_le_left _ _
    · exact le_rfl
  by_cases hxt : x = t
  · -- The new waiter: it waits for the mutex of `u` only.
    have hmm : m' = m := by
      by_contra hmm
      rw [hwaiters, update_of_ne (Fin.val_ne_of_ne hmm), hxt, hinv.good.wait, hready] at hx
      cases hx.1
    rw [hmm, howner] at hw
    obtain rfl := some.inj hw
    rw [hprio, update_self, hxt, update_of_ne hut.symm]
    exact min_le_right _ _
  · have hx : x ∈ s.k.sched.waiters m' := by
      rw [hwaiters, update_apply] at hx
      split_ifs at hx with hmm
      · exact hmm ▸ ((hl x).mp hx).resolve_left hxt
      · exact hx
    have hold := h m' w x hw hx
    by_cases hxu : x = u
    · -- The owner waits itself and may have become more urgent.
      subst hxu
      have hwx : w ≠ x := by
        rintro rfl
        exact ((hinv.agrees m').owned w hw).2 hx
      rw [hprio, update_self, update_of_ne hwx]
      rcases hok w ((blockedBy_eq_some hinv).mpr ⟨m', hx, hw⟩) with hok | hok
      · rw [min_eq_left hok]
        exact hold
      · exact le_min hold hok
    · calc k.sched.currentPriority w ≤ s.k.sched.currentPriority w := hle w
        _ ≤ s.k.sched.currentPriority x := hold
        _ = k.sched.currentPriority x := by rw [hprio, update_of_ne hxu]

theorem Inherits.giveUp (hinv : MutexInv s) (h : Inherits s) {p : ℕ}
    (hready : s.k.sched.stat t = .ready)
    (hwaiters : ∀ m', m' ≠ m → k.sched.waiters m' = s.k.sched.waiters m')
    (hprio : k.sched.currentPriority = update s.k.sched.currentPriority t p)
    (hok : ∀ x, s.blockedBy x = some t → s.waitsFor x ≠ some m → p ≤ s.k.sched.currentPriority x)
    {mutex : Mutex n} (hm : ∀ u x, mutex.owner = some u → x ∈ k.sched.waiters m →
      k.sched.currentPriority u ≤ k.sched.currentPriority x) {depth : Fin n → Fin q → ℕ} :
    Inherits { s with k := k, mutex := update s.mutex m mutex, depth := depth } := by
  intro m' w x hw hx
  dsimp only at hw hx ⊢
  by_cases hmm : m' = m
  · subst hmm
    rw [update_self] at hw
    exact hm w x hw hx
  · rw [update_of_ne hmm] at hw
    rw [hwaiters m' hmm] at hx
    -- The running thread waits for nothing.
    have hxt : x ≠ t := by
      rintro rfl
      rw [hinv.good.wait, hready] at hx
      cases hx.1
    rw [hprio, update_of_ne hxt, update_apply]
    split_ifs with hwt
    · subst hwt
      apply hok x ((blockedBy_eq_some hinv).mpr ⟨m', hx, hw⟩)
      rw [(waitsFor_eq_some hinv).mpr hx, ne_eq, some.injEq]
      exact hmm
    · exact h m' w x hw hx

/-- A step that meets the condition keeps owners as urgent as their waiters. -/
theorem Inherits.exec (hinv : MutexInv s) (h : Inherits s) (hok : a.inherits s) (hs : s.exec a = some s') :
    Inherits s' := by
  -- A step that changes an error code or `hold` only.
  have hsame : ∀ (k : Kernel n) (mutex : Fin q → Mutex n) (depth : Fin n → Fin q → ℕ) (doing : Fin n → Doing (Fin q)),
      k.sched = s.k.sched → (∀ m, (mutex m).owner = (s.mutex m).owner) → Inherits ⟨⟨k, doing⟩, mutex, depth⟩ := by
    intro k mutex depth doing hsched howner
    refine h.mono hinv howner (fun m => ?_) fun t _ => ?_
    · rw [hsched]
      exact List.Subset.refl _
    · dsimp only
      rw [hsched]
  have hhold : ∀ (m : Fin q) (hold : ℕ) (m' : Fin q), (update s.mutex m { s.mutex m with hold := hold } m').owner =
      (s.mutex m').owner := by
    intro m hold m'
    rw [update_apply]
    split_ifs with hmm
    · rw [hmm]
    · rfl
  cases hinv.step hs with
  | @env e c hgood hcase hlimits hprio =>
    have hne : ∀ u p, e ≠ .control u p := by
      rintro u p rfl
      exact hok
    refine h.mono hinv (fun _ => rfl) (fun m => ?_) fun t ht => ?_
    · rcases hcase with hq | ⟨t, -, hx⟩
      · rw [hq.waiters]
        exact List.Subset.refl _
      · dsimp only
        rw [hx.becomes.waiters]
        exact List.erase_subset
    · exact (hprio hne t).resolve_right fun hinit => ht hinit.1
  | again hfree howner | keep howner hkeep => exact hsame _ _ _ _ rfl (hhold _ _)
  | @take t m time hfree hready howner =>
    intro m' w x hw hx
    dsimp only at hw hx ⊢
    by_cases hmm : m' = m
    · change x ∈ s.k.sched.waiters m' at hx
      rw [hmm, ((hinv.agrees m).free howner).2] at hx
      cases hx
    · rw [update_of_ne hmm] at hw
      exact h m' w x hw hx
  | fail hfree | ret hcall hready | other hfree howner => exact hsame _ _ _ _ rfl fun _ => rfl
  | @wait t u m time k htime hready hfree howner hut hgood hb hlimits =>
    refine h.wait hinv hready howner hut (fun x => IpcFlag.mem_insert) hb.waiters hb.prio ?_
    exact fun w => hok.resolve_left htime u w howner hut
  | @freed t m k hready hfree howner hlast hnil hgood hb hlimits =>
    obtain ⟨hother, -⟩ := hok ⟨howner, hlast⟩
    refine h.giveUp hinv hready (fun m' _ => ?_) hb.prio hother fun u x hu _ => ?_
    · rw [hb.waiters]
    · cases hu
  | @handed t u m l k hready hfree howner hlast hl hgood hb hlimits =>
    obtain ⟨hother, hhead⟩ := hok ⟨howner, hlast⟩
    refine h.giveUp hinv hready (fun m' hmm => ?_) hb.prio hother fun w x hw hx => ?_
    · rw [hb.waiters, update_of_ne (Fin.val_ne_of_ne hmm)]
    · obtain rfl : u = w := some.inj hw
      rw [hb.waiters, update_self] at hx
      have hmem : ∀ {y}, y = u ∨ y ∈ l → y ∈ s.k.sched.waiters m ∧ y ≠ t := by
        intro y hy
        have hy : y ∈ s.k.sched.waiters m := by rwa [hl, List.mem_cons]
        refine ⟨hy, ?_⟩
        rintro rfl
        exact ((hinv.agrees m).owned y howner).2 hy
      rw [hb.prio, update_of_ne (hmem (.inl rfl)).2, update_of_ne (hmem (.inr hx)).2]
      exact hhead u x (by rw [hl]; rfl) (hmem (.inr hx)).1

/-- In a run of steps that meet the condition, the owner of a mutex is as urgent as every thread
that waits for it. -/
theorem owner_inherits (hs : Reachable (mutexSystem n q) (fun s a => a.inherits s) s) (m : Fin q) (u x : Fin n)
    (howner : (s.mutex m).owner = some u) (hx : x ∈ s.k.sched.waiters m) :
    s.k.sched.currentPriority u ≤ s.k.sched.currentPriority x := by
  have hinherits : MutexInv s ∧ Inherits s := by
    refine hs.invariant ?_ ?_
    · intro s hinit
      have hreach : Reachable (mutexSystem n q) always s := .init hinit
      refine ⟨MutexInv.reachable hreach, fun m u x hu => ?_⟩
      obtain ⟨flag, hflag⟩ := hinit.2.1 m
      rw [hflag] at hu
      cases hu
    · rintro s a s' ⟨hinv, h⟩ hok hstep
      exact ⟨hinv.exec hstep, h.exec hinv hok hstep⟩
  exact hinherits.2 m u x howner hx

end Inherit

/-- A thread takes a mutex, and two more urgent threads wait for it in the order of their
priorities. After the release the more urgent one of them owns it. -/
theorem owner_inherits_run : ∃ s : MutexSys 3 1, Reachable (mutexSystem 3 1) (fun s a => a.inherits s) s ∧
    ((s.mutex 0).owner = some 2 ∧ 1 ∈ s.k.sched.waiters 0) ∧
    s.k.sched.currentPriority 2 ≤ s.k.sched.currentPriority 1 := by
  refine exists_reachable_and ?_ fun s hs hp => owner_inherits hs 0 2 1 hp.1 hp.2
  refine exists_reachable_of_exec (MutexSys.init_fresh ![10, 9, 8] .prio (by decide))
    [.env (.startup 0), .env .start, .take 0 0 (-1), .env (.startup 1), .take 1 0 (-1), .env .schedule,
      .env (.startup 2), .take 2 0 (-1), .env .schedule, .release 0 0, .env .schedule] ?_
  decide

/-- With a list in the order of arrival, the release hands the mutex to the first thread, although a
more urgent one waits. -/
theorem owner_less_urgent : ∃ s : MutexSys 3 1, Reachable (mutexSystem 3 1) (fun _ a => a.plain) s ∧
    (s.mutex 0).owner = some 1 ∧ 2 ∈ s.k.sched.waiters 0 ∧
    s.k.sched.currentPriority 2 < s.k.sched.currentPriority 1 := by
  refine exists_reachable_of_exec (MutexSys.init_fresh ![10, 9, 8] .fifo (by decide))
    [.env (.startup 0), .env .start, .take 0 0 (-1), .env (.startup 1), .take 1 0 (-1), .env .schedule,
      .env (.startup 2), .take 2 0 (-1), .env .schedule, .release 0 0, .env .schedule] ?_
  decide

/-! ## Restoration -/

/-- Every thread that owns nothing is at its initial priority. -/
def Restored : Prop :=
  ∀ t, (∀ m, (s.mutex m).owner ≠ some t) → s.k.sched.currentPriority t = s.k.sched.initPriority t

section Restore

variable {s s' : MutexSys n q} {a : MutexAct n q} {t u : Fin n} {m : Fin q}

theorem Restored.mono (h : Restored s) (hlimits : SameLimits s.k s'.k)
    (hstep : ∀ t, (∀ m, (s'.mutex m).owner ≠ some t) →
      s'.k.sched.currentPriority t = s.k.sched.initPriority t ∨
        s'.k.sched.currentPriority t = s.k.sched.currentPriority t ∧ ∀ m, (s.mutex m).owner ≠ some t) :
    Restored s' := by
  intro t ht
  rw [hlimits.initPriority]
  rcases hstep t ht with hinit | ⟨hkeep, hnone⟩
  · exact hinit
  · rw [hkeep]
    exact h t hnone

theorem Restored.giveUp (h : Restored s) (hlimits : SameLimits s.k k) {mutex : Mutex n}
    {depth : Fin n → Fin q → ℕ} (howner : (s.mutex m).owner = some t)
    (hprio : k.sched.currentPriority =
      update s.k.sched.currentPriority t (s.mutex m).originalPriority)
    (hok : (∃ m', m' ≠ m ∧ (s.mutex m').owner = some t) ∨
      (s.mutex m).originalPriority = s.k.sched.initPriority t) :
    Restored { s with k := k, mutex := update s.mutex m mutex, depth := depth } := by
  refine h.mono hlimits fun x hx => ?_
  dsimp only at hx ⊢
  rw [hprio]
  have hothers : ∀ m', m' ≠ m → (s.mutex m').owner ≠ some x := by
    intro m' hmm
    have := hx m'
    rwa [update_of_ne hmm] at this
  by_cases hxt : x = t
  · subst hxt
    rw [update_self]
    refine .inl (hok.resolve_left ?_)
    rintro ⟨m', hmm, hm'⟩
    exact hothers m' hmm hm'
  · rw [update_of_ne hxt]
    refine .inr ⟨rfl, fun m' => ?_⟩
    by_cases hmm : m' = m
    · rw [hmm, howner, ne_eq, some.injEq]
      exact Ne.symm hxt
    · exact hothers m' hmm

/-- A step that meets the condition gives priorities back. -/
theorem Restored.exec (hinv : MutexInv s) (h : Restored s) (hok : a.restores s) (hs : s.exec a = some s') :
    Restored s' := by
  have hhold : ∀ (m : Fin q) (hold : ℕ) (t : Fin n),
      (∀ m', (update s.mutex m { s.mutex m with hold := hold } m').owner ≠ some t) →
        ∀ m', (s.mutex m').owner ≠ some t := by
    intro m hold t ht m'
    have hm' := ht m'
    rw [update_apply] at hm'
    split_ifs at hm' with hmm
    · exact hmm ▸ hm'
    · exact hm'
  cases hinv.step hs with
  | @env e c hgood hcase hlimits hprio =>
    have hne : ∀ u p, e ≠ .control u p := by
      rintro u p rfl
      exact hok
    refine h.mono hlimits fun t ht => ?_
    rcases hprio hne t with hkeep | ⟨-, hinit⟩
    · exact .inr ⟨hkeep, ht⟩
    · exact .inl hinit
  | again hfree howner | keep howner hkeep =>
    exact h.mono ⟨rfl, rfl⟩ fun x hx => .inr ⟨rfl, hhold _ _ x hx⟩
  | @take t m time hfree hready howner =>
    refine h.mono ⟨rfl, rfl⟩ fun x hx => .inr ⟨rfl, fun m' => ?_⟩
    by_cases hmm : m' = m
    · rw [hmm, howner]
      simp
    · have hm' := hx m'
      dsimp only at hm'
      rwa [update_of_ne hmm] at hm'
  | fail hfree | ret hcall hready | other hfree howner =>
    exact h.mono ⟨rfl, rfl⟩ fun x hx => .inr ⟨rfl, hx⟩
  | @wait t u m time k htime hready hfree howner hut hgood hb hlimits =>
    refine h.mono hlimits fun x hx => .inr ⟨?_, hx⟩
    -- Only the owner of a mutex inherits a priority.
    have hxu : x ≠ u := by
      rintro rfl
      exact hx m howner
    rw [hb.prio, update_of_ne hxu]
  | freed hready hfree howner hlast hnil hgood hb hlimits
  | handed hready hfree howner hlast hl hgood hb hlimits =>
    exact h.giveUp hlimits howner hb.prio (hok ⟨howner, hlast⟩)

/-- In a run of steps that meet the condition, a thread that owns no mutex is at the priority that
it was started with. -/
theorem priority_restored (hs : Reachable (mutexSystem n q) (fun s a => a.restores s) s) (t : Fin n)
    (hnone : ∀ m, (s.mutex m).owner ≠ some t) : s.k.sched.currentPriority t = s.k.sched.initPriority t := by
  have hrestored : MutexInv s ∧ Restored s := by
    refine hs.invariant ?_ ?_
    · intro s hinit
      have hreach : Reachable (mutexSystem n q) always s := .init hinit
      refine ⟨MutexInv.reachable hreach, fun t _ => ?_⟩
      obtain ⟨⟨_, _, _, _, _, _, -, -, hboot⟩, -⟩ := hinit
      rw [hboot]
      rfl
    · rintro s a s' ⟨hinv, h⟩ hok hstep
      exact ⟨hinv.exec hstep, h.exec hinv hok hstep⟩
  exact hrestored.2 t hnone

end Restore

/-- A thread takes two mutexes, the second at a priority that it has inherited, and releases them in
the opposite order. -/
theorem priority_restored_run : ∃ s : MutexSys 2 2, Reachable (mutexSystem 2 2) (fun s a => a.restores s) s ∧
    (∀ m, (s.mutex m).owner ≠ some 0) ∧ s.k.sched.currentPriority 0 = s.k.sched.initPriority 0 := by
  refine exists_reachable_and ?_ fun s hs hnone => priority_restored hs 0 hnone
  refine exists_reachable_of_exec (MutexSys.init_fresh ![10, 5] .fifo (by decide))
    [.env (.startup 0), .env .start, .take 0 0 (-1), .env (.startup 1), .take 1 0 (-1), .env .schedule,
      .take 0 1 (-1), .release 0 1, .release 0 0, .env .schedule] ?_
  decide

/-- A thread takes two mutexes, the second at a priority that it has inherited, and releases the
first one first. It is left at the inherited priority. -/
theorem priority_leaks : ∃ s : MutexSys 2 2, Reachable (mutexSystem 2 2) (fun _ a => a.plain) s ∧
    (∀ m, (s.mutex m).owner = none) ∧ s.k.sched.currentPriority 0 = 5 ∧ s.k.sched.initPriority 0 = 10 := by
  refine exists_reachable_of_exec (MutexSys.init_fresh ![10, 5] .fifo (by decide))
    [.env (.startup 0), .env .start, .take 0 0 (-1), .env (.startup 1), .take 1 0 (-1), .env .schedule,
      .take 0 1 (-1), .release 0 0, .env .schedule, .ret 1 0, .release 1 0, .env (.sleep 1 100), .env .schedule,
      .release 0 1] ?_
  decide

end RtThread
