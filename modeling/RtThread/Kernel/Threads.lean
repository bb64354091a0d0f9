import RtThread.Kernel.View
import RtThread.Lib.Run

/-!
# The functions on threads compute the operations on views

`Sim k v` says that the kernel state `k` has the view `v`: the links represent the lists of the
view, and states, priorities, error codes and running timers are those of the view. Every function
of `thread.c`, and the list functions of `ipc.c`, take a state with a view to a state with the view
that the operation of the same name gives.
-/

namespace RtThread

open Lib Function List

variable {n : ℕ} {k k' : Kernel n} {v : View n} {t : Fin n}

/-! ## Functions of the current thread -/

theorem rtThreadYield_eq (hcur : k.current = some t) : rtThreadYield k = k.yieldThread t := by
  unfold rtThreadYield
  rw [hcur]

theorem rtThreadExit_eq (hcur : k.current = some t) : rtThreadExit k = k.exitThread t := by
  unfold rtThreadExit
  rw [hcur]

theorem rtThreadSleep_eq (hcur : k.current = some t) (tick : ℕ) :
    rtThreadSleep k tick = startThreadTimer (rtThreadSuspend k t).1 t tick := by
  unfold rtThreadSleep
  rw [hcur]

/-- The kernel state has the view `v`. -/
structure Sim (k : Kernel n) (v : View n) : Prop where
  queues : Queues k.sched v.lists
  stat : k.sched.stat = v.stat
  prio : k.sched.currentPriority = v.prio
  error : k.error = v.error
  timers : k.timers.Run v.armed
  /-- A started thread has the masks of its priority. -/
  masks : ∀ t, v.started t = true → k.sched.HasMasks t
  ok : v.Ok
  /-- The current thread has been started. -/
  current : ∀ t, k.current = some t → v.stat t ≠ .init

theorem ne_init_update {f : Fin n → Stat} {u : Fin n} {x : Stat} (hx : x ≠ .init) (hu : f u ≠ .init) :
    update f t x u ≠ .init := by
  rw [update_apply]
  split_ifs
  · exact hx
  · exact hu

namespace Sim

section

variable (h : Sim k v)
include h

theorem congr (hsched : k'.sched = k.sched) (htimers : k'.timers = k.timers)
    (herror : k'.error = k.error) (hcur : ∀ t, k'.current = some t → v.stat t ≠ .init) : Sim k' v := by
  refine ⟨?_, ?_, ?_, ?_, ?_, ?_, h.ok, hcur⟩
  · rw [hsched]; exact h.queues
  · rw [hsched]; exact h.stat
  · rw [hsched]; exact h.prio
  · rw [herror]; exact h.error
  · rw [htimers]; exact h.timers
  · rw [hsched]; exact h.masks

theorem hasMasks (ht : v.stat t = .ready ∨ v.stat t = .suspend) : k.sched.HasMasks t :=
  h.masks t ((h.ok.at' t).started ht)

theorem schedule (hs : rtSchedule k = .ok k') : Sim k' v := by
  rcases rtSchedule_cases h.queues hs with rfl | ⟨t, p, hmem, rfl⟩
  · exact h
  · refine h.congr rfl rfl rfl ?_
    intro u hu
    rw [← Option.some.inj hu, (((h.ok.at' t).ready p).mp hmem).1]
    simp

theorem suspend (t : Fin n) : Sim (rtThreadSuspend k t).1 (v.suspend t) := by
  unfold rtThreadSuspend View.suspend
  rw [h.stat]
  by_cases ht : v.stat t = .ready
  · rw [if_neg (not_not.mpr ht), if_pos ht]
    obtain ⟨hattr, hstat⟩ := rtScheduleRemoveThread_attr (k.sched.setStat t .suspend) t
    have hok : (((v.leave t).setStat t .suspend).disarm t).Ok :=
      h.ok.toOff (x := .suspend) (by simp) rfl rfl rfl rfl fun _ => (h.ok.at' t).started (Or.inl ht)
    refine ⟨(h.queues.setStat t .suspend).removeThread t, ?_, ?_, h.error, h.timers.stop t, ?_, hok,
      fun u hu => ne_init_update (by simp) (h.current u hu)⟩
    · rw [hstat]
      exact congrArg (update · t Stat.suspend) h.stat
    · rw [hattr.currentPriority]
      exact h.prio
    · intro u hu
      rw [hattr.hasMasks]
      exact h.masks u hu
  · rwa [if_pos ht, if_neg ht]

theorem makeReady (ht : v.stat t = .suspend) :
    Sim { k with sched := rtScheduleInsertThread (k.sched.unlink t) t } (v.makeReady t) := by
  obtain ⟨hattr, hstat⟩ := rtScheduleInsertThread_attr (k.sched.unlink t) t
  have hoff : ∀ p, t ∉ v.lists (.ready p) := h.ok.not_mem_ready (by rw [ht]; simp)
  have hqueues := (h.queues.unlink hoff).insertThread (fun i => (h.queues.rings.nodup i).not_mem_erase)
    (h.hasMasks (Or.inr ht))
  rw [show (k.sched.unlink t).currentPriority = _ from h.prio] at hqueues
  have hprio : v.prio = update v.prio t (v.prio t) := (update_eq_self ..).symm
  have hlists : (v.makeReady t).lists = ((v.setPrio t (v.prio t)).queue t).lists := by
    unfold View.setPrio
    rw [← hprio]
    rfl
  have hok : (v.makeReady t).Ok := h.ok.toReady (v.prio t) hlists rfl hprio (fun _ _ => rfl)
    ((h.ok.at' t).started (Or.inr ht))
  refine ⟨hqueues, ?_, ?_, h.error, h.timers, ?_, hok,
    fun u hu => ne_init_update (by simp) (h.current u hu)⟩
  · rw [hstat]
    exact congrArg (update · t Stat.ready) h.stat
  · rw [hattr.currentPriority]
    exact h.prio
  · intro u hu
    rw [hattr.hasMasks]
    exact h.masks u hu

theorem disarm (t : Fin n) : Sim { k with timers := rtTimerStop k.timers t } (v.disarm t) :=
  ⟨h.queues, h.stat, h.prio, h.error, h.timers.stop t, h.masks, ⟨fun u => ⟨(h.ok.at' u).1,
    (h.ok.at' u).2, (h.ok.at' u).3, (h.ok.at' u).4⟩, h.ok.nodup⟩, h.current⟩

theorem setError (t : Fin n) (e : ℤ) :
    Sim { k with error := update k.error t e } (v.setError t e) :=
  ⟨h.queues, h.stat, h.prio, congrArg (update · t e) h.error, h.timers, h.masks,
    ⟨fun u => ⟨(h.ok.at' u).1, (h.ok.at' u).2, (h.ok.at' u).3, (h.ok.at' u).4⟩, h.ok.nodup⟩, h.current⟩

theorem resume (t : Fin n) : Sim (rtThreadResume k t).1 (v.resume t) := by
  unfold rtThreadResume View.resume
  rw [h.stat]
  by_cases ht : v.stat t = .suspend
  · rw [if_neg (not_not.mpr ht), if_pos ht]
    exact (h.makeReady ht).disarm t
  · rwa [if_pos ht, if_neg ht]

theorem expire (ht : v.stat t = .suspend) (he : rtTimerExpire k t = .ok k') :
    Sim k' (v.expire t) := by
  unfold rtTimerExpire rtThreadTimeout at he
  have hst : k.sched.stat t = .suspend := by rw [h.stat, ht]
  rw [if_pos hst] at he
  obtain ⟨k₁, hsched, hk'⟩ := of_bind_ok he
  have hremoved : Sim { k with timers := rtTimerRemove k.timers t } (v.disarm t) :=
    ⟨h.queues, h.stat, h.prio, h.error, h.timers.remove t, h.masks, (h.disarm t).ok, h.current⟩
  have hready := ((hremoved.makeReady ht).setError t (-RT_ETIMEOUT)).schedule hsched
  have htimers := hready.timers.deactivate (t := t) (update_self ..)
  rw [← Except.ok.inj hk']
  exact ⟨hready.queues, hready.stat, hready.prio, hready.error, htimers, hready.masks, hready.ok,
    hready.current⟩

theorem expire_fault (ht : v.stat t ≠ .suspend) : rtTimerExpire k t = .error .timeout := by
  unfold rtTimerExpire rtThreadTimeout
  have hst : k.sched.stat t ≠ .suspend := by rwa [h.stat]
  rw [if_neg hst]
  rfl

theorem of_expire (he : rtTimerExpire k t = .ok k') : v.stat t = .suspend := by
  by_contra hne
  rw [h.expire_fault hne] at he
  cases he

theorem of_startup (hs : rtThreadStartup k t = .ok k') : v.stat t = .init := by
  by_contra hne
  have hst : k.sched.stat t ≠ .init := by rwa [h.stat]
  simp only [rtThreadStartup, if_neg hst] at hs
  cases hs

/-- A started thread is ready with its initial priority. -/
theorem startupResume (ht : v.stat t = .init) :
    Sim (rtThreadResume { k with
      sched := (k.sched.setPriority t (k.sched.initPriority t)).setStat t .suspend } t).1
      (v.startup t (k.sched.initPriority t)) := by
  obtain ⟨hfix, hmask, hother⟩ := setPriority_attr k.sched t (k.sched.initPriority t)
  have hoff := h.ok.not_mem_of_init ht
  -- The thread is suspended before it is resumed.
  have hsusp : Sim { k with sched := (k.sched.setPriority t (k.sched.initPriority t)).setStat t .suspend }
      { (v.setPrio t (k.sched.initPriority t)).setStat t .suspend with
        started := update v.started t true } := by
    refine ⟨(h.queues.setPriority (fun p => hoff _) (h.queues.init t)).setStat t _, ?_, ?_, h.error,
      h.timers, ?_, ?_, fun u hu => ne_init_update (by simp) (h.current u hu)⟩
    · change update (k.sched.setPriority _ _).stat t _ = _
      rw [hfix.stat, h.stat]
      rfl
    · change (k.sched.setPriority _ _).currentPriority = _
      rw [hfix.currentPriority, h.prio]
      rfl
    · intro u hu
      change (k.sched.setPriority t (k.sched.initPriority t)).HasMasks u
      by_cases hut : u = t
      · exact hut ▸ hmask
      · rw [(hother u hut).1]
        change update v.started t true u = true at hu
        rw [update_of_ne hut] at hu
        exact h.masks u hu
    · refine h.ok.move (t := t) ⟨fun _ _ _ => Iff.rfl, ?_, ?_, ?_⟩ ⟨?_, ?_, ?_, ?_⟩ h.ok.nodup
      · exact fun u hu => update_of_ne hu ..
      · exact fun u hu => update_of_ne hu ..
      · exact fun u hu => update_of_ne hu ..
      · intro p
        simp [View.setPrio, View.setStat, hoff]
      · exact fun i hi => absurd hi (hoff _)
      · exact fun hd => absurd hd (hoff _)
      · exact fun _ => update_self ..
  have hres := hsusp.resume t
  have hstat : ({ (v.setPrio t (k.sched.initPriority t)).setStat t .suspend with
      started := update v.started t true } : View n).stat t = .suspend := update_self ..
  unfold View.resume at hres
  rwa [if_pos hstat] at hres

theorem startup (ht : v.stat t = .init) (hs : rtThreadStartup k t = .ok k') :
    Sim k' (v.startup t (k.sched.initPriority t)) := by
  unfold rtThreadStartup at hs
  have hst : k.sched.stat t = .init := by rw [h.stat, ht]
  have hres := h.startupResume ht
  rw [if_pos hst] at hs
  dsimp only at hs
  split_ifs at hs with hcur
  · exact hres.schedule hs
  · exact Except.ok.inj hs ▸ hres

theorem off_close (t : Fin n) (hd : Head) : t ∉ (v.close t).lists hd :=
  (h.ok.nodup hd).not_mem_erase

theorem close_ok (t : Fin n) : (v.close t).Ok :=
  h.ok.toOff (x := .close) (by simp) rfl rfl rfl rfl (by simp)

theorem removeClose (t : Fin n) :
    Sim { k with
      sched := (rtScheduleRemoveThread k.sched t).setStat t .close
      timers := rtTimerRemove k.timers t } (v.close t) := by
  obtain ⟨hattr, hstat⟩ := rtScheduleRemoveThread_attr k.sched t
  refine ⟨(h.queues.removeThread t).setStat t .close, ?_, ?_, h.error, h.timers.remove t, ?_, h.close_ok t,
    fun u hu => ne_init_update (by simp) (h.current u hu)⟩
  · change update (rtScheduleRemoveThread k.sched t).stat t _ = _
    rw [hstat, h.stat]
    rfl
  · change (rtScheduleRemoveThread k.sched t).currentPriority = _
    rw [hattr.currentPriority, h.prio]
    rfl
  · intro u hu
    change (rtScheduleRemoveThread k.sched t).HasMasks u
    rw [hattr.hasMasks]
    exact h.masks u hu

theorem retire (t : Fin n) : Sim (k.retire t) (v.close t) := by
  unfold Kernel.retire
  rw [h.stat]
  by_cases ht : v.stat t = .init
  · rw [if_neg (not_not.mpr ht)]
    have hlists : (v.close t).lists = v.lists := by
      funext hd
      exact erase_of_not_mem (h.ok.not_mem_of_init ht hd)
    refine ⟨?_, ?_, h.prio, h.error, h.timers.remove t, h.masks, h.close_ok t,
      fun u hu => ne_init_update (by simp) (h.current u hu)⟩
    · rw [hlists]
      exact h.queues.setStat t .close
    · exact congrArg (update · t Stat.close) h.stat
  · rw [if_pos ht]
    exact h.removeClose t

theorem bury (hoff : ∀ hd, t ∉ v.lists hd) (ht : v.stat t = .close) :
    Sim (k.bury t) (v.bury t) := by
  have hrings := rings_rtListInsertAfter_head h.queues.rings hoff .defunct
  refine ⟨h.queues.place (by simp) hrings, h.stat, h.prio, h.error, h.timers, h.masks, ?_, h.current⟩
  apply h.ok.toPlace hoff (by simp) (nodup_cons.mpr ⟨hoff _, h.ok.nodup _⟩)
  exact Or.inl ⟨rfl, ht⟩

theorem delete (t : Fin n) : Sim (rtThreadDelete k t) ((v.close t).bury t) :=
  (h.retire t).bury (h.off_close t) (update_self ..)

theorem detach (t : Fin n) :
    Sim (rtThreadDetach k t) (if k.cleanup t then (v.close t).bury t else v.close t) := by
  change Sim (if k.cleanup t = true then _ else _) _
  split_ifs
  · exact (h.retire t).bury (h.off_close t) (update_self ..)
  · exact h.retire t

theorem exitThread (he : k.exitThread t = .ok k') :
    Sim k' (if k.systemObject t ∧ ¬k.cleanup t then v.close t else (v.close t).bury t) := by
  apply Sim.schedule _ he
  split_ifs
  · exact h.removeClose t
  · exact (h.removeClose t).bury (h.off_close t) (update_self ..)

theorem requeue (ht : v.stat t = .ready) :
    Sim { k with sched := { k.sched with
      tlist := rtListInsertBefore (rtListRemove k.sched.tlist (.item t)) (.head (.ready (v.prio t)))
        (.item t) } } (v.queue t) := by
  have hprio : v.prio = update v.prio t (v.prio t) := (update_eq_self ..).symm
  have hstat : v.stat = update v.stat t .ready := by rw [← ht, update_eq_self]
  have hlists : (v.queue t).lists = ((v.setPrio t (v.prio t)).queue t).lists := by
    unfold View.setPrio
    rw [← hprio]
  have hok : (v.queue t).Ok := h.ok.toReady (v.prio t) hlists hstat hprio (fun _ _ => rfl)
    ((h.ok.at' t).started (Or.inl ht))
  have hrings := rings_rtListInsertBefore_head (rings_rtListRemove h.queues.rings t)
    (fun hd => (h.queues.rings.nodup hd).not_mem_erase) (.ready (v.prio t))
  -- The same threads are on the ready lists.
  have hsame : ∀ u p, u ∈ (v.queue t).lists (.ready p) ↔ u ∈ v.lists (.ready p) := by
    intro u p
    rw [View.mem_queue h.ok.nodup]
    by_cases hu : u = t
    · subst hu
      rw [(h.ok.at' u).ready]
      simp [ht, eq_comm]
    · simp [hu]
  refine ⟨h.queues.relink hrings (fun {p u} hu => (hsame u p).mp hu) fun p => ?_, h.stat, h.prio, h.error,
    h.timers, h.masks, hok, h.current⟩
  simp only [ne_eq, eq_nil_iff_forall_not_mem, hsame]

theorem queue_eq_self (ht : v.stat t = .ready)
    (halone : k.sched.tlist.next (.item t) = k.sched.tlist.prev (.item t)) : v.queue t = v := by
  have hmem : t ∈ v.lists (.ready (v.prio t)) := ((h.ok.at' t).ready _).mpr ⟨ht, rfl⟩
  have hone := h.queues.rings.eq_singleton hmem halone
  have hlists : (v.queue t).lists = v.lists := by
    funext hd
    change update (v.leave t).lists (.ready (v.prio t))
      ((v.lists (.ready (v.prio t))).erase t ++ [t]) hd = v.lists hd
    by_cases hhd : hd = .ready (v.prio t)
    · rw [hhd, update_self, hone, erase_cons_head, nil_append]
    · rw [update_of_ne hhd]
      apply erase_of_not_mem
      intro ht'
      exact hhd (h.queues.rings.apart ht' hmem)
  calc v.queue t = { v with lists := (v.queue t).lists } := rfl
    _ = v := by rw [hlists]

theorem yieldThread (hy : k.yieldThread t = .ok k') : Sim k' (v.yield t) := by
  unfold Kernel.yieldThread at hy
  unfold View.yield
  rw [h.stat, h.prio] at hy
  split_ifs at hy with hcond
  · rw [if_pos hcond.1]
    exact (h.requeue hcond.1).schedule hy
  · rw [← Except.ok.inj hy]
    split_ifs with ht
    · rwa [h.queue_eq_self ht (not_not.mp fun hne => hcond ⟨ht, hne⟩)]
    · exact h

/-- A ready thread moves to the list of its new priority, and any other stays. -/
theorem changePriority {p : ℕ} (hp : p < k.sched.prioMax) :
    Sim (rtThreadChangePriority k t p) (v.changePriority t p) := by
  unfold rtThreadChangePriority View.changePriority
  rw [h.stat]
  by_cases ht : v.stat t = .ready
  · -- A ready thread is taken off its list and inserted again.
    rw [if_pos ht, if_pos ht]
    obtain ⟨hattr, hstat⟩ := rtScheduleRemoveThread_attr k.sched t
    obtain ⟨hfix, hmask, hother⟩ := setPriority_attr (rtScheduleRemoveThread k.sched t) t p
    obtain ⟨hattr', hstat'⟩ :=
      rtScheduleInsertThread_attr ((rtScheduleRemoveThread k.sched t).setPriority t p) t
    have hoff : ∀ hd, t ∉ (v.lists hd).erase t := fun hd => (h.ok.nodup hd).not_mem_erase
    have hprioMax : p < (rtScheduleRemoveThread k.sched t).prioMax := by rwa [hattr.prioMax]
    have hqueues := ((h.queues.removeThread t).setPriority (fun q => hoff _) hprioMax).insertThread hoff hmask
    have hcur : ((rtScheduleRemoveThread k.sched t).setPriority t p).currentPriority t = p := by
      rw [hfix.currentPriority, update_self]
    have hp' : ((v.setPrio t p).leave t).prio t = p := update_self ..
    have hok : ((v.setPrio t p).queue t).Ok := h.ok.toReady p rfl
      (by rw [← ht, update_eq_self]; rfl) rfl (fun _ _ => rfl) ((h.ok.at' t).started (Or.inl ht))
    refine ⟨?_, ?_, ?_, h.error, h.timers, ?_, hok, h.current⟩
    · rw [hcur] at hqueues
      unfold View.queue
      dsimp only
      rw [hp']
      exact hqueues
    · rw [hstat', hfix.stat, hstat, h.stat, ← ht, update_eq_self]
      rfl
    · rw [hattr'.currentPriority, hfix.currentPriority, hattr.currentPriority, h.prio]
      rfl
    · intro u hu
      rw [hattr'.hasMasks]
      by_cases hut : u = t
      · exact hut ▸ hmask
      · rw [(hother u hut).1, hattr.hasMasks]
        exact h.masks u hu
  · -- Any other thread stays where it is.
    rw [if_neg ht, if_neg ht]
    obtain ⟨hfix, hmask, hother⟩ := setPriority_attr k.sched t p
    have hoff := h.ok.not_mem_ready ht
    refine ⟨h.queues.setPriority hoff hp, ?_, ?_, h.error, h.timers, ?_, ?_, h.current⟩
    · rw [hfix.stat, h.stat]
      rfl
    · rw [hfix.currentPriority, h.prio]
      rfl
    · intro u hu
      by_cases hut : u = t
      · exact hut ▸ hmask
      · rw [(hother u hut).1]
        exact h.masks u hu
    · refine h.ok.move (t := t) ⟨fun _ _ _ => Iff.rfl, fun _ _ => rfl, ?_, fun _ _ => rfl⟩
        ⟨?_, (h.ok.at' t).wait, (h.ok.at' t).defunct, (h.ok.at' t).started⟩ h.ok.nodup
      · exact fun u hu => update_of_ne hu ..
      · intro q
        change t ∈ v.lists (.ready q) ↔ v.stat t = .ready ∧ _
        simp [ht, hoff]

end

/-! ## Timers and waiting -/

section

variable (h : Sim k v)
include h

theorem startTimer {time : ℕ} (hs : startThreadTimer k t time = .ok k') : Sim k' (v.arm t) := by
  obtain ⟨ts, hts, hk'⟩ := of_bind_ok hs
  have hset : (rtTimerSetTime k.timers t time).Run v.armed := by
    obtain ⟨T, ha, hf⟩ := h.timers
    exact ⟨T, ha.setTime t time, hf⟩
  have htime : (rtTimerSetTime k.timers t time).initTick t < halfTickMax := by
    by_contra hlong
    rw [rtTimerStart_assertion hlong] at hts
    cases hts
  obtain ⟨ts', hts', hrun, -⟩ := hset.start htime
  rw [hts'] at hts
  rw [← Except.ok.inj hk', ← Except.ok.inj hts]
  exact ⟨h.queues, h.stat, h.prio, h.error, hrun, h.masks, ⟨fun u => ⟨(h.ok.at' u).1, (h.ok.at' u).2,
    (h.ok.at' u).3, (h.ok.at' u).4⟩, h.ok.nodup⟩, h.current⟩

theorem startTimer_ok {time : ℕ} (htime : time < halfTickMax) :
    ∃ k', startThreadTimer k t time = .ok k' := by
  have hset : (rtTimerSetTime k.timers t time).Run v.armed := by
    obtain ⟨T, ha, hf⟩ := h.timers
    exact ⟨T, ha.setTime t time, hf⟩
  have htime' : (rtTimerSetTime k.timers t time).initTick t < halfTickMax := by
    change update k.timers.initTick t time t < _
    rwa [update_self]
  obtain ⟨ts', hts', -⟩ := hset.start htime'
  exact ⟨{ k with timers := ts' }, by rw [startThreadTimer, hts']; rfl⟩

variable (i : ℕ)

theorem prioPlace_eq (t : Fin n) {l₁ l₂ : List (Fin n)} {fuel : ℕ}
    (hsplit : v.lists (.wait i) = l₁ ++ l₂) (hfuel : l₂.length < fuel) :
    k.sched.prioPlace i t fuel (Node.first (.wait i) l₂) =
      .ok (Node.first (.wait i) (l₂.dropWhile fun u => v.prio u ≤ v.prio t)) := by
  induction l₂ generalizing l₁ fuel with
  | nil =>
    obtain ⟨fuel, rfl⟩ := Nat.exists_eq_succ_of_ne_zero (by omega : fuel ≠ 0)
    rw [Node.first_nil, Sched.prioPlace, if_pos rfl]
    rfl
  | cons u l₂ ih =>
    obtain ⟨fuel, rfl⟩ := Nat.exists_eq_succ_of_ne_zero (by omega : fuel ≠ 0)
    rw [Node.first_cons, Sched.prioPlace, if_neg (by simp)]
    rw [h.prio]
    by_cases hlt : v.prio t < v.prio u
    · rw [if_pos hlt, dropWhile_cons_of_neg (by simpa using hlt)]
      rfl
    · have hsplit' : v.lists (.wait i) = (l₁ ++ [u]) ++ l₂ := by rw [hsplit, append_assoc]; rfl
      rw [length_cons] at hfuel
      rw [if_neg hlt, dropWhile_cons_of_pos (by simpa using hlt), h.queues.rings.next_item hsplit]
      exact ih hsplit' (by omega)

theorem length_lt (hd : Head) : (v.lists hd).length < n + 1 := by
  have hcard := (h.ok.nodup hd).length_le_card
  rw [Fintype.card_fin] at hcard
  omega

theorem ipcPlace_eq (t : Fin n) (flag : IpcFlag) : ∃ m₁ m₂,
    v.lists (.wait i) = m₁ ++ m₂ ∧ k.sched.ipcPlace i t flag = .ok (Node.first (.wait i) m₂) ∧
      flag.insert v.prio t (v.lists (.wait i)) = m₁ ++ t :: m₂ := by
  cases flag with
  | fifo => exact ⟨_, [], (append_nil _).symm, rfl, rfl⟩
  | prio =>
    have hsplit : v.lists (.wait i) = [] ++ v.lists (.wait i) := rfl
    refine ⟨_, _, (takeWhile_append_dropWhile).symm, ?_, rfl⟩
    change Sched.prioPlace _ i t (n + 1) _ = _
    rw [h.queues.rings.next_head]
    exact h.prioPlace_eq i t hsplit (h.length_lt _)

theorem placeWait (flag : IpcFlag) (hoff : ∀ hd, t ∉ v.lists hd)
    (ht : v.stat t = .suspend) : ∃ b, k.sched.ipcPlace i t flag = .ok b ∧
      Sim { k with sched := { k.sched with tlist := rtListInsertBefore k.sched.tlist b (.item t) } }
        (v.place (.wait i) (flag.insert v.prio t (v.lists (.wait i)))) := by
  obtain ⟨m₁, m₂, hsplit, hplace, hins⟩ := h.ipcPlace_eq i t flag
  have hrings := rings_rtListInsertBefore h.queues.rings hoff hsplit
  rw [← hins] at hrings
  have hnodup : (flag.insert v.prio t (v.lists (.wait i))).Nodup := by
    have hnd := hrings.nodup (.wait i)
    rwa [update_self] at hnd
  have hok : (v.place (.wait i) (flag.insert v.prio t (v.lists (.wait i)))).Ok :=
    h.ok.toPlace hoff (fun u => IpcFlag.mem_insert) hnodup (Or.inr ⟨⟨i, rfl⟩, ht⟩)
  exact ⟨_, hplace, h.queues.place (by simp) hrings, h.stat, h.prio, h.error, h.timers, h.masks, hok,
    h.current⟩

theorem wait (flag : IpcFlag)
    (ht : v.stat t = .ready ∨ v.stat t = .suspend ∧ ∀ hd, t ∉ v.lists hd) :
    ∃ k', rtIpcListSuspend k i t flag = .ok k' ∧ Sim k' (v.wait i t flag) := by
  obtain ⟨hoff, hstat⟩ : (∀ hd, t ∉ (v.suspend t).lists hd) ∧ (v.suspend t).stat t = .suspend := by
    unfold View.suspend
    rcases ht with ht | ⟨ht, hoff⟩
    · rw [if_pos ht]
      exact ⟨fun hd => (h.ok.nodup hd).not_mem_erase, update_self ..⟩
    · rw [if_neg (by rw [ht]; simp)]
      exact ⟨hoff, ht⟩
  obtain ⟨b, hb, hsim⟩ := (h.suspend t).placeWait i flag hoff hstat
  refine ⟨_, ?_, hsim⟩
  unfold rtIpcListSuspend
  dsimp only
  rw [hb]
  rfl

theorem ipcResume {i : ℕ} {l : List (Fin n)} (hl : v.lists (.wait i) = t :: l) :
    rtIpcListResume k i = .ok (rtThreadResume k t).1 := by
  unfold rtIpcListResume
  rw [h.queues.rings.next_head, hl]
  rfl

theorem lists_resume {i : ℕ} (hmem : t ∈ v.lists (.wait i)) (j : ℕ) :
    (v.resume t).lists (.wait j) = (v.lists (.wait j)).erase t := by
  unfold View.resume
  rw [if_pos ((h.ok.at' t).wait i hmem)]
  rfl

/-- `rt_ipc_list_resume_all` resumes the threads of the list in order. -/
theorem ipcResumeAll : ∃ k', rtIpcListResumeAll k i = .ok k' ∧ Sim k' (v.resumeAll i) := by
  obtain ⟨fuel, hfuel⟩ : ∃ fuel, (v.lists (.wait i)).length < fuel ∧ fuel = n + 1 :=
    ⟨_, h.length_lt _, rfl⟩
  unfold rtIpcListResumeAll View.resumeAll
  rw [← hfuel.2]
  have hlen := hfuel.1
  clear hfuel
  -- Along the list.
  generalize hl : v.lists (.wait i) = l at hlen ⊢
  induction l generalizing k v fuel with
  | nil =>
    obtain ⟨fuel, rfl⟩ := Nat.exists_eq_succ_of_ne_zero (by omega : fuel ≠ 0)
    refine ⟨k, ?_, h⟩
    rw [rtIpcListResumeAllLoop, h.queues.rings.next_head, hl]
    rfl
  | cons t l ih =>
    obtain ⟨fuel, rfl⟩ := Nat.exists_eq_succ_of_ne_zero (by omega : fuel ≠ 0)
    have hres := (h.setError t (-RT_ERROR)).resume t
    have hmem : t ∈ (v.setError t (-RT_ERROR)).lists (.wait i) := by
      change t ∈ v.lists (.wait i)
      rw [hl]
      exact mem_cons_self
    have hrest : ((v.setError t (-RT_ERROR)).resume t).lists (.wait i) = l := by
      rw [(h.setError t (-RT_ERROR)).lists_resume hmem]
      change (v.lists (.wait i)).erase t = l
      rw [hl, erase_cons_head]
    rw [length_cons] at hlen
    obtain ⟨k', hk', hsim⟩ := ih hres fuel hrest (by omega)
    refine ⟨k', ?_, hsim⟩
    rw [rtIpcListResumeAllLoop, h.queues.rings.next_head, hl]
    exact hk'

end

end Sim

end RtThread
