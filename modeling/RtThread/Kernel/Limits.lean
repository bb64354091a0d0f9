import RtThread.Kernel.Run

/-!
# What no step changes

The number of priorities and the threads' initial priorities are fixed once the threads are
initialised.
-/

namespace RtThread

open Lib

variable {n : ℕ} {k k' : Kernel n} {t : Fin n}

/-- The number of priorities and the initial priorities are the same. -/
structure SameLimits (k k' : Kernel n) : Prop where
  prioMax : k'.sched.prioMax = k.sched.prioMax
  initPriority : k'.sched.initPriority = k.sched.initPriority

namespace SameLimits

theorem refl (k : Kernel n) : SameLimits k k := ⟨rfl, rfl⟩

theorem trans {k₂ : Kernel n} (h : SameLimits k k') (h' : SameLimits k' k₂) : SameLimits k k₂ :=
  ⟨h'.prioMax.trans h.prioMax, h'.initPriority.trans h.initPriority⟩

theorem schedule (h : rtSchedule k = .ok k') : SameLimits k k' := by
  unfold rtSchedule at h
  split_ifs at h
  · obtain ⟨p, -, h⟩ := of_bind_ok h
    split_ifs at h
    cases hnext : k.sched.tlist.next (.head (.ready p)) with
    | head h' =>
      rw [hnext] at h
      cases h
    | item u =>
      rw [hnext] at h
      dsimp only at h
      split_ifs at h <;> exact Except.ok.inj h ▸ ⟨rfl, rfl⟩
  · exact Except.ok.inj h ▸ refl k

theorem insertThread (s : Sched n) (t : Fin n) : (rtScheduleInsertThread s t).prioMax = s.prioMax ∧
      (rtScheduleInsertThread s t).initPriority = s.initPriority :=
  have hattr := (rtScheduleInsertThread_attr s t).1
  ⟨hattr.prioMax, hattr.initPriority⟩

theorem removeThread (s : Sched n) (t : Fin n) : (rtScheduleRemoveThread s t).prioMax = s.prioMax ∧
      (rtScheduleRemoveThread s t).initPriority = s.initPriority :=
  have hattr := (rtScheduleRemoveThread_attr s t).1
  ⟨hattr.prioMax, hattr.initPriority⟩

theorem suspend (k : Kernel n) (t : Fin n) : SameLimits k (rtThreadSuspend k t).1 := by
  unfold rtThreadSuspend
  split_ifs
  · exact refl k
  · have hremove := removeThread (k.sched.setStat t .suspend) t
    exact ⟨hremove.1, hremove.2⟩

theorem resume (k : Kernel n) (t : Fin n) : SameLimits k (rtThreadResume k t).1 := by
  unfold rtThreadResume
  split_ifs
  · exact refl k
  · have hinsert := insertThread (k.sched.unlink t) t
    exact ⟨hinsert.1, hinsert.2⟩

theorem changePriority (k : Kernel n) (t : Fin n) (p : ℕ) : SameLimits k (rtThreadChangePriority k t p) := by
  unfold rtThreadChangePriority
  split_ifs
  · have hremove := removeThread k.sched t
    have hset := (setPriority_attr (rtScheduleRemoveThread k.sched t) t p).1
    have hinsert := insertThread ((rtScheduleRemoveThread k.sched t).setPriority t p) t
    exact ⟨hinsert.1.trans (hset.prioMax.trans hremove.1),
      hinsert.2.trans (hset.initPriority.trans hremove.2)⟩
  · have hset := (setPriority_attr k.sched t p).1
    exact ⟨hset.prioMax, hset.initPriority⟩

theorem startTimer {time : ℕ} (h : startThreadTimer k t time = .ok k') : SameLimits k k' := by
  obtain ⟨ts, -, h⟩ := of_bind_ok h
  exact Except.ok.inj h ▸ ⟨rfl, rfl⟩

theorem waitThread {i : ℕ} {flag : IpcFlag} {time : Option ℕ} (h : k.waitThread t i flag time = .ok k') :
    SameLimits k k' := by
  obtain ⟨k₁, h₁, h⟩ := of_bind_ok h
  obtain ⟨b, -, h₁⟩ := of_bind_ok h₁
  have hplaced : SameLimits k k₁ := by
    have hsusp := suspend k t
    exact Except.ok.inj h₁ ▸ ⟨hsusp.prioMax, hsusp.initPriority⟩
  cases time with
  | none => exact Except.ok.inj h ▸ hplaced
  | some time => exact hplaced.trans (startTimer h)

theorem startup (h : rtThreadStartup k t = .ok k') : SameLimits k k' := by
  unfold rtThreadStartup at h
  split_ifs at h
  dsimp only at h
  have hset := (setPriority_attr k.sched t (k.sched.initPriority t)).1
  have hresume : SameLimits k (rtThreadResume { k with
      sched := (k.sched.setPriority t (k.sched.initPriority t)).setStat t .suspend } t).1 :=
    trans ⟨hset.prioMax, hset.initPriority⟩ (resume _ t)
  split_ifs at h
  · exact hresume.trans (schedule h)
  · exact Except.ok.inj h ▸ hresume

theorem yieldThread (h : k.yieldThread t = .ok k') : SameLimits k k' := by
  unfold Kernel.yieldThread at h
  split_ifs at h
  · have hsched := schedule h
    exact ⟨hsched.prioMax, hsched.initPriority⟩
  · exact Except.ok.inj h ▸ refl k

theorem tickThread (hcur : k.current = some t) (h : k.tickThread t = .ok k') : SameLimits k k' := by
  unfold Kernel.tickThread at h
  dsimp only at h
  split_ifs at h
  · have hyield := rtThreadYield_eq (t := t)
      (k := { k with remainingTick := Function.update k.remainingTick t (k.initTick t) }) hcur
    have hsame := yieldThread (hyield.symm.trans h)
    exact ⟨hsame.prioMax, hsame.initPriority⟩
  · exact Except.ok.inj h ▸ ⟨rfl, rfl⟩

theorem expire (h : rtTimerExpire k t = .ok k') : SameLimits k k' := by
  unfold rtTimerExpire rtThreadTimeout at h
  obtain ⟨k₁, h₁, h⟩ := of_bind_ok h
  split_ifs at h₁
  have hsched := schedule h₁
  have hinsert := insertThread (k.sched.unlink t) t
  rw [← Except.ok.inj h]
  exact ⟨hsched.prioMax.trans hinsert.1, hsched.initPriority.trans hinsert.2⟩

theorem schedulerStart (h : rtSystemSchedulerStart k = .ok k') : SameLimits k k' := by
  obtain ⟨p, -, h⟩ := of_bind_ok h
  split_ifs at h
  cases hnext : k.sched.tlist.next (.head (.ready p)) with
  | head h' =>
    rw [hnext] at h
    cases h
  | item u =>
    rw [hnext] at h
    exact Except.ok.inj h ▸ ⟨rfl, rfl⟩

theorem sleepEnd (k : Kernel n) (t : Fin n) : SameLimits k (rtThreadSleepEnd k t) := by
  unfold rtThreadSleepEnd
  split_ifs <;> exact ⟨rfl, rfl⟩

end SameLimits

end RtThread
