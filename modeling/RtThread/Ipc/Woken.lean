import RtThread.Ipc.Calls

/-!
# Calls that were woken

A thread that waits is woken by an object, by its timer, or by a reset. Only the first leaves its
error code at `RT_EOK`, which is how the call tells them apart when it goes on. `Woken` are the
calls that were woken without an error and have not gone on yet.
-/

namespace RtThread

open Lib Function

variable {n : ℕ} {C : Type}

/-- The call `c` of the thread was woken without an error, and has not gone on. -/
def Woken (s : Callers C n) (t : Fin n) (c : C) : Prop :=
  s.doing t = .call c ∧ s.k.sched.stat t = .ready ∧ s.k.error t = RT_EOK

instance [DecidableEq C] (s : Callers C n) (t : Fin n) (c : C) : Decidable (Woken s t c) := by
  unfold Woken; infer_instance

/-- The threads fit their calls, and those that wait have no error. -/
structure Clean (list : C → Option ℕ) (s : Callers C n) : Prop extends Good list s where
  error : ∀ i t, t ∈ s.k.sched.waiters i → s.k.error t = RT_EOK

variable {list : C → Option ℕ} {s s' : Callers C n} {t u : Fin n} {c d : C} {i : ℕ}

theorem not_woken (ht : s.k.sched.stat t = .suspend) : ¬Woken s t c := by
  rintro ⟨-, hst, -⟩
  rw [ht] at hst
  cases hst

theorem Quiet.woken (hq : Quiet s s') : Woken s' u c ↔ Woken s u c := by
  unfold Woken
  rw [hq.calls]
  constructor
  · rintro ⟨hd, hst, herr⟩
    exact ⟨hd, (hq.stat u c hd).symm.trans hst, (hq.error u c hd).symm.trans herr⟩
  · rintro ⟨hd, hst, herr⟩
    exact ⟨hd, (hq.stat u c hd).trans hst, (hq.error u c hd).trans herr⟩

theorem Expired.woken (hx : Expired s s' t) : Woken s' u c ↔ Woken s u c := by
  unfold Woken
  rw [hx.doing, hx.becomes.stat, hx.becomes.error]
  by_cases hut : u = t
  · subst hut
    rw [hx.was, update_self, update_self]
    simp [RT_EOK, RT_ETIMEOUT]
  · rw [update_of_ne hut, update_of_ne hut]

namespace Clean

theorem boot (h : s.Boot) : Clean list s ∧ s.k.sched.waiters = fun _ => [] := by
  obtain ⟨hgood, hwaiters⟩ : Good list s ∧ _ := Good.boot h
  refine ⟨⟨hgood, fun i t ht => ?_⟩, hwaiters⟩
  rw [hwaiters] at ht
  cases ht

theorem env [DecidableEq C] (h : Clean list s) {e : Env n} (hs : s.env e = some s') :
    Clean list s' ∧ (∀ t c, s'.doing t = .call c ↔ s.doing t = .call c) ∧
      (∀ i, (s'.k.sched.waiters i).Sublist (s.k.sched.waiters i)) ∧ ∀ t c, Woken s' t c ↔ Woken s t c := by
  obtain ⟨hgood, hq | ⟨t, rfl, hx⟩⟩ := h.toGood.env hs
  · refine ⟨⟨hgood, fun i u hu => ?_⟩, hq.calls, fun i => ?_, fun _ _ => hq.woken⟩
    · rw [hq.waiters] at hu
      obtain ⟨-, d, hd, -⟩ := (h.wait u i).mp hu
      rw [hq.error u d hd]
      exact h.error i u hu
    · rw [hq.waiters]
  · have hb := hx.becomes
    refine ⟨⟨hgood, fun i u hu => ?_⟩, fun u c => by rw [hx.doing], fun i => ?_, fun _ _ => hx.woken⟩
    · rw [hb.waiters, (h.nodup i).mem_erase_iff] at hu
      rw [hb.error, update_of_ne hu.1]
      exact h.error i u hu.2
    · rw [hb.waiters]
      exact List.erase_sublist

section

variable (h : Clean list s)
include h

theorem block (ht : s.k.sched.stat t = .ready) (hc : list c = some i) {flag : IpcFlag}
    {time : Option ℕ} {k' : Kernel n} (hw : (s.k.setError t RT_EOK).waitThread t i flag time = .ok k') :
    Clean list ⟨k', update s.doing t (.call c)⟩ ∧ k'.sched.waiters = update s.k.sched.waiters i
        (flag.insert s.k.sched.currentPriority t (s.k.sched.waiters i)) ∧
      ∀ u d, Woken ⟨k', update s.doing t (.call c)⟩ u d ↔ u ≠ t ∧ Woken s u d := by
  obtain ⟨hgood, hb⟩ := h.toGood.blockReset ht hc hw
  refine ⟨⟨hgood, fun j u hu => ?_⟩, hb.waiters, fun u d => ?_⟩
  · rw [hb.error, update_apply]
    split_ifs with hut
    · rfl
    · rw [hb.waiters, update_apply] at hu
      split_ifs at hu
      · rw [IpcFlag.mem_insert] at hu
        exact h.error i u (hu.resolve_left hut)
      · exact h.error j u hu
  · unfold Woken
    rw [hb.stat, hb.error]
    by_cases hut : u = t
    · subst hut
      simp
    · simp [hut]

theorem wake (ht : t ∈ s.k.sched.waiters i) :
    Clean list { s with k := (rtThreadResume s.k t).1 } ∧
      (rtThreadResume s.k t).1.sched.waiters = (fun j => (s.k.sched.waiters j).erase t) ∧
      ∀ u d, Woken { s with k := (rtThreadResume s.k t).1 } u d ↔ Woken s u d ∨ u = t ∧ s.doing t = .call d := by
  obtain ⟨hgood, hb⟩ := h.toGood.wake ht
  refine ⟨⟨hgood, fun j u hu => ?_⟩, hb.waiters, fun u d => ?_⟩
  · rw [hb.waiters] at hu
    rw [hb.error]
    exact h.error j u (List.mem_of_mem_erase hu)
  · unfold Woken
    rw [hb.stat, hb.error]
    by_cases hut : u = t
    · subst hut
      rw [update_self, h.error i u ht, ((h.wait u i).mp ht).1]
      simp
    · simp [hut]

theorem wakeHead {l : List (Fin n)} (hl : s.k.sched.waiters i = t :: l) :
    rtIpcListResume s.k i = .ok (rtThreadResume s.k t).1 ∧
      Clean list { s with k := (rtThreadResume s.k t).1 } ∧
      (rtThreadResume s.k t).1.sched.waiters = update s.k.sched.waiters i l ∧
      ∀ u d, Woken { s with k := (rtThreadResume s.k t).1 } u d ↔ Woken s u d ∨ u = t ∧ s.doing t = .call d := by
  have ht : t ∈ s.k.sched.waiters i := by rw [hl]; exact List.mem_cons_self
  obtain ⟨hresume, -, hb⟩ := h.toGood.wakeHead hl
  obtain ⟨hclean, -, hwoken⟩ := h.wake ht
  exact ⟨hresume, hclean, hb.waiters, hwoken⟩

theorem wakeAll (i : ℕ) : ∃ k', rtIpcListResumeAll s.k i = .ok k' ∧
    Clean list { s with k := k' } ∧ k'.sched.waiters = update s.k.sched.waiters i [] ∧
      ∀ u d, Woken { s with k := k' } u d ↔ Woken s u d := by
  obtain ⟨k', hk', hgood, hb⟩ := h.toGood.wakeAll i
  refine ⟨k', hk', ⟨hgood, fun j u hu => ?_⟩, hb.waiters, fun u d => ?_⟩
  · rw [hb.waiters, update_apply] at hu
    split_ifs at hu with hji
    · cases hu
    · rw [hb.error]
      dsimp only
      rw [if_neg fun hui => hji (h.apart hu hui)]
      exact h.error j u hu
  · unfold Woken
    rw [hb.stat, hb.error]
    dsimp only
    split_ifs with hu
    · rw [((h.wait u i).mp hu).1]
      simp [RT_EOK, RT_ERROR]
    · rfl

theorem setError (ht : s.doing t = .free) (e : ℤ) :
    Clean list { s with k := s.k.setError t e } ∧
      ∀ u d, Woken { s with k := s.k.setError t e } u d ↔ Woken s u d := by
  have hne : ∀ {u d}, s.doing u = .call d → u ≠ t := by
    rintro u d hd rfl
    rw [ht] at hd
    cases hd
  have herror : ∀ {u d}, s.doing u = .call d → (s.k.setError t e).error u = s.k.error u :=
    fun hd => update_of_ne (hne hd) ..
  refine ⟨⟨h.toGood.setError t e, fun i u hu => ?_⟩, fun u d => ?_⟩
  · obtain ⟨-, c, hc, -⟩ := (h.wait u i).mp hu
    rw [herror hc]
    exact h.error i u hu
  · constructor
    · rintro ⟨hd, hst, herr⟩
      exact ⟨hd, hst, (herror hd).symm.trans herr⟩
    · rintro ⟨hd, hst, herr⟩
      exact ⟨hd, hst, (herror hd).trans herr⟩

theorem move (ht : s.k.sched.stat t = .ready) (d : Doing C) :
    Clean list { s with doing := update s.doing t d } :=
  ⟨h.toGood.move ht d, h.error⟩

end

end Clean

theorem woken_free : Woken { s with doing := update s.doing t .free } u c ↔ u ≠ t ∧ Woken s u c := by
  unfold Woken
  by_cases hut : u = t
  · subst hut
    simp
  · simp [hut]

/-! ## The number of woken calls -/

/-- A call that waits on the list `i` was woken without an error, and has not gone on. -/
def WokenOn (list : C → Option ℕ) (s : Callers C n) (i : ℕ) (t : Fin n) : Prop :=
  ∃ c, Woken s t c ∧ list c = some i

instance (list : C → Option ℕ) (s : Callers C n) (i : ℕ) (t : Fin n) : Decidable (WokenOn list s i t) :=
  match h : s.doing t with
  | .call c => decidable_of_iff (s.k.sched.stat t = .ready ∧ s.k.error t = RT_EOK ∧ list c = some i)
      ⟨fun ⟨hst, herr, hc⟩ => ⟨c, ⟨h, hst, herr⟩, hc⟩, fun ⟨_, ⟨hd, hst, herr⟩, hc⟩ =>
        ⟨hst, herr, Doing.call.inj (h.symm.trans hd) ▸ hc⟩⟩
  | .free | .sleep => isFalse fun ⟨_, ⟨hd, _⟩, _⟩ => by simp [h] at hd

/-- The number of calls that waited on the list `i`, were woken without an error, and have not gone
on. -/
def wokenCount (list : C → Option ℕ) (s : Callers C n) (i : ℕ) : ℕ := tally (WokenOn list s i)

theorem wokenCount_congr (h : ∀ u c, Woken s' u c ↔ Woken s u c) (i : ℕ) :
    wokenCount list s' i = wokenCount list s i := by
  apply tally_congr
  intro u
  unfold WokenOn
  simp only [h]

theorem wokenCount_drop (h : ∀ u c, Woken s' u c ↔ u ≠ t ∧ Woken s u c) (i : ℕ) :
    wokenCount list s i = wokenCount list s' i + if WokenOn list s i t then 1 else 0 := by
  have hne : ∀ u, u ≠ t → (WokenOn list s i u ↔ WokenOn list s' i u) := by
    intro u hut
    unfold WokenOn
    simp [h, hut]
  have hnot : ¬WokenOn list s' i t := by
    rintro ⟨c, hc, -⟩
    exact ((h t c).mp hc).1 rfl
  split_ifs with ht
  · exact tally_succ hnot ht hne
  · apply tally_congr
    intro u
    by_cases hut : u = t
    · subst hut
      simp [ht, hnot]
    · exact hne u hut

theorem Clean.wokenCount_wake (hs : Clean list s) (ht : t ∈ s.k.sched.waiters i)
    (h : ∀ u d, Woken s' u d ↔ Woken s u d ∨ u = t ∧ s.doing t = .call d) (j : ℕ) :
    wokenCount list s' j = wokenCount list s j + if j = i then 1 else 0 := by
  obtain ⟨hst, c, hd, hc⟩ := (hs.wait t i).mp ht
  have hnot : ¬WokenOn list s j t := by
    rintro ⟨c, hw, -⟩
    exact not_woken hst hw
  have hne : ∀ u, u ≠ t → (WokenOn list s' j u ↔ WokenOn list s j u) := by
    intro u hut
    unfold WokenOn
    simp [h, hut]
  have hself : WokenOn list s' j t ↔ j = i := by
    unfold WokenOn
    simp only [h, not_woken hst, false_or, true_and, hd, Doing.call.injEq]
    constructor
    · rintro ⟨d, rfl, hd⟩
      exact Option.some.inj (hd.symm.trans hc)
    · rintro rfl
      exact ⟨c, rfl, hc⟩
  split_ifs with hji
  · exact tally_succ hnot (hself.mpr hji) hne
  · apply tally_congr
    intro u
    by_cases hut : u = t
    · rw [hut, hself]
      simp [hji, hnot]
    · exact hne u hut

end RtThread
