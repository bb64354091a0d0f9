import RtThread.Kernel.Bitmap

/-!
# The lists of threads

`Queues s L` says that the links of the threads' nodes represent the lists `L`, that every thread on
a ready list is on that of its current priority and has the masks of it, and that the ready bitmap
shows the priorities whose list is not empty. It does not speak of the threads' states, which the
functions of `thread.c` change before or after they move a thread.
-/

namespace RtThread

open Lib Function List

variable {n : ℕ} {s s' : Sched n} {t : Fin n} {L L' : Head → List (Fin n)}

/-- The lists, the masks and the bitmap agree. -/
structure Queues (s : Sched n) (L : Head → List (Fin n)) : Prop where
  max : s.prioMax ≤ 256
  init : ∀ t, s.initPriority t < s.prioMax
  prio : ∀ t, s.currentPriority t < s.prioMax
  rings : Rings s.tlist L
  home : ∀ {t p}, t ∈ L (.ready p) → s.currentPriority t = p ∧ s.HasMasks t
  masks : ∀ t, s.HasMasks t ∨ s.NoMasks t
  shows : s.Shows {p | L (.ready p) ≠ []}

/-- Two states of the scheduler agree on what the threads are, apart from their states. -/
structure SameAttr (s s' : Sched n) : Prop where
  prioMax : s'.prioMax = s.prioMax
  initPriority : s'.initPriority = s.initPriority
  currentPriority : s'.currentPriority = s.currentPriority
  number : s'.number = s.number
  numberMask : s'.numberMask = s.numberMask
  highMask : s'.highMask = s.highMask

namespace SameAttr

theorem hasMasks (h : SameAttr s s') : s'.HasMasks t ↔ s.HasMasks t := by
  unfold Sched.HasMasks
  rw [h.prioMax, h.currentPriority, h.number, h.numberMask, h.highMask]

theorem noMasks (h : SameAttr s s') : s'.NoMasks t ↔ s.NoMasks t := by
  unfold Sched.NoMasks
  rw [h.number, h.numberMask, h.highMask]

end SameAttr

theorem setBits_attr (s : Sched n) (t : Fin n) : SameAttr s (s.setBits t) ∧
    (s.setBits t).tlist = s.tlist ∧ (s.setBits t).stat = s.stat := by
  unfold Sched.setBits
  split_ifs <;> exact ⟨⟨rfl, rfl, rfl, rfl, rfl, rfl⟩, rfl, rfl⟩

theorem clearBits_attr (s : Sched n) (t : Fin n) : SameAttr s (s.clearBits t) ∧
    (s.clearBits t).tlist = s.tlist ∧ (s.clearBits t).stat = s.stat := by
  unfold Sched.clearBits
  dsimp only
  split_ifs <;> exact ⟨⟨rfl, rfl, rfl, rfl, rfl, rfl⟩, rfl, rfl⟩

theorem rtScheduleInsertThread_attr (s : Sched n) (t : Fin n) :
    SameAttr s (rtScheduleInsertThread s t) ∧
      (rtScheduleInsertThread s t).stat = update s.stat t .ready := by
  obtain ⟨h1, -, h2⟩ := setBits_attr { s.setStat t .ready with
    tlist := rtListInsertBefore s.tlist (.head (.ready (s.currentPriority t))) (.item t) } t
  exact ⟨⟨h1.1, h1.2, h1.3, h1.4, h1.5, h1.6⟩, h2⟩

theorem rtScheduleRemoveThread_attr (s : Sched n) (t : Fin n) :
    SameAttr s (rtScheduleRemoveThread s t) ∧ (rtScheduleRemoveThread s t).stat = s.stat := by
  obtain ⟨h1, -, h2⟩ := clearBits_attr (s.unlink t) t
  unfold rtScheduleRemoveThread
  dsimp only
  split_ifs
  · exact ⟨⟨h1.1, h1.2, h1.3, h1.4, h1.5, h1.6⟩, h2⟩
  · exact ⟨⟨rfl, rfl, rfl, rfl, rfl, rfl⟩, rfl⟩

/-- What a change of priority leaves as it is, and the priority it sets. -/
structure SetPriority (s : Sched n) (t : Fin n) (p : ℕ) (s' : Sched n) : Prop where
  prioMax : s'.prioMax = s.prioMax
  initPriority : s'.initPriority = s.initPriority
  currentPriority : s'.currentPriority = update s.currentPriority t p
  tlist : s'.tlist = s.tlist
  stat : s'.stat = s.stat
  group : s'.group = s.group
  table : s'.table = s.table

theorem setPriority_attr (s : Sched n) (t : Fin n) (p : ℕ) :
    SetPriority s t p (s.setPriority t p) ∧ (s.setPriority t p).HasMasks t ∧
      ∀ u, u ≠ t → ((s.setPriority t p).HasMasks u ↔ s.HasMasks u) ∧
        ((s.setPriority t p).NoMasks u ↔ s.NoMasks u) := by
  unfold Sched.setPriority Sched.setMasks Sched.HasMasks Sched.NoMasks
  by_cases h32 : 32 < s.prioMax
  · simp only [if_pos h32, update_self, true_and]
    refine ⟨⟨rfl, rfl, rfl, rfl, rfl, rfl, rfl⟩, fun u hu => ?_⟩
    simp only [update_of_ne hu, and_self]
  · simp only [if_neg h32, update_self, true_and]
    refine ⟨⟨rfl, rfl, rfl, rfl, rfl, rfl, rfl⟩, fun u hu => ?_⟩
    simp only [update_of_ne hu, and_self]

namespace Queues

section

variable (hq : Queues s L)
include hq

theorem relink {tl : Links (Node Head (Fin n))} (hr : Rings tl L')
    (hsub : ∀ {p t}, t ∈ L' (.ready p) → t ∈ L (.ready p))
    (hne : ∀ p, L' (.ready p) ≠ [] ↔ L (.ready p) ≠ []) : Queues { s with tlist := tl } L' := by
  have hset : {p | L' (.ready p) ≠ []} = {p | L (.ready p) ≠ []} := Set.ext hne
  exact ⟨hq.max, hq.init, hq.prio, hr, fun ht => hq.home (hsub ht), hq.masks, hset ▸ hq.shows⟩

/-- `rt_schedule_insert_thread` appends the thread to its ready list. -/
theorem insertThread (ht : ∀ h, t ∉ L h) (hm : s.HasMasks t) : Queues (rtScheduleInsertThread s t)
      (update L (.ready (s.currentPriority t)) (L (.ready (s.currentPriority t)) ++ [t])) := by
  obtain ⟨hattr, -⟩ := rtScheduleInsertThread_attr s t
  have hlinks : (rtScheduleInsertThread s t).tlist =
      rtListInsertBefore s.tlist (.head (.ready (s.currentPriority t))) (.item t) := (setBits_attr _ t).2.1
  refine ⟨hattr.prioMax ▸ hq.max, ?_, ?_, ?_, ?_, ?_, ?_⟩
  · rw [hattr.prioMax, hattr.initPriority]
    exact hq.init
  · rw [hattr.prioMax, hattr.currentPriority]
    exact hq.prio
  · rw [hlinks]
    exact rings_rtListInsertBefore_head hq.rings ht _
  · intro u p hu
    rw [hattr.currentPriority, hattr.hasMasks]
    by_cases hp : p = s.currentPriority t
    · rw [hp, update_self, mem_append, mem_singleton] at hu
      rcases hu with hu | rfl
      · exact hp ▸ hq.home hu
      · exact ⟨hp.symm, hm⟩
    · rw [update_of_ne fun h => hp (by injection h)] at hu
      exact hq.home hu
  · intro u
    rw [hattr.hasMasks, hattr.noMasks]
    exact hq.masks u
  · have hset : {p | update L (.ready (s.currentPriority t))
        (L (.ready (s.currentPriority t)) ++ [t]) (.ready p) ≠ []} =
        insert (s.currentPriority t) {p | L (.ready p) ≠ []} := by
      ext p
      rw [Set.mem_insert_iff, Set.mem_ofPred_eq, Set.mem_ofPred_eq]
      by_cases hp : p = s.currentPriority t
      · rw [hp, update_self]
        simp
      · rw [update_of_ne fun h => hp (by injection h)]
        simp [hp]
    rw [hset]
    have hshows : Sched.Shows { s.setStat t .ready with
        tlist := rtListInsertBefore s.tlist (.head (.ready (s.currentPriority t))) (.item t) }
        {p | L (.ready p) ≠ []} := hq.shows
    exact setBits_shows hshows hq.max (hq.prio t) hm

/-- `rt_schedule_remove_thread` takes the thread off whatever list it is on. -/
theorem removeThread (t : Fin n) : Queues (rtScheduleRemoveThread s t) fun h => (L h).erase t := by
  obtain ⟨hattr, -⟩ := rtScheduleRemoveThread_attr s t
  have hrings : Rings (s.unlink t).tlist fun h => (L h).erase t := rings_rtListRemove hq.rings t
  have hlinks : (rtScheduleRemoveThread s t).tlist = (s.unlink t).tlist := by
    unfold rtScheduleRemoveThread
    dsimp only
    split_ifs
    · exact (clearBits_attr _ t).2.1
    · rfl
  -- The ready lists of other priorities do not hold the thread.
  have hother : ∀ p, p ≠ s.currentPriority t → (L (.ready p)).erase t = L (.ready p) := by
    intro p hp
    apply erase_of_not_mem
    intro ht
    exact hp (hq.home ht).1.symm
  refine ⟨hattr.prioMax ▸ hq.max, ?_, ?_, hlinks ▸ hrings, ?_, ?_, ?_⟩
  · rw [hattr.prioMax, hattr.initPriority]
    exact hq.init
  · rw [hattr.prioMax, hattr.currentPriority]
    exact hq.prio
  · intro u p hu
    rw [hattr.currentPriority, hattr.hasMasks]
    exact hq.home (mem_of_mem_erase hu)
  · intro u
    rw [hattr.hasMasks, hattr.noMasks]
    exact hq.masks u
  · have hshows : (s.unlink t).Shows {p | L (.ready p) ≠ []} := hq.shows
    have hempty := rtListIsempty_head (h := Head.ready (s.currentPriority t)) hrings
    unfold rtScheduleRemoveThread
    dsimp only
    split_ifs with hemp
    · -- The list of its priority is empty now.
      rw [show (s.unlink t).currentPriority t = s.currentPriority t from rfl, hempty] at hemp
      have hset : {p | (L (.ready p)).erase t ≠ []} = {p | L (.ready p) ≠ []} \ {s.currentPriority t} := by
        ext p
        rw [Set.mem_sdiff, Set.mem_ofPred_eq, Set.mem_ofPred_eq, Set.mem_singleton_iff]
        by_cases hp : p = s.currentPriority t
        · simp [hp, hemp]
        · simp [hp, hother p hp]
      rw [hset]
      rcases hq.masks t with hm | hm
      · exact clearBits_shows hshows hq.max (hq.prio t) hm
      · rw [clearBits_of_noMasks (show (s.unlink t).NoMasks t from hm)]
        -- No bit was set: with a thread on its list, the list would hold one with masks.
        have hnil : L (.ready (s.currentPriority t)) = [] := by
          by_contra hne
          obtain ⟨u, hu⟩ := exists_mem_of_ne_nil _ hne
          by_cases hut : u = t
          · exact hasMasks_not_noMasks hq.max (hq.prio t) (hq.home (hut ▸ hu)).2 hm
          · exact ne_nil_of_mem ((mem_erase_of_ne hut).mpr hu) hemp
        rwa [Set.sdiff_singleton_eq_self (by simp [hnil])]
    · rw [show (s.unlink t).currentPriority t = s.currentPriority t from rfl, hempty] at hemp
      have hset : {p | (L (.ready p)).erase t ≠ []} = {p | L (.ready p) ≠ []} := by
        ext p
        rw [Set.mem_ofPred_eq, Set.mem_ofPred_eq]
        by_cases hp : p = s.currentPriority t
        · rw [hp]
          refine ⟨fun _ hnil => hemp (by rw [hnil]; rfl), fun _ => hemp⟩
        · rw [hother p hp]
      rw [hset]
      exact hshows

theorem setStat (t : Fin n) (x : Stat) : Queues (s.setStat t x) L :=
  ⟨hq.max, hq.init, hq.prio, hq.rings, hq.home, hq.masks, hq.shows⟩

theorem unlink (ht : ∀ p, t ∉ L (.ready p)) : Queues (s.unlink t) fun h => (L h).erase t := by
  refine hq.relink (rings_rtListRemove hq.rings t) (fun hu => mem_of_mem_erase hu) fun p => ?_
  rw [erase_of_not_mem (ht p)]

theorem place {tl : Links (Node Head (Fin n))} {h : Head} {l : List (Fin n)}
    (hh : ∀ p, h ≠ .ready p) (hr : Rings tl (update L h l)) :
    Queues { s with tlist := tl } (update L h l) := by
  have hkeep : ∀ p, update L h l (.ready p) = L (.ready p) := fun p =>
    update_of_ne (hh p).symm ..
  refine hq.relink hr (fun {p u} hu => ?_) fun p => ?_
  · rwa [hkeep] at hu
  · rw [hkeep]

/-- A thread on no ready list may get any priority. -/
theorem setPriority (ht : ∀ p, t ∉ L (.ready p)) {p : ℕ} (hp : p < s.prioMax) :
    Queues (s.setPriority t p) L := by
  obtain ⟨hfix, hmask, hother⟩ := setPriority_attr s t p
  have hne : ∀ {u q}, u ∈ L (.ready q) → u ≠ t := by
    rintro u q hu rfl
    exact ht q hu
  refine ⟨?_, ?_, ?_, ?_, ?_, ?_, ?_⟩
  · rw [hfix.prioMax]
    exact hq.max
  · rw [hfix.prioMax, hfix.initPriority]
    exact hq.init
  · rw [hfix.prioMax, hfix.currentPriority]
    intro u
    rw [update_apply]
    split_ifs
    · exact hp
    · exact hq.prio u
  · rw [hfix.tlist]
    exact hq.rings
  · intro u q hu
    rw [hfix.currentPriority, update_of_ne (hne hu), (hother u (hne hu)).1]
    exact hq.home hu
  · intro u
    by_cases hu : u = t
    · exact Or.inl (hu ▸ hmask)
    · rw [(hother u hu).1, (hother u hu).2]
      exact hq.masks u
  · unfold Sched.Shows
    rw [hfix.prioMax, hfix.group, hfix.table]
    exact hq.shows

end

end Queues

/-! ## The choice of the next thread -/

variable {k k' : Kernel n}

/-- `rt_schedule` returns with the same current thread or with a thread from a ready list. -/
theorem rtSchedule_cases (hq : Queues k.sched L) (h : rtSchedule k = .ok k') :
    k' = k ∨ ∃ t p, t ∈ L (.ready p) ∧ k' = { k with current := some t, currentPriority := p } := by
  unfold rtSchedule at h
  split_ifs at h with hlock
  · cases hhigh : k.sched.highestReadyPriority with
    | error e =>
      rw [hhigh] at h
      cases h
    | ok p =>
      rw [hhigh] at h
      change (if p < k.sched.prioMax then _ else _) = _ at h
      split_ifs at h with hp
      cases hnext : k.sched.tlist.next (.head (.ready p)) with
      | head h' =>
        rw [hnext] at h
        cases h
      | item t =>
        rw [hnext] at h
        change (if some t ≠ k.current then _ else _) = _ at h
        split_ifs at h with hcur
        · right
          refine ⟨t, p, ?_, (Except.ok.inj h).symm⟩
          have hmem := hq.rings.next_mem (h := Head.ready p) (b := .head (.ready p)) (by simp)
          rw [hnext] at hmem
          exact Node.item_mem_all.mp hmem
        · exact Or.inl (Except.ok.inj h).symm
  · exact Or.inl (Except.ok.inj h).symm

/-- With a ready thread and the scheduler unlocked, `rt_schedule` makes the first thread of the
ready list of the least priority the current one. -/
theorem rtSchedule_spec (hq : Queues k.sched L) (hlock : k.lockNest = 0) (hne : ∃ p, L (.ready p) ≠ []) :
    ∃ p t l k', IsLeast {p | L (.ready p) ≠ []} p ∧ L (.ready p) = t :: l ∧ rtSchedule k = .ok k' ∧
      k'.current = some t := by
  obtain ⟨p, hhigh, hleast⟩ := highestReadyPriority_spec hq.shows hne
  obtain ⟨t, l, hL⟩ := exists_cons_of_ne_nil hleast.1
  have hlt : p < k.sched.prioMax := by
    rw [← (hq.home (hL ▸ mem_cons_self : t ∈ L (.ready p))).1]
    exact hq.prio t
  have hnext : k.sched.tlist.next (.head (.ready p)) = .item t := by
    rw [hq.rings.next_head, hL, Node.first_cons]
  unfold rtSchedule
  rw [if_pos hlock, hhigh]
  change ∃ p' t' l' k', _ ∧ _ ∧ (if p < k.sched.prioMax then _ else _) = _ ∧ _
  rw [if_pos hlt, hnext]
  by_cases hcur : some t ≠ k.current
  · exact ⟨p, t, l, _, hleast, hL, if_pos hcur, rfl⟩
  · exact ⟨p, t, l, k, hleast, hL, if_neg hcur, (not_not.mp hcur).symm⟩

end RtThread
