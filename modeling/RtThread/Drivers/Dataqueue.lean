import RtThread.Kernel.Model
import RtThread.Lib.Queue
import RtThread.Lib.Run

/-!
# The data queue

`put_index` and `get_index` of a data queue count the items put and taken modulo `2^16`, and an item
is kept in the slot of its count modulo the size. `rt_data_queue_push` takes the queue for full if
the difference of the two counters is the size, but the difference is computed in `int`: once
`put_index` has wrapped and `get_index` has not, it is negative, and a full queue is not recognised.
`SlotFree` says when this does no harm.
-/

namespace RtThread

open Lib Function List Nat

/-- An item: a pointer and a size. -/
structure DataItem where
  dataPtr : ℕ
  dataSize : ℕ
  deriving DecidableEq

/-- `struct rt_data_queue` without the lists of suspended threads. -/
structure DataQueue where
  size : ℕ
  lwm : ℕ
  getIndex : ℕ
  putIndex : ℕ
  queue : ℕ → DataItem

/-- Where the producer is in `rt_data_queue_push`. -/
inductive Pushing
  | idle
  /-- Suspended on the push list. -/
  | waiting (item : DataItem) (timeout : ℤ)
  /-- Resumed, and about to look at the queue again. -/
  | resumed (item : DataItem) (timeout : ℤ)

/-- Where the consumer is in `rt_data_queue_pop`. -/
inductive Popping
  | idle
  | waiting (timeout : ℤ)
  | resumed (timeout : ℤ)

/-- `rt_thread_resume` of the producer if it is on the push list. -/
def Pushing.resume : Pushing → Pushing
  | .waiting item timeout => .resumed item timeout
  | p => p

/-- `rt_thread_resume` of the consumer if it is on the pop list. -/
def Popping.resume : Popping → Popping
  | .waiting timeout => .resumed timeout
  | p => p

/-- The queue with its producer and its consumer, the items of the pushes that have succeeded, and
the items that pops have returned. -/
structure DqSys where
  dq : DataQueue
  push : Pushing
  pop : Popping
  accepted : List DataItem
  popped : List DataItem

variable (s : DqSys)

namespace DqSys

/-- A pass through the loop of `rt_data_queue_push` with interrupts off, and what the call returns
if it ends. -/
def pushPass (item : DataItem) (timeout : ℤ) : DqSys × Option ℤ :=
  if (s.dq.putIndex : ℤ) - s.dq.getIndex = s.dq.size then
    if timeout = 0 then ({ s with push := .idle }, some (-RT_ETIMEOUT))
    else ({ s with push := .waiting item timeout }, none)
  else
    ({ s with
      dq := { s.dq with
        queue := update s.dq.queue (s.dq.putIndex % s.dq.size) item
        putIndex := (s.dq.putIndex + 1) % 2^16 }
      push := .idle
      pop := s.pop.resume
      accepted := s.accepted ++ [item] }, some RT_EOK)

/-- A pass through the loop of `rt_data_queue_pop` with interrupts off, and what the call returns if
it ends. -/
def popPass (timeout : ℤ) : DqSys × Option ℤ :=
  if s.dq.getIndex = s.dq.putIndex then
    if timeout = 0 then ({ s with pop := .idle }, some (-RT_ETIMEOUT))
    else ({ s with pop := .waiting timeout }, none)
  else
    let getIndex := (s.dq.getIndex + 1) % 2^16
    ({ s with
      dq := { s.dq with getIndex := getIndex }
      push := if (s.dq.putIndex : ℤ) - getIndex ≤ s.dq.lwm then s.push.resume else s.push
      pop := .idle
      popped := s.popped ++ [s.dq.queue (s.dq.getIndex % s.dq.size)] }, some RT_EOK)

end DqSys

/-- The steps of the producer and the consumer. -/
inductive DqAct
  | push (item : DataItem) (timeout : ℤ)
  /-- The producer that has been resumed runs. -/
  | pushAgain
  /-- The timer of the producer expires. -/
  | pushExpire
  | pop (timeout : ℤ)
  | popAgain
  | popExpire

/-- The state after the step, if it can be taken. -/
def DqAct.exec : DqAct → Option DqSys
  | .push item timeout =>
    match s.push with
    | .idle => some (s.pushPass item timeout).1
    | _ => none
  | .pushAgain =>
    match s.push with
    | .resumed item timeout => some (s.pushPass item timeout).1
    | _ => none
  | .pushExpire =>
    match s.push with
    | .waiting _ timeout => if 0 < timeout then some { s with push := .idle } else none
    | _ => none
  | .pop timeout =>
    match s.pop with
    | .idle => some (s.popPass timeout).1
    | _ => none
  | .popAgain =>
    match s.pop with
    | .resumed timeout => some (s.popPass timeout).1
    | _ => none
  | .popExpire =>
    match s.pop with
    | .waiting timeout => if 0 < timeout then some { s with pop := .idle } else none
    | _ => none

/-- The slot of the item number `k`. -/
def DataQueue.slot (dq : DataQueue) (k : ℕ) : ℕ := k % 2^16 % dq.size

/-- The number of stored items, by the counters modulo `2^16`. -/
def DataQueue.stored (dq : DataQueue) : ℕ := (dq.putIndex + 2^16 - dq.getIndex) % 2^16

/-- `put_index` has not wrapped past `get_index`, or the slot of the next item is not that of a
stored one. -/
def DataQueue.SlotFree (dq : DataQueue) : Prop :=
  dq.getIndex ≤ dq.putIndex ∨ ∀ j < dq.stored, dq.slot (dq.getIndex + j) ≠ dq.slot dq.putIndex

instance (dq : DataQueue) : Decidable dq.SlotFree := inferInstanceAs (Decidable (_ ∨ _))

/-- A push finds the counters in order or its slot free. -/
def DqAct.clear : DqAct → Prop
  | .push _ _ | .pushAgain => s.dq.SlotFree
  | _ => True

instance (s : DqSys) (a : DqAct) : Decidable (a.clear s) := by
  cases a <;> unfold DqAct.clear <;> infer_instance

/-- The runs of a queue that `rt_data_queue_init` has initialised. -/
def dqSystem (size : ℕ) : System DqSys DqAct where
  init s := ∃ lwm queue, s = ⟨⟨size, lwm, 0, 0, queue⟩, .idle, .idle, [], []⟩
  step s a s' := a.exec s = some s'

namespace DqSys

theorem ite_fails_iff {c : Prop} [Decidable c] {s s' : DqSys} :
    (if c then (s, some (-RT_ETIMEOUT)) else (s', some RT_EOK)).2 = some (-RT_ETIMEOUT) ↔ c := by
  have hne : (some RT_EOK : Option ℤ) ≠ some (-RT_ETIMEOUT) := by decide
  split_ifs with hc
  · exact ⟨fun _ => hc, fun _ => rfl⟩
  · exact ⟨fun hret => absurd hret hne, fun h => absurd h hc⟩

variable (s : DqSys)

theorem pushPass_fails_iff (item : DataItem) :
    (s.pushPass item 0).2 = some (-RT_ETIMEOUT) ↔ (s.dq.putIndex : ℤ) - s.dq.getIndex = s.dq.size := by
  unfold pushPass
  rw [if_pos rfl]
  exact ite_fails_iff

theorem popPass_fails_iff : (s.popPass 0).2 = some (-RT_ETIMEOUT) ↔ s.dq.getIndex = s.dq.putIndex := by
  unfold popPass
  rw [if_pos rfl]
  exact ite_fails_iff

end DqSys

/-- A step is a pass of a push, a pass of a pop, or leaves the queue. -/
theorem DqAct.exec_cases {s s' : DqSys} {a : DqAct} (hs : a.exec s = some s') :
    (∃ item timeout, s' = (s.pushPass item timeout).1 ∧ (a.clear s → s.dq.SlotFree)) ∨
      (∃ timeout, s' = (s.popPass timeout).1) ∨
      (s'.dq = s.dq ∧ s'.accepted = s.accepted ∧ s'.popped = s.popped) := by
  unfold DqAct.exec at hs
  cases a with
  | push item timeout =>
    cases hpush : s.push <;> rw [hpush] at hs <;> cases hs
    exact .inl ⟨item, timeout, rfl, id⟩
  | pushAgain =>
    cases hpush : s.push <;> rw [hpush] at hs <;> cases hs
    exact .inl ⟨_, _, rfl, id⟩
  | pushExpire =>
    cases hpush : s.push <;> rw [hpush] at hs <;> dsimp only at hs
    · cases hs
    · split_ifs at hs
      cases hs
      exact .inr (.inr ⟨rfl, rfl, rfl⟩)
    · cases hs
  | pop timeout =>
    cases hpop : s.pop <;> rw [hpop] at hs <;> cases hs
    exact .inr (.inl ⟨timeout, rfl⟩)
  | popAgain =>
    cases hpop : s.pop <;> rw [hpop] at hs <;> cases hs
    exact .inr (.inl ⟨_, rfl⟩)
  | popExpire =>
    cases hpop : s.pop <;> rw [hpop] at hs <;> dsimp only at hs
    · cases hs
    · split_ifs at hs
      cases hs
      exact .inr (.inr ⟨rfl, rfl, rfl⟩)
    · cases hs

/-! ## The counters and the items -/

/-- The counters count the items, which are in their slots; no two stored items share one. -/
structure DqInv (s : DqSys) (stored : List DataItem) : Prop where
  pos : 0 < s.dq.size
  small : s.dq.size < 2^16
  put : s.dq.putIndex = s.accepted.length % 2^16
  get : s.dq.getIndex = s.popped.length % 2^16
  items : s.accepted = s.popped ++ stored
  room : stored.length ≤ s.dq.size
  slots : stored = (range stored.length).map fun j => s.dq.queue (s.dq.slot (s.popped.length + j))
  apart : ∀ i j, i < j → j < stored.length →
    s.dq.slot (s.popped.length + i) ≠ s.dq.slot (s.popped.length + j)

namespace DqInv

variable {s : DqSys} {stored : List DataItem}

theorem parties {s' : DqSys} (h : DqInv s stored) (hdq : s'.dq = s.dq) (haccepted : s'.accepted = s.accepted)
    (hpopped : s'.popped = s.popped) : DqInv s' stored := by
  obtain ⟨dq, push, pop, accepted, popped⟩ := s'
  cases hdq
  cases haccepted
  cases hpopped
  exact ⟨h.pos, h.small, h.put, h.get, h.items, h.room, h.slots, h.apart⟩

section

variable (h : DqInv s stored)
include h

theorem put_eq : s.dq.putIndex = (s.popped.length + stored.length) % 2^16 := by
  rw [h.put, h.items, length_append]

theorem get_eq_put_iff : s.dq.getIndex = s.dq.putIndex ↔ stored = [] := by
  have hroom := h.room
  have hsmall := h.small
  rw [h.get, h.put_eq, ← length_eq_zero_iff]
  omega

theorem difference (hle : s.dq.getIndex ≤ s.dq.putIndex) :
    s.dq.putIndex = s.dq.getIndex + stored.length := by
  have hroom := h.room
  have hsmall := h.small
  rw [h.get, h.put_eq] at hle ⊢
  omega

theorem stored_eq : s.dq.stored = stored.length := by
  have hroom := h.room
  have hsmall := h.small
  unfold DataQueue.stored
  rw [h.get, h.put_eq]
  omega

theorem slot_get (j : ℕ) : s.dq.slot (s.dq.getIndex + j) = s.dq.slot (s.popped.length + j) := by
  unfold DataQueue.slot
  rw [h.get, mod_add_mod]

theorem slot_put : s.dq.slot s.dq.putIndex = s.dq.slot (s.popped.length + stored.length) := by
  unfold DataQueue.slot
  rw [h.put_eq, mod_mod]

theorem length_lt
    (hnext : ∀ j < stored.length, s.dq.slot (s.popped.length + j) ≠ s.dq.slot (s.popped.length + stored.length)) :
    stored.length < s.dq.size := by
  have hnodup : ((range (stored.length + 1)).map fun j => s.dq.slot (s.popped.length + j)).Nodup := by
    refine List.Nodup.map_on (fun i hi j hj heq => ?_) nodup_range
    rw [mem_range] at hi hj
    -- Of two different places one comes first.
    rcases lt_trichotomy i j with hij | hij | hij
    · by_cases hlast : j = stored.length
      · exact absurd (hlast ▸ heq) (hnext i (by omega))
      · exact absurd heq (h.apart i j hij (by omega))
    · exact hij
    · by_cases hlast : i = stored.length
      · exact absurd (hlast ▸ heq.symm) (hnext j (by omega))
      · exact absurd heq.symm (h.apart j i hij (by omega))
  have hsub : ∀ x ∈ (range (stored.length + 1)).map fun j => s.dq.slot (s.popped.length + j),
      x ∈ range s.dq.size := by
    intro x hx
    obtain ⟨j, -, rfl⟩ := mem_map.mp hx
    exact mem_range.mpr (mod_lt _ h.pos)
  have hle := (hnodup.subperm hsub).length_le
  rw [length_map, length_range, length_range] at hle
  omega

theorem test (hfree : s.dq.SlotFree) :
    ((s.dq.putIndex : ℤ) - s.dq.getIndex = s.dq.size ↔ stored.length = s.dq.size) ∧
      (stored.length ≠ s.dq.size → ∀ j < stored.length,
        s.dq.slot (s.popped.length + j) ≠ s.dq.slot (s.popped.length + stored.length)) := by
  have hroom := h.room
  by_cases hle : s.dq.getIndex ≤ s.dq.putIndex
  · have hdiff := h.difference hle
    refine ⟨by omega, fun hnot j hj => ?_⟩
    -- The counters of the stored items run from `get_index` on without a wrap.
    have hput : s.dq.putIndex < 2^16 := by
      rw [h.put_eq]
      exact mod_lt _ (by norm_num)
    rw [← h.slot_get, ← h.slot_get, ← hdiff]
    unfold DataQueue.slot
    rw [mod_eq_of_lt (by omega : s.dq.getIndex + j < 2^16), mod_eq_of_lt hput, hdiff]
    exact slot_ne hj (by omega)
  · have hnext : ∀ j < stored.length,
        s.dq.slot (s.popped.length + j) ≠ s.dq.slot (s.popped.length + stored.length) := by
      intro j hj
      have hj' := (hfree.resolve_left hle) j (h.stored_eq ▸ hj)
      rwa [h.slot_get, h.slot_put] at hj'
    have hlt := h.length_lt hnext
    exact ⟨by omega, fun _ => hnext⟩

/-- A push into a free slot keeps the queue. -/
theorem pushPass (hfree : s.dq.SlotFree) (item : DataItem) (timeout : ℤ) :
    ∃ stored', DqInv (s.pushPass item timeout).1 stored' := by
  obtain ⟨hfull, hnext⟩ := h.test hfree
  have hroom := h.room
  unfold DqSys.pushPass
  split_ifs with htest htimeout
  · exact ⟨stored, h.parties rfl rfl rfl⟩
  · exact ⟨stored, h.parties rfl rfl rfl⟩
  · have hnot : stored.length ≠ s.dq.size := fun heq => htest (hfull.mpr heq)
    have hnext := hnext hnot
    have hslot : s.dq.putIndex % s.dq.size = s.dq.slot (s.popped.length + stored.length) := by
      rw [← h.slot_put]
      unfold DataQueue.slot
      rw [h.put_eq, mod_mod]
    refine ⟨stored ++ [item], h.pos, h.small, ?_, h.get, ?_, ?_, ?_, ?_⟩
    · rw [h.put, mod_add_mod, length_append, length_singleton]
    · rw [h.items, append_assoc]
    · change (stored ++ [item]).length ≤ s.dq.size
      rw [length_append, length_singleton]
      omega
    · -- The stored items are where they were, and the new one is behind them.
      change stored ++ [item] = (range (stored ++ [item]).length).map fun j =>
        update s.dq.queue (s.dq.putIndex % s.dq.size) item (s.dq.slot (s.popped.length + j))
      rw [length_append, length_singleton, range_succ, map_append, map_singleton, hslot,
        update_self]
      congr 1
      conv_lhs => rw [h.slots]
      refine map_congr_left fun j hj => ?_
      rw [update_of_ne (hnext j (mem_range.mp hj))]
    · intro i j hij hj
      rw [length_append, length_singleton] at hj
      by_cases hlast : j = stored.length
      · exact hlast ▸ hnext i (by omega)
      · exact h.apart i j hij (by omega)

theorem popPass (timeout : ℤ) : ∃ stored', DqInv (s.popPass timeout).1 stored' := by
  unfold DqSys.popPass
  split_ifs with htest htimeout
  · exact ⟨stored, h.parties rfl rfl rfl⟩
  · exact ⟨stored, h.parties rfl rfl rfl⟩
  · obtain ⟨item, rest, rfl⟩ : ∃ item rest, stored = item :: rest :=
      exists_cons_of_ne_nil fun hnil => htest (h.get_eq_put_iff.mpr hnil)
    -- The first stored item is in the slot of the get index.
    have hslots := h.slots
    rw [length_cons, range_succ_eq_map, map_cons, map_map, cons.injEq] at hslots
    obtain ⟨hitem, hrest⟩ := hslots
    have hget : s.dq.queue (s.dq.getIndex % s.dq.size) = item := by
      rw [hitem, ← h.slot_get]
      unfold DataQueue.slot
      rw [add_zero, h.get, mod_mod]
    have hshift : ∀ j, s.popped.length + 1 + j = s.popped.length + (j + 1) := fun j => by omega
    refine ⟨rest, h.pos, h.small, h.put, ?_, ?_, le_trans (le_succ _) h.room, ?_, ?_⟩
    · rw [h.get, mod_add_mod, length_append, length_singleton]
    · rw [h.items, hget, append_assoc]
      rfl
    · conv_lhs => rw [hrest]
      refine map_congr_left fun j _ => ?_
      rw [length_append, length_singleton, hshift]
      rfl
    · intro i j hij hj
      rw [length_append, length_singleton, hshift, hshift]
      exact h.apart (i + 1) (j + 1) (by omega) (by simpa using hj)

end

theorem exec {s' : DqSys} {a : DqAct} (h : DqInv s stored) (hclear : a.clear s) (hs : a.exec s = some s') :
    ∃ stored', DqInv s' stored' := by
  rcases DqAct.exec_cases hs with ⟨item, timeout, rfl, hfree⟩ | ⟨timeout, rfl⟩ | ⟨hdq, haccepted, hpopped⟩
  · exact h.pushPass (hfree hclear) item timeout
  · exact h.popPass timeout
  · exact ⟨stored, h.parties hdq haccepted hpopped⟩

end DqInv

theorem DqAct.size_exec {s s' : DqSys} {a : DqAct} (hs : a.exec s = some s') : s'.dq.size = s.dq.size := by
  rcases DqAct.exec_cases hs with ⟨item, timeout, rfl, -⟩ | ⟨timeout, rfl⟩ | ⟨hdq, -⟩
  · unfold DqSys.pushPass
    split_ifs <;> rfl
  · unfold DqSys.popPass
    split_ifs <;> rfl
  · rw [hdq]

/-- In every run whose pushes find the counters in order or their slot free: the items taken are the
items put, in their order and unchanged; a push with timeout zero fails exactly if the queue is
full, and a pop with timeout zero exactly if it is empty. -/
theorem data_queue_fifo {size : ℕ} {s : DqSys} (hpos : 0 < size) (hsmall : size < 2^16)
    (h : Reachable (dqSystem size) DqAct.clear s) :
    ∃ stored, s.accepted = s.popped ++ stored ∧ stored.length ≤ size ∧
      (∀ item, (DqAct.push item 0).clear s →
        ((s.pushPass item 0).2 = some (-RT_ETIMEOUT) ↔ stored.length = size)) ∧
      ((s.popPass 0).2 = some (-RT_ETIMEOUT) ↔ stored = []) := by
  have hinv : s.dq.size = size ∧ ∃ stored, DqInv s stored := by
    refine h.invariant ?_ ?_
    · rintro s ⟨lwm, queue, rfl⟩
      exact ⟨rfl, [], hpos, hsmall, rfl, rfl, rfl, zero_le _, rfl, fun _ _ _ hj => absurd hj (not_lt_zero _)⟩
    · rintro s a s' ⟨hsize, stored, hstored⟩ hclear hs
      exact ⟨(DqAct.size_exec hs).trans hsize, hstored.exec hclear hs⟩
  obtain ⟨hsize, stored, hstored⟩ := hinv
  refine ⟨stored, hstored.items, hsize ▸ hstored.room, fun item hfree => ?_, ?_⟩
  · rw [s.pushPass_fails_iff, (hstored.test hfree).1, hsize]
  · rw [s.popPass_fails_iff, hstored.get_eq_put_iff]

/-- A run in which the producer waits for room, and the consumer makes it. -/
theorem data_queue_fifo_run : ∃ s : DqSys, Reachable (dqSystem 1) DqAct.clear s ∧ s.popped = [⟨1, 2⟩] ∧
    ∃ stored, s.accepted = s.popped ++ stored ∧ stored.length ≤ 1 := by
  have hinit : (dqSystem 1).init ⟨⟨1, 0, 0, 0, fun _ => ⟨0, 0⟩⟩, .idle, .idle, [], []⟩ := ⟨_, _, rfl⟩
  refine exists_reachable_and ?_ fun s hs _ => ?_
  · refine exists_reachable_of_exec hinit
      [.push ⟨1, 2⟩ 0, .push ⟨3, 4⟩ (-1), .pop 0, .pushAgain] ?_
    decide
  · obtain ⟨stored, hitems, hroom, -⟩ := data_queue_fifo (by decide) (by decide) hs
    exact ⟨stored, hitems, hroom⟩

/-- A queue for one item with both parties idle, into which `put` items have been put, `got` of them
taken, and in which the items `stored` are left. -/
structure OneItem (s : DqSys) (put got : ℕ) (stored : List DataItem) : Prop where
  reachable : Reachable (dqSystem 1) always s
  size : s.dq.size = 1
  push : s.push = .idle
  pop : s.pop = .idle
  putIndex : s.dq.putIndex = put % 2^16
  getIndex : s.dq.getIndex = got % 2^16
  items : s.accepted = s.popped ++ stored
  slot : ∀ item ∈ stored, s.dq.queue 0 = item

namespace OneItem

variable {s : DqSys} {k : ℕ} {item : DataItem}

/-- The test of `rt_data_queue_push` finds the queue full if the counters differ by one without a
wrap. -/
theorem full_iff {put got : ℕ} {stored : List DataItem} (h : OneItem s put got stored) :
    (s.dq.putIndex : ℤ) - s.dq.getIndex = s.dq.size ↔ put % 2^16 = got % 2^16 + 1 := by
  rw [h.putIndex, h.getIndex, h.size]
  omega

theorem put (h : OneItem s k k []) (item : DataItem) : OneItem (s.pushPass item 0).1 (k + 1) k [item] := by
  have hstep : Reachable (dqSystem 1) always (s.pushPass item 0).1 := by
    refine h.reachable.step (a := .push item 0) trivial ?_
    change (match s.push with | .idle => _ | _ => none) = _
    rw [h.push]
  have hroom : ¬(s.dq.putIndex : ℤ) - s.dq.getIndex = s.dq.size := by
    rw [h.full_iff]
    omega
  unfold DqSys.pushPass at hstep ⊢
  rw [if_neg hroom] at hstep ⊢
  refine ⟨hstep, h.size, rfl, ?_, ?_, h.getIndex, ?_, ?_⟩
  · rw [h.pop]
    rfl
  · rw [h.putIndex, mod_add_mod]
  · rw [h.items, append_nil]
  · intro x hx
    change update s.dq.queue (s.dq.putIndex % s.dq.size) item 0 = x
    rw [h.size, mod_one, update_self, mem_singleton.mp hx]

theorem take (h : OneItem s (k + 1) k [item]) : OneItem (s.popPass 0).1 (k + 1) (k + 1) [] := by
  have hstep : Reachable (dqSystem 1) always (s.popPass 0).1 := by
    refine h.reachable.step (a := .pop 0) trivial ?_
    change (match s.pop with | .idle => _ | _ => none) = _
    rw [h.pop]
  have hsome : ¬s.dq.getIndex = s.dq.putIndex := by
    rw [h.putIndex, h.getIndex]
    omega
  unfold DqSys.popPass at hstep ⊢
  rw [if_neg hsome] at hstep ⊢
  refine ⟨hstep, h.size, ?_, rfl, h.putIndex, ?_, ?_, fun x hx => absurd hx not_mem_nil⟩
  · -- The producer is idle whether or not the low water mark is reached.
    dsimp only
    rw [h.push]
    split_ifs <;> rfl
  · rw [h.getIndex, mod_add_mod]
  · rw [h.size, mod_one, h.slot item (mem_singleton_self item), append_nil, h.items]

theorem exists_drained (k : ℕ) : ∃ s, OneItem s k k [] := by
  induction k with
  | zero => exact ⟨_, .init ⟨0, fun _ => ⟨0, 0⟩, rfl⟩, rfl, rfl, rfl, rfl, rfl, rfl,
      fun x hx => absurd hx not_mem_nil⟩
  | succ k ih =>
    obtain ⟨s, hs⟩ := ih
    exact ⟨_, (hs.put ⟨0, 0⟩).take⟩

end OneItem

/-- After 65535 items have gone through a queue for one item, a push is accepted while an item is
stored. -/
theorem full_queue_accepts : ∃ (s : DqSys) (item : DataItem), Reachable (dqSystem 1) always s ∧
    s.accepted = s.popped ++ [item] ∧ ∀ item', (s.pushPass item' 0).2 = some RT_EOK := by
  obtain ⟨s, hs⟩ := OneItem.exists_drained 65535
  have hput := hs.put ⟨0, 0⟩
  refine ⟨_, ⟨0, 0⟩, hput.reachable, hput.items, fun item' => ?_⟩
  -- The counters are 0 and 65535.
  have htest := hput.full_iff.not.mpr (by decide)
  generalize (s.pushPass ⟨0, 0⟩ 0).1 = s₁ at htest ⊢
  unfold DqSys.pushPass
  rw [if_neg htest]

end RtThread
