import Mathlib.Data.Fin.VecNotation
import Mathlib.Data.Fintype.Pi
import RtThread.Ipc.Woken

/-!
# Events

The event object of `ipc.c`, for one event and any number of threads. A thread asks for a set of
events, all of them or any of them, and may clear what it receives. If they are not there it waits,
with its request in its own fields `event_set` and `event_info`. `rt_event_send` walks the list of
waiting threads once, tests each request against the set that the threads before it have left, and
wakes those that are satisfied, by a second copy of the code of `rt_event_recv`.
-/

namespace RtThread

open Lib Function Option

variable {n : ℕ}

/-! ## The functions -/

/-- All events of the set are needed. -/
def RT_EVENT_FLAG_AND : BitVec 8 := 0x01
/-- One event of the set is enough. -/
def RT_EVENT_FLAG_OR : BitVec 8 := 0x02
/-- The events received are cleared. -/
def RT_EVENT_FLAG_CLEAR : BitVec 8 := 0x04

/-- `struct rt_event`. Its suspend list is the list `0`. -/
structure Event where
  set : BitVec 32
  flag : IpcFlag

/-- The fields of the threads that events use. -/
structure EventFields (n : ℕ) where
  eventSet : Fin n → BitVec 32
  eventInfo : Fin n → BitVec 8

/-- `rt_event_init`. -/
def rtEventInit (flag : IpcFlag) : Event := ⟨0, flag⟩

/-- The test of a waiting thread in `rt_event_send`. A request for any of the events is cut down to
those that are there. -/
def eventMatch (event : Event) (fields : EventFields n) (thread : Fin n) : Bool × EventFields n :=
  if fields.eventInfo thread &&& RT_EVENT_FLAG_AND ≠ 0 then
    (fields.eventSet thread &&& event.set = fields.eventSet thread, fields)
  else if fields.eventInfo thread &&& RT_EVENT_FLAG_OR ≠ 0 then
    if fields.eventSet thread &&& event.set ≠ 0 then
      (true, { fields with
        eventSet := update fields.eventSet thread (fields.eventSet thread &&& event.set) })
    else (false, fields)
  else (false, fields)

/-- The loop of `rt_event_send`. It goes to the next thread before it resumes this one. -/
def rtEventSendLoop : ℕ → Node Head (Fin n) → Kernel n → Event → EventFields n →
    Except Fault (Kernel n × Event × EventFields n)
  | 0, _, _, _, _ => .error .fuel
  | fuel + 1, node, k, event, fields =>
    if node = .head (.wait 0) then .ok (k, event, fields)
    else match node with
      | .head _ => .error .wild
      | .item thread =>
        let next := k.sched.tlist.next (.item thread)
        match eventMatch event fields thread with
        | (true, fields) =>
          let event := if fields.eventInfo thread &&& RT_EVENT_FLAG_CLEAR ≠ 0 then
              { event with set := event.set &&& ~~~fields.eventSet thread }
            else event
          rtEventSendLoop fuel next (rtThreadResume k thread).1 event fields
        | (false, fields) => rtEventSendLoop fuel next k event fields

variable (k : Kernel n)

/-- `rt_event_send`, up to its call of `rt_schedule`. -/
def rtEventSend (event : Event) (fields : EventFields n) (set : BitVec 32) :
    Except Fault (Kernel n × Event × EventFields n × ℤ) :=
  if set = 0 then .ok (k, event, fields, -RT_ERROR)
  else
    let event := { event with set := event.set ||| set }
    if ¬rtListIsempty k.sched.tlist (.head (.wait 0)) then do
      let (k, event, fields) ← rtEventSendLoop (n + 1) (k.sched.tlist.next (.head (.wait 0))) k event fields
      return (k, event, fields, RT_EOK)
    else .ok (k, event, fields, RT_EOK)

/-- The test of `rt_event_recv`; a request for neither is an assertion. -/
def eventCheck (event : Event) (set : BitVec 32) (option : BitVec 8) : Except Fault Bool :=
  if option &&& RT_EVENT_FLAG_AND ≠ 0 then .ok (event.set &&& set = set)
  else if option &&& RT_EVENT_FLAG_OR ≠ 0 then .ok (event.set &&& set ≠ 0)
  else .error .assertion

/-- `rt_event_recv`, up to its call of `rt_schedule`. Unless the thread waits, it returns an error
code and what is stored through `recved`. -/
def rtEventRecv (event : Event) (fields : EventFields n) (set : BitVec 32) (option : BitVec 8)
    (time : ℤ) : Except Fault (Kernel n × Event × EventFields n × Option (ℤ × Option (BitVec 32))) :=
  match k.current with
  | none => .error .assertion
  | some thread =>
    if set = 0 then .ok (k, event, fields, some (-RT_ERROR, none))
    else do
      let k := k.setError thread RT_EOK
      if ← eventCheck event set option then
        let event' := if option &&& RT_EVENT_FLAG_CLEAR ≠ 0 then { event with set := event.set &&& ~~~set } else event
        return (k, event', fields, some (k.error thread, some (event.set &&& set)))
      else if time = 0 then
        let k := k.setError thread (-RT_ETIMEOUT)
        return (k, event, fields, some (k.error thread, none))
      else
        let fields : EventFields n :=
          ⟨update fields.eventSet thread set, update fields.eventInfo thread option⟩
        let k ← k.waitThread thread 0 event.flag (waitTime time)
        return (k, event, fields, none)

/-- `rt_event_recv` after its call of `rt_schedule`. -/
def rtEventRecvEnd (fields : EventFields n) (thread : Fin n) : ℤ × Option (BitVec 32) :=
  if k.error thread ≠ RT_EOK then (k.error thread, none)
  else (k.error thread, some (fields.eventSet thread))

/-- `rt_event_control` with `RT_IPC_CMD_RESET`, up to its call of `rt_schedule`. -/
def rtEventReset (event : Event) : Except Fault (Kernel n × Event) := do
  let k ← rtIpcListResumeAll k 0
  return (k, { event with set := 0 })

/-! ## The path that does not wait -/

/-- The set has what the request asks for. -/
def Satisfied (set request : BitVec 32) (option : BitVec 8) : Prop :=
  option &&& RT_EVENT_FLAG_AND ≠ 0 ∧ set &&& request = request ∨
    option &&& RT_EVENT_FLAG_AND = 0 ∧ option &&& RT_EVENT_FLAG_OR ≠ 0 ∧ set &&& request ≠ 0

instance (set request : BitVec 32) (option : BitVec 8) : Decidable (Satisfied set request option) := by
  unfold Satisfied; infer_instance

/-- The received set, and the set that is left behind, of a request that is satisfied. -/
def takeEvent (set request : BitVec 32) (option : BitVec 8) : Option (BitVec 32 × BitVec 32) :=
  if Satisfied set request option then
    some (set &&& request, if option &&& RT_EVENT_FLAG_CLEAR ≠ 0 then set &&& ~~~request else set)
  else none

/-- The threads of a list take the events that they wait for one after the other: what each of them
receives, and the set that is left behind. -/
def turns (fields : EventFields n) : List (Fin n) → BitVec 32 → (Fin n → Option (BitVec 32)) × BitVec 32
  | [], set => (fun _ => none, set)
  | t :: l, set =>
    match takeEvent set (fields.eventSet t) (fields.eventInfo t) with
    | none => turns fields l set
    | some (received, left) =>
      (update (turns fields l left).1 t (some received), (turns fields l left).2)

/-! ## Runs -/

/-- The threads, the event and the fields, with what each thread got. -/
structure EventSys (n : ℕ) extends Callers Unit n where
  event : Event
  fields : EventFields n
  /-- What the thread got at its turn, when it was last woken by a send. -/
  turn : Fin n → BitVec 32

/-- The steps of the threads and the interrupt handlers. -/
inductive EventAct (n : ℕ)
  | env (e : Env n)
  /-- `rt_event_send` by a thread or an interrupt handler. -/
  | send (set : BitVec 32)
  | recv (t : Fin n) (set : BitVec 32) (option : BitVec 8) (time : ℤ)
  /-- The return of a call of `rt_event_recv` that has waited. -/
  | ret (t : Fin n)
  | reset
  deriving DecidableEq

/-- One step. -/
def EventSys.exec (s : EventSys n) : EventAct n → Option (EventSys n)
  | .env e => (s.toCallers.env e).map fun c => { s with toCallers := c }
  | .send set =>
    match rtEventSend s.k s.event s.fields set with
    | .ok (k, event, fields, _) =>
      some { s with
        k := k
        event := event
        fields := fields
        turn := fun t =>
          ((turns s.fields (s.k.sched.waiters 0) (s.event.set ||| set)).1 t).getD (s.turn t) }
    | .error _ => none
  | .recv t set option time =>
    if s.k.current = some t ∧ s.doing t = .free then
      match rtEventRecv s.k s.event s.fields set option time with
      | .ok (k, event, fields, some _) => some { s with k := k, event := event, fields := fields }
      | .ok (k, event, fields, none) => some { s with
          k := k
          event := event
          fields := fields
          doing := update s.doing t (.call ()) }
      | .error _ => none
    else none
  | .ret t =>
    if s.k.current = some t ∧ s.doing t = .call () ∧ s.k.sched.stat t = .ready then
      some { s with doing := update s.doing t .free }
    else none
  | .reset =>
    match rtEventReset s.k s.event with
    | .ok (k, event) => some { s with k := k, event := event }
    | .error _ => none

/-- The runs from a kernel that has been booted, with an event that is initialised. -/
def eventSystem (n : ℕ) : System (EventSys n) (EventAct n) where
  init := fun s => s.toCallers.Boot ∧ ∃ flag, s.event = rtEventInit flag
  step := fun s a s' => s.exec a = some s'

/-! ## Turns -/

section Turns

variable {set left received request m : BitVec 32} {option : BitVec 8} {fields fields' : EventFields n}
  {t : Fin n} {l : List (Fin n)}

theorem Satisfied.mono (h : Satisfied (set &&& m) request option) : Satisfied set request option := by
  rcases h with ⟨hand, hset⟩ | ⟨hand, hor, hset⟩
  · refine .inl ⟨hand, ?_⟩
    calc set &&& request = set &&& (set &&& m &&& request) := by rw [hset]
      _ = set &&& m &&& request := by rw [← BitVec.and_assoc, ← BitVec.and_assoc, BitVec.and_self]
      _ = request := hset
  · refine .inr ⟨hand, hor, fun hzero => hset ?_⟩
    calc set &&& m &&& request = m &&& (set &&& request) := by rw [BitVec.and_comm set m, BitVec.and_assoc]
      _ = 0 := by rw [hzero]; exact BitVec.and_zero

theorem clear_received : set &&& ~~~(set &&& request) = set &&& ~~~request := by
  ext i
  simp only [BitVec.getElem_and, BitVec.getElem_not]
  cases set[i] <;> simp

theorem takeEvent_eq_none : takeEvent set request option = none ↔ ¬Satisfied set request option := by
  unfold takeEvent
  split_ifs with hsat
  · simp [hsat]
  · simp [hsat]

theorem takeEvent_eq_some (h : takeEvent set request option = some (received, left)) :
    Satisfied set request option ∧ received = set &&& request ∧
      left = if option &&& RT_EVENT_FLAG_CLEAR ≠ 0 then set &&& ~~~request else set := by
  have hsat : Satisfied set request option := by
    by_contra hsat
    rw [takeEvent_eq_none.mpr hsat] at h
    cases h
  unfold takeEvent at h
  rw [if_pos hsat] at h
  obtain ⟨hreceived, hleft⟩ := Prod.mk.inj (some.inj h)
  exact ⟨hsat, hreceived.symm, hleft.symm⟩

theorem takeEvent_left (h : takeEvent set request option = some (received, left)) : ∃ m, left = set &&& m := by
  obtain ⟨-, -, rfl⟩ := takeEvent_eq_some h
  split_ifs
  · exact ⟨~~~request, rfl⟩
  · exact ⟨set, (BitVec.and_self).symm⟩

theorem turns_cons_none (h : takeEvent set (fields.eventSet t) (fields.eventInfo t) = none) :
    turns fields (t :: l) set = turns fields l set := by
  rw [turns, h]

theorem turns_cons_some (h : takeEvent set (fields.eventSet t) (fields.eventInfo t) = some (received, left)) :
    turns fields (t :: l) set =
      (update (turns fields l left).1 t (some received), (turns fields l left).2) := by
  rw [turns, h]

theorem turns_left : ∃ m, (turns fields l set).2 = set &&& m := by
  induction l generalizing set with
  | nil => exact ⟨set, (BitVec.and_self).symm⟩
  | cons t l ih =>
    cases htake : takeEvent set (fields.eventSet t) (fields.eventInfo t) with
    | none =>
      rw [turns_cons_none htake]
      exact ih
    | some p =>
      obtain ⟨received, left⟩ := p
      obtain ⟨m, rfl⟩ := takeEvent_left htake
      rw [turns_cons_some htake]
      obtain ⟨m', hm'⟩ : ∃ m', (turns fields l (set &&& m)).2 = set &&& m &&& m' := ih
      exact ⟨m &&& m', by rw [hm', BitVec.and_assoc]⟩

theorem turns_unsatisfied (ht : t ∈ l) (hnone : (turns fields l set).1 t = none) :
    ¬Satisfied (turns fields l set).2 (fields.eventSet t) (fields.eventInfo t) := by
  induction l generalizing set with
  | nil => cases ht
  | cons u l ih =>
    cases htake : takeEvent set (fields.eventSet u) (fields.eventInfo u) with
    | none =>
      rw [turns_cons_none htake] at hnone ⊢
      rcases List.mem_cons.mp ht with rfl | ht
      · obtain ⟨m, hm⟩ : ∃ m, (turns fields l set).2 = set &&& m := turns_left
        rw [hm]
        exact fun hsat => takeEvent_eq_none.mp htake hsat.mono
      · exact ih ht hnone
    | some p =>
      obtain ⟨received, left⟩ := p
      rw [turns_cons_some htake] at hnone ⊢
      dsimp only at hnone ⊢
      rw [update_apply] at hnone
      split_ifs at hnone with htu
      exact ih ((List.mem_cons.mp ht).resolve_left htu) hnone

theorem turns_of_not_mem (ht : t ∉ l) : (turns fields l set).1 t = none := by
  induction l generalizing set with
  | nil => rfl
  | cons u l ih =>
    rw [List.mem_cons, not_or] at ht
    obtain ⟨htu, ht⟩ := ht
    cases htake : takeEvent set (fields.eventSet u) (fields.eventInfo u) with
    | none =>
      rw [turns_cons_none htake]
      exact ih ht
    | some p =>
      obtain ⟨received, left⟩ := p
      rw [turns_cons_some htake]
      dsimp only
      rw [update_of_ne htu]
      exact ih ht

theorem turns_none (h : ∀ t ∈ l, ¬Satisfied set (fields.eventSet t) (fields.eventInfo t)) :
    turns fields l set = (fun _ => none, set) := by
  induction l with
  | nil => rfl
  | cons u l ih =>
    rw [turns_cons_none (takeEvent_eq_none.mpr (h u List.mem_cons_self))]
    exact ih fun t ht => h t (List.mem_cons_of_mem _ ht)

theorem turns_congr (h : ∀ t ∈ l, fields'.eventSet t = fields.eventSet t)
    (hinfo : fields'.eventInfo = fields.eventInfo) : turns fields' l set = turns fields l set := by
  induction l generalizing set with
  | nil => rfl
  | cons u l ih =>
    have ih : ∀ {set}, turns fields' l set = turns fields l set :=
      ih fun t ht => h t (List.mem_cons_of_mem _ ht)
    rw [turns, turns, h u List.mem_cons_self, hinfo]
    simp only [ih]

end Turns

/-! ## The walk over the waiting threads -/

section Walk

variable {s : Callers Unit n} {event : Event} {fields : EventFields n} {set left received : BitVec 32} {t : Fin n}

/-- The suspend list of the event. -/
abbrev eventList : Unit → Option ℕ := fun _ => some 0

theorem eventMatch_none (h : takeEvent event.set (fields.eventSet t) (fields.eventInfo t) = none) :
    eventMatch event fields t = (false, fields) := by
  have hsat := takeEvent_eq_none.mp h
  unfold eventMatch
  rw [BitVec.and_comm (fields.eventSet t)]
  split_ifs with hand hor hset
  · have hset : ¬event.set &&& fields.eventSet t = fields.eventSet t := fun hset => hsat (.inl ⟨hand, hset⟩)
    simp [hset]
  · exact absurd (.inr ⟨not_not.mp hand, hor, hset⟩) hsat
  · rfl
  · rfl

theorem eventMatch_some
    (h : takeEvent event.set (fields.eventSet t) (fields.eventInfo t) = some (received, left)) :
    eventMatch event fields t =
        (true, { fields with eventSet := update fields.eventSet t received }) ∧
      left = if fields.eventInfo t &&& RT_EVENT_FLAG_CLEAR ≠ 0 then event.set &&& ~~~received else event.set := by
  obtain ⟨hsat, rfl, rfl⟩ := takeEvent_eq_some h
  refine ⟨?_, by rw [clear_received]⟩
  unfold eventMatch
  rw [BitVec.and_comm (fields.eventSet t)]
  rcases hsat with ⟨hand, hset⟩ | ⟨hand, hor, hset⟩
  · rw [if_pos hand, hset, update_eq_self]
    simp
  · rw [if_neg (not_not.mpr hand), if_pos hor, if_pos hset]

/-- The fields of the threads after their turns. -/
def EventFields.afterTurns (fields : EventFields n) (turn : Fin n → Option (BitVec 32)) : EventFields n where
  eventSet := fun t => (turn t).getD (fields.eventSet t)
  eventInfo := fields.eventInfo

variable {fuel : ℕ}

theorem sendLoop_some {k : Kernel n}
    (h : takeEvent event.set (fields.eventSet t) (fields.eventInfo t) = some (received, left)) :
    rtEventSendLoop (fuel + 1) (.item t) k event fields =
      rtEventSendLoop fuel (k.sched.tlist.next (.item t)) (rtThreadResume k t).1 { event with set := left }
        { fields with eventSet := update fields.eventSet t received } := by
  obtain ⟨hmatch, hleft⟩ := eventMatch_some h
  rw [rtEventSendLoop, if_neg (by simp), hmatch, hleft]
  dsimp only
  rw [update_self]
  split_ifs <;> rfl

/-- The walk of `rt_event_send` lets the waiting threads take their events in turn. -/
theorem sendLoop_turns (h : Clean eventList s) {l₁ l₂ : List (Fin n)} (hl : s.k.sched.waiters 0 = l₁ ++ l₂)
    (hfuel : l₂.length < fuel) :
    ∃ k, rtEventSendLoop fuel (Node.first (.wait 0) l₂) s.k event fields =
        .ok (k, { event with set := (turns fields l₂ event.set).2 },
          fields.afterTurns (turns fields l₂ event.set).1) ∧
      Clean eventList { s with k := k } ∧
      k.sched.waiters 0 = l₁ ++ l₂.filter (fun t => (turns fields l₂ event.set).1 t = none) ∧
      ∀ u c, Woken { s with k := k } u c ↔
        Woken s u c ∨ (turns fields l₂ event.set).1 u ≠ none ∧ s.doing u = .call c := by
  induction l₂ generalizing s event fields l₁ fuel with
  | nil =>
    obtain ⟨fuel, rfl⟩ := Nat.exists_eq_succ_of_ne_zero (by simp at hfuel; omega : fuel ≠ 0)
    refine ⟨s.k, ?_, h, by simpa using hl, fun u c => by simp [turns]⟩
    rw [Node.first_nil, rtEventSendLoop, if_pos rfl]
    rfl
  | cons t l₂ ih =>
    obtain ⟨fuel, rfl⟩ := Nat.exists_eq_succ_of_ne_zero (by rw [List.length_cons] at hfuel; omega : fuel ≠ 0)
    have hfuel : l₂.length < fuel := by rw [List.length_cons] at hfuel; omega
    obtain ⟨v, hv⟩ := h.sim
    have hsplit : v.lists (.wait 0) = l₁ ++ t :: l₂ := by rw [← hv.waiters, hl]
    have hnext := hv.queues.rings.next_item hsplit
    have hnodup := h.nodup 0
    rw [hl] at hnodup
    obtain ⟨-, hnodup₂, hdisjoint⟩ := List.nodup_append.mp hnodup
    have ht₂ : t ∉ l₂ := (List.nodup_cons.mp hnodup₂).1
    have hnone : ∀ {fields : EventFields n} {set}, (turns fields l₂ set).1 t = none := turns_of_not_mem ht₂
    rw [Node.first_cons]
    cases htake : takeEvent event.set (fields.eventSet t) (fields.eventInfo t) with
    | none =>
      rw [rtEventSendLoop, if_neg (by simp), eventMatch_none htake, hnext, turns_cons_none htake]
      have hl' : s.k.sched.waiters 0 = (l₁ ++ [t]) ++ l₂ := by rw [hl, List.append_assoc]; rfl
      obtain ⟨k, hloop, hclean, hwaiters, hwoken⟩ := ih h hl' hfuel
      refine ⟨k, hloop, hclean, ?_, hwoken⟩
      rw [hwaiters, List.filter_cons, if_pos (by simpa using hnone)]
      simp
    | some p =>
      obtain ⟨received, left⟩ := p
      have ht : t ∈ s.k.sched.waiters 0 := by rw [hl]; simp
      have ht₁ : t ∉ l₁ := fun hmem => hdisjoint t hmem t List.mem_cons_self rfl
      obtain ⟨hclean, hwaiters, hwoken⟩ := h.wake ht
      have hrest : (rtThreadResume s.k t).1.sched.waiters 0 = l₁ ++ l₂ := by
        rw [hwaiters]
        dsimp only
        rw [hl, List.erase_append_right _ ht₁, List.erase_cons_head]
      rw [sendLoop_some htake, hnext, turns_cons_some htake]
      -- The threads behind see the fields that they had.
      have hturns : turns { fields with eventSet := update fields.eventSet t received } l₂ left =
          turns fields l₂ left := by
        refine turns_congr (fun u hu => ?_) rfl
        have hut : u ≠ t := fun hut => ht₂ (hut ▸ hu)
        exact update_of_ne hut ..
      obtain ⟨k, hloop, hclean', hwaiters', hwoken'⟩ : ∃ k, rtEventSendLoop fuel (Node.first (.wait 0) l₂)
          (rtThreadResume s.k t).1 { event with set := left }
          { fields with eventSet := update fields.eventSet t received } = _ ∧ _ :=
        ih hclean hrest hfuel
      rw [hturns] at hloop hwaiters'
      refine ⟨k, ?_, hclean', ?_, fun u c => ?_⟩
      · rw [hloop]
        congr 3
        unfold EventFields.afterTurns
        congr 1
        funext u
        dsimp only
        by_cases hut : u = t
        · rw [hut, hnone, update_self, update_self]
          rfl
        · rw [update_of_ne hut, update_of_ne hut]
      · rw [hwaiters', List.filter_cons, if_neg (by simp)]
        congr 1
        refine List.filter_congr fun u hu => ?_
        have hut : u ≠ t := fun hut => ht₂ (hut ▸ hu)
        simp [hut]
      · rw [hwoken', hwoken, hturns]
        dsimp only
        by_cases hut : u = t
        · subst hut
          rw [hnone, update_self]
          simp
        · rw [update_of_ne hut]
          simp [hut]

theorem rtEventSend_turns (h : Clean eventList s) (event : Event) (fields : EventFields n) (hset : set ≠ 0) :
    ∃ k, rtEventSend s.k event fields set =
        .ok (k, { event with set := (turns fields (s.k.sched.waiters 0) (event.set ||| set)).2 },
          fields.afterTurns (turns fields (s.k.sched.waiters 0) (event.set ||| set)).1, RT_EOK) ∧
      Clean eventList { s with k := k } ∧
      k.sched.waiters 0 = (s.k.sched.waiters 0).filter
        (fun t => (turns fields (s.k.sched.waiters 0) (event.set ||| set)).1 t = none) ∧
      ∀ u c, Woken { s with k := k } u c ↔ Woken s u c ∨
        (turns fields (s.k.sched.waiters 0) (event.set ||| set)).1 u ≠ none ∧ s.doing u = .call c := by
  unfold rtEventSend
  rw [if_neg hset]
  by_cases hnil : s.k.sched.waiters 0 = []
  · rw [if_neg (not_not.mpr (h.isempty.mpr hnil)), hnil]
    exact ⟨s.k, rfl, h, by simpa using hnil, fun u c => by simp [turns]⟩
  · rw [if_pos (mt h.isempty.mp hnil)]
    obtain ⟨v, hv⟩ := h.sim
    have hfuel : (s.k.sched.waiters 0).length < n + 1 := by
      have hlen := hv.length_lt (.wait 0)
      rw [hv.waiters]
      omega
    obtain ⟨k, hloop, hclean, hwaiters, hwoken⟩ : ∃ k, rtEventSendLoop (n + 1)
        (Node.first (.wait 0) (s.k.sched.waiters 0)) s.k { event with set := event.set ||| set } fields = _ ∧ _ :=
      sendLoop_turns h (List.nil_append _).symm hfuel
    refine ⟨k, ?_, hclean, hwaiters, hwoken⟩
    rw [hv.queues.rings.next_head, ← hv.waiters, hloop]
    rfl

end Walk

/-! ## The path that does not wait, in the code -/

section Recv

variable {k : Kernel n} {event : Event} {fields : EventFields n} {set left received : BitVec 32} {option : BitVec 8}
  {t : Fin n} {time : ℤ}

theorem eventCheck_eq (hoption : option &&& RT_EVENT_FLAG_AND ≠ 0 ∨ option &&& RT_EVENT_FLAG_OR ≠ 0) :
    eventCheck event set option = .ok (decide (Satisfied event.set set option)) := by
  unfold eventCheck Satisfied
  split_ifs with hand hor
  · exact congrArg Except.ok (decide_eq_decide.mpr (by tauto))
  · exact congrArg Except.ok (decide_eq_decide.mpr (by tauto))
  · exact absurd hoption (by tauto)

theorem rtEventRecv_assert (hset : set ≠ 0)
    (hoption : ¬(option &&& RT_EVENT_FLAG_AND ≠ 0 ∨ option &&& RT_EVENT_FLAG_OR ≠ 0)) :
    rtEventRecv k event fields set option time = .error .assertion := by
  obtain ⟨hand, hor⟩ := not_or.mp hoption
  have hcheck : eventCheck event set option = .error .assertion := by
    unfold eventCheck
    rw [if_neg hand, if_neg hor]
  unfold rtEventRecv
  cases k.current with
  | none => rfl
  | some t =>
    dsimp only
    rw [if_neg hset, hcheck]
    rfl

theorem Satisfied.kind (h : Satisfied set left option) :
    option &&& RT_EVENT_FLAG_AND ≠ 0 ∨ option &&& RT_EVENT_FLAG_OR ≠ 0 := by
  rcases h with ⟨hand, -⟩ | ⟨-, hor, -⟩
  · exact .inl hand
  · exact .inr hor

theorem rtEventRecv_take (hcur : k.current = some t) (hset : set ≠ 0)
    (htake : takeEvent event.set set option = some (received, left)) :
    rtEventRecv k event fields set option time =
      .ok (k.setError t RT_EOK, { event with set := left }, fields, some (RT_EOK, some received)) := by
  obtain ⟨hsat, rfl, rfl⟩ := takeEvent_eq_some htake
  have herror : (k.setError t RT_EOK).error t = RT_EOK := update_self ..
  unfold rtEventRecv
  rw [hcur]
  dsimp only
  rw [if_neg hset, eventCheck_eq hsat.kind, decide_eq_true hsat, herror]
  split_ifs <;> rfl

theorem rtEventRecv_fail (hcur : k.current = some t) (hset : set ≠ 0)
    (hoption : option &&& RT_EVENT_FLAG_AND ≠ 0 ∨ option &&& RT_EVENT_FLAG_OR ≠ 0)
    (htake : takeEvent event.set set option = none) : rtEventRecv k event fields set option 0 =
      .ok ((k.setError t RT_EOK).setError t (-RT_ETIMEOUT), event, fields, some (-RT_ETIMEOUT, none)) := by
  have herror : ((k.setError t RT_EOK).setError t (-RT_ETIMEOUT)).error t = -RT_ETIMEOUT := update_self ..
  unfold rtEventRecv
  rw [hcur]
  dsimp only
  rw [if_neg hset, eventCheck_eq hoption, decide_eq_false (takeEvent_eq_none.mp htake), herror]
  rfl

theorem rtEventRecv_wait (hcur : k.current = some t) (hset : set ≠ 0)
    (hoption : option &&& RT_EVENT_FLAG_AND ≠ 0 ∨ option &&& RT_EVENT_FLAG_OR ≠ 0)
    (htake : takeEvent event.set set option = none) (htime : time ≠ 0) :
    rtEventRecv k event fields set option time =
      ((k.setError t RT_EOK).waitThread t 0 event.flag (waitTime time)).map fun k => (k, event,
        ⟨update fields.eventSet t set, update fields.eventInfo t option⟩, none) := by
  unfold rtEventRecv
  rw [hcur]
  dsimp only
  rw [if_neg hset, eventCheck_eq hoption, decide_eq_false (takeEvent_eq_none.mp htake)]
  rw [if_neg htime]
  cases (k.setError t RT_EOK).waitThread t 0 event.flag (waitTime time) <;> rfl

end Recv

/-! ## Delivery -/

/-- No thread waits for what is there. -/
structure EventInv (s : EventSys n) : Prop where
  clean : Clean eventList s.toCallers
  unsatisfied : ∀ t ∈ s.k.sched.waiters 0,
    ¬Satisfied s.event.set (s.fields.eventSet t) (s.fields.eventInfo t)
  /-- A thread that was woken by a send still has what it got. -/
  turn : ∀ t, Woken s.toCallers t () → s.fields.eventSet t = s.turn t

namespace EventInv

variable {s s' : EventSys n} {t : Fin n}

section

variable (h : EventInv s)
include h

theorem env {e : Env n} {c : Callers Unit n} (hs : s.toCallers.env e = some c) :
    EventInv { s with toCallers := c } := by
  obtain ⟨hclean, -, hsub, hwoken⟩ := h.clean.env hs
  exact ⟨hclean, fun t ht => h.unsatisfied t ((hsub 0).subset ht), fun t ht => h.turn t ((hwoken t ()).mp ht)⟩

variable {set : BitVec 32}

/-- A send leaves only threads whose requests are not satisfied. -/
theorem send (hs : s.exec (.send set) = some s') : EventInv s' := by
  rw [EventSys.exec] at hs
  by_cases hset : set = 0
  · subst hset
    have hturns : turns s.fields (s.k.sched.waiters 0) (s.event.set ||| 0) = (fun _ => none, s.event.set) := by
      have hor : s.event.set ||| 0 = s.event.set := BitVec.or_zero
      rw [hor]
      exact turns_none h.unsatisfied
    rw [hturns] at hs
    exact some.inj hs ▸ h
  · obtain ⟨k, hsend, hclean, hwaiters, hwoken⟩  :=
      rtEventSend_turns h.clean s.event s.fields hset
    rw [hsend] at hs
    obtain rfl := some.inj hs
    refine ⟨hclean, fun t ht => ?_, fun t ht => ?_⟩
    · rw [hwaiters, List.mem_filter, decide_eq_true_iff] at ht
      have hkeep : (s.fields.afterTurns (turns s.fields (s.k.sched.waiters 0) (s.event.set ||| set)).1).eventSet t =
          s.fields.eventSet t := by
        change ((turns _ _ _).1 t).getD _ = _
        rw [ht.2]
        rfl
      rw [hkeep]
      exact turns_unsatisfied ht.1 ht.2
    · change ((turns _ _ _).1 t).getD _ = ((turns _ _ _).1 t).getD _
      cases hturn : (turns s.fields (s.k.sched.waiters 0) (s.event.set ||| set)).1 t with
      | none =>
        rcases (hwoken t ()).mp ht with hold | ⟨hne, -⟩
        · exact h.turn t hold
        · exact absurd hturn hne
      | some received => rfl

theorem setError (hfree : s.doing t = .free) (e : ℤ) :
    EventInv { s with k := s.k.setError t e } := by
  obtain ⟨hclean, hwoken⟩ := h.clean.setError hfree e
  exact ⟨hclean, h.unsatisfied, fun u hu => h.turn u ((hwoken u ()).mp hu)⟩

theorem clear (m : BitVec 32) :
    EventInv { s with event := { s.event with set := s.event.set &&& m } } :=
  ⟨h.clean, fun u hu hsat => h.unsatisfied u hu hsat.mono, h.turn⟩

theorem wait (hready : s.k.sched.stat t = .ready) {option : BitVec 8}
    (htake : takeEvent s.event.set set option = none) {time : Option ℕ} {k : Kernel n}
    (hw : (s.k.setError t RT_EOK).waitThread t 0 s.event.flag time = .ok k) :
    EventInv { s with
      k := k
      fields := ⟨update s.fields.eventSet t set, update s.fields.eventInfo t option⟩
      doing := update s.doing t (.call ()) } := by
  obtain ⟨hclean, hwaiters, hwoken⟩ := h.clean.block (c := ()) hready rfl hw
  refine ⟨hclean, fun u hu => ?_, fun u hu => ?_⟩
  · dsimp only at hu ⊢
    rw [hwaiters, update_self, IpcFlag.mem_insert] at hu
    by_cases hut : u = t
    · rw [hut, update_self, update_self]
      exact takeEvent_eq_none.mp htake
    · rw [update_of_ne hut, update_of_ne hut]
      exact h.unsatisfied u (hu.resolve_left hut)
  · obtain ⟨hut, hold⟩ := (hwoken u ()).mp hu
    dsimp only
    rw [update_of_ne hut]
    exact h.turn u hold

/-- A receive waits only for what is not there. -/
theorem recv {option : BitVec 8} {time : ℤ}
    (hs : s.exec (.recv t set option time) = some s') : EventInv s' := by
  rw [EventSys.exec] at hs
  obtain ⟨⟨hcur, hfree⟩, hs⟩ := ite_none_right_eq_some.mp hs
  by_cases hset : set = 0
  · have hrecv : rtEventRecv s.k s.event s.fields set option time =
        .ok (s.k, s.event, s.fields, some (-RT_ERROR, none)) := by
      unfold rtEventRecv
      rw [hcur]
      exact if_pos hset
    rw [hrecv] at hs
    exact some.inj hs ▸ h
  by_cases hoption : option &&& RT_EVENT_FLAG_AND ≠ 0 ∨ option &&& RT_EVENT_FLAG_OR ≠ 0
  swap
  · rw [rtEventRecv_assert hset hoption] at hs
    cases hs
  cases htake : takeEvent s.event.set set option with
  | some p =>
    obtain ⟨received, left⟩ := p
    rw [rtEventRecv_take hcur hset htake] at hs
    obtain ⟨m, rfl⟩ := takeEvent_left htake
    exact some.inj hs ▸ (h.setError hfree RT_EOK).clear m
  | none =>
    by_cases htime : time = 0
    · subst htime
      rw [rtEventRecv_fail hcur hset hoption htake] at hs
      exact some.inj hs ▸ (h.setError hfree RT_EOK).setError hfree (-RT_ETIMEOUT)
    · rw [rtEventRecv_wait hcur hset hoption htake htime] at hs
      cases hw : (s.k.setError t RT_EOK).waitThread t 0 s.event.flag (waitTime time) with
      | error e =>
        rw [hw] at hs
        cases hs
      | ok k =>
        rw [hw] at hs
        exact some.inj hs ▸ h.wait (h.clean.ready hcur hfree) htake hw

theorem exec {a : EventAct n} (hs : s.exec a = some s') : EventInv s' := by
  cases a with
  | env e =>
    obtain ⟨c, hc, rfl⟩ := map_eq_some_iff.mp hs
    exact h.env hc
  | send set => exact h.send hs
  | recv t set option time => exact h.recv hs
  | ret t =>
    rw [EventSys.exec] at hs
    split_ifs at hs with hcond
    obtain rfl := some.inj hs
    exact ⟨h.clean.move hcond.2.2 .free, h.unsatisfied, fun u hu => h.turn u (woken_free.mp hu).2⟩
  | reset =>
    obtain ⟨k, hk, hclean, hwaiters, hwoken⟩ := h.clean.wakeAll 0
    rw [EventSys.exec, rtEventReset, hk] at hs
    obtain rfl := some.inj hs
    refine ⟨hclean, fun t ht => ?_, fun t ht => h.turn t ((hwoken t ()).mp ht)⟩
    rw [hwaiters, update_self] at ht
    cases ht

end

theorem reachable {ok : EventSys n → EventAct n → Prop} (hs : Reachable (eventSystem n) ok s) : EventInv s := by
  refine hs.invariant ?_ ?_
  · rintro s ⟨hboot, -⟩
    obtain ⟨hclean, hwaiters⟩ : Clean eventList s.toCallers ∧ _ := Clean.boot hboot
    refine ⟨hclean, fun t ht => ?_, fun t ht => ?_⟩
    · rw [hwaiters] at ht
      cases ht
    · obtain ⟨_, _, _, _, _, _, -, -, hs⟩ := hboot
      have hd := ht.1
      rw [hs] at hd
      cases hd
  · exact fun s a s' h _ hstep => h.exec hstep

end EventInv

/-- In every state of every run:

* the set satisfies the request of no thread that waits;
* a send gives the waiting threads their turns in the order of the list: it leaves the set that they leave, wakes
  those that receive something, and hands each of them what it receives;
* a call that has waited returns what the thread got at its turn, unless its timer or a reset woke it;
* a turn is what `rt_event_recv` does with a timeout of `0`. -/
theorem event_delivery {s : EventSys n} (hs : Reachable (eventSystem n) always s) :
    (∀ t ∈ s.k.sched.waiters 0, ¬Satisfied s.event.set (s.fields.eventSet t) (s.fields.eventInfo t)) ∧
      (∀ set, set ≠ 0 → ∃ k, rtEventSend s.k s.event s.fields set =
          .ok (k, { s.event with set := (turns s.fields (s.k.sched.waiters 0) (s.event.set ||| set)).2 },
            s.fields.afterTurns (turns s.fields (s.k.sched.waiters 0) (s.event.set ||| set)).1, RT_EOK) ∧
        k.sched.waiters 0 = (s.k.sched.waiters 0).filter
          (fun t => (turns s.fields (s.k.sched.waiters 0) (s.event.set ||| set)).1 t = none)) ∧
      (∀ t, s.doing t = .call () → t ∉ s.k.sched.waiters 0 →
        s.k.error t = RT_EOK ∧ rtEventRecvEnd s.k s.fields t = (RT_EOK, some (s.turn t)) ∨
          s.k.error t ≠ RT_EOK ∧ rtEventRecvEnd s.k s.fields t = (s.k.error t, none)) ∧
      ∀ t set option, s.k.current = some t → set ≠ 0 →
        option &&& RT_EVENT_FLAG_AND ≠ 0 ∨ option &&& RT_EVENT_FLAG_OR ≠ 0 →
        ∃ k, rtEventRecv s.k s.event s.fields set option 0 = .ok
          (match takeEvent s.event.set set option with
          | some (received, left) => (k, { s.event with set := left }, s.fields, some (RT_EOK, some received))
          | none => (k, s.event, s.fields, some (-RT_ETIMEOUT, none))) := by
  have h := EventInv.reachable hs
  refine ⟨h.unsatisfied, fun set hset => ?_, fun t hcall hnot => ?_, fun t set option hcur hset hoption => ?_⟩
  · obtain ⟨k, hsend, -, hwaiters, -⟩ := rtEventSend_turns h.clean s.event s.fields hset
    exact ⟨k, hsend, hwaiters⟩
  · unfold rtEventRecvEnd
    by_cases herr : s.k.error t = RT_EOK
    · have hturn := h.turn t ⟨hcall, h.clean.woken hcall rfl hnot, herr⟩
      rw [if_neg (not_not.mpr herr), herr, hturn]
      exact .inl ⟨rfl, rfl⟩
    · rw [if_pos herr]
      exact .inr ⟨herr, rfl⟩
  · cases htake : takeEvent s.event.set set option with
    | none => exact ⟨_, rtEventRecv_fail hcur hset hoption htake⟩
    | some p => exact ⟨_, rtEventRecv_take hcur hset htake⟩

/-- Two threads wait, one for any of two events and to clear what it receives, the other for one of
them. The send satisfies the first, which leaves nothing to the second. -/
theorem event_delivery_run : ∃ s : EventSys 3, Reachable (eventSystem 3) always s ∧
    (s.k.sched.waiters 0 = [1] ∧ rtEventRecvEnd s.k s.fields 0 = (RT_EOK, some 1)) ∧
    ∀ t ∈ s.k.sched.waiters 0, ¬Satisfied s.event.set (s.fields.eventSet t) (s.fields.eventInfo t) := by
  refine exists_reachable_and ?_ fun s hs _ => (event_delivery hs).1
  refine exists_reachable_of_exec (s := ⟨.idle ![3, 4, 10],
      rtEventInit .fifo, ⟨fun _ => 0, fun _ => 0⟩, fun _ => 0⟩)
    ⟨Callers.boot_idle (by decide), .fifo, rfl⟩
    [.env (.startup 0), .env (.startup 1), .env (.startup 2), .env .start, .recv 0 3 6 (-1), .env .schedule,
      .recv 1 1 1 (-1), .env .schedule, .send 1] ?_
  decide

end RtThread
