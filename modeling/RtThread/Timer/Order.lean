import RtThread.Timer.Check

/-!
# The order of the timer list

The timers are started and stopped, and time passes tick by tick, each tick followed by
`rt_timer_check`, with timeout functions that leave the timers alone. Beside the timers a run
carries an agenda, which counts the ticks without a bound and knows each timer's deadline and the
number of its last start. All timers on the list are due within half the range of the counter, and
during a check at most one tick late, so the comparisons of `rt_timer_start` and `rt_timer_check` agree
with those of the agenda. A periodic timer with time zero is due again as soon as it is started again,
and `rt_timer_check`, which runs with interrupts off, does not end.
-/

namespace RtThread

open Lib Function List Nat

variable {n : ℕ}

/-- Timeout functions that leave the timers alone. -/
def Callbacks.quiet : Callbacks n := fun _ _ _ => []

theorem Callbacks.tail_quiet : (Callbacks.quiet : Callbacks n).tail = Callbacks.quiet := rfl

/-- The agenda after a check has fired a timer. -/
def AppTimers.refresh (ts : AppTimers n) (g : Agenda (Fin n)) (t : Fin n) : Agenda (Fin n) :=
  if ts.periodic t = true then g.start t (ts.initTick t) else g

/-- The timers, with the agenda. -/
structure TimerRun (n : ℕ) where
  ts : AppTimers n
  agenda : Agenda (Fin n)
  /-- The timers that the last check fired. -/
  fired : List (Fin n)

/-- The steps of a run. -/
inductive OrderAct (n : ℕ)
  | start (t : Fin n)
  | stop (t : Fin n)
  /-- A tick followed by `rt_timer_check`, which ends within `fuel` iterations. -/
  | tick (fuel : ℕ)

/-- One step, of the timers and of the agenda. -/
def OrderAct.exec (s : TimerRun n) : OrderAct n → Except Fault (TimerRun n)
  | .start t => do
    let ts ← s.ts.rtTimerStart t
    return { s with ts := ts, agenda := s.agenda.start t (s.ts.initTick t) }
  | .stop t => return { s with ts := s.ts.rtTimerStop t }
  | .tick fuel => do
    let checked := (s.ts.elapse 1).rtTimerCheck fuel Callbacks.quiet
    let ts ← checked.outcome
    let fired := checked.calls.map (·.timer)
    return { ts := ts, agenda := fired.foldl s.ts.refresh s.agenda.advance, fired := fired }

/-- A periodic timer is started with a time other than zero. -/
def OrderAct.positive (s : TimerRun n) : OrderAct n → Prop
  | .start t => s.ts.periodic t = true → 0 < s.ts.initTick t
  | _ => True

instance (s : TimerRun n) (a : OrderAct n) : Decidable (a.positive s) := by
  cases a <;> unfold OrderAct.positive <;> infer_instance

/-- The state at the start, at any value of the tick counter. -/
def TimerRun.boot (time : Fin n → ℕ) (periodic : Fin n → Bool) (tick : ℕ) : TimerRun n where
  ts := AppTimers.boot time periodic tick
  agenda := ⟨tick, fun _ => 0, fun _ => 0, 0⟩
  fired := []

/-- The runs from timers that are not started. -/
def orderSystem (n : ℕ) : System (TimerRun n) (OrderAct n) where
  init s := ∃ time periodic tick, tick < 2^32 ∧ s = TimerRun.boot time periodic tick
  step s a s' := a.exec s = .ok s'

/-! ## The clock and the agenda -/

/-- The timers on the list `T` follow the agenda, and are at most `late` ticks late. -/
structure Clocked (ts : AppTimers n) (g : Agenda (Fin n)) (T : List (Fin n)) (late : ℕ) : Prop where
  armed : Armed ts.toTimers T
  sorted : g.Sorted T
  tick : ts.tick = g.now % 2^32
  timeout : ∀ t ∈ T, ts.timeoutTick t = g.deadline t % 2^32
  notLate : ∀ t ∈ T, g.now ≤ g.deadline t + late
  soon : ∀ t ∈ T, g.deadline t < g.now + halfTickMax
  time : ∀ t ∈ T, ts.initTick t < halfTickMax ∧ (ts.periodic t = true → 0 < ts.initTick t)

namespace Clocked

variable {ts ts' : AppTimers n} {g : Agenda (Fin n)} {T T' : List (Fin n)} {t : Fin n} {late : ℕ}

section

variable (h : Clocked ts g T late)
include h

theorem sublist (harmed : Armed ts'.toTimers T') (hsub : T'.Sublist T)
    (htick : ts'.tick = ts.tick) (htimeout : ts'.timeoutTick = ts.timeoutTick) (hinit : ts'.initTick = ts.initTick)
    (hper : ts'.periodic = ts.periodic) : Clocked ts' g T' late where
  armed := harmed
  sorted := h.sorted.sublist hsub
  tick := htick.trans h.tick
  timeout t ht := (congrFun htimeout t).trans (h.timeout t (hsub.subset ht))
  notLate t ht := h.notLate t (hsub.subset ht)
  soon t ht := h.soon t (hsub.subset ht)
  time t ht := by
    rw [hinit, hper]
    exact h.time t (hsub.subset ht)

theorem remove (t : Fin n) : Clocked (ts.remove t) g (T.erase t) late :=
  h.sublist (h.armed.remove t) erase_sublist rfl rfl rfl rfl

theorem stop (t : Fin n) : Clocked (ts.rtTimerStop t) g (T.erase t) late := by
  refine h.sublist (h.armed.stop t) erase_sublist ?_ ?_ ?_ rfl
  all_goals
    unfold AppTimers.rtTimerStop RtThread.rtTimerStop
    split_ifs <;> rfl

theorem clearActivated (ht : t ∉ T) : Clocked (ts.clearActivated t) g T late :=
  h.sublist (h.armed.deactivate ht) (List.Sublist.refl T) rfl rfl rfl rfl

end

theorem elapse (h : Clocked ts g T 0) : Clocked (ts.elapse 1) g.advance T 1 where
  armed := ⟨h.armed.rings, h.armed.activated⟩
  sorted := h.sorted.advance
  tick := by
    change (ts.tick + 1) % 2^32 = (g.now + 1) % 2^32
    rw [h.tick, mod_add_mod]
  timeout := h.timeout
  notLate t ht := succ_le_succ (h.notLate t ht)
  soon t ht := by
    have := h.soon t ht
    change g.deadline t < g.now + 1 + halfTickMax
    omega
  time := h.time

theorem timedOut_iff (h : Clocked ts g T late) (hlate : late ≤ 1) (ht : t ∈ T) :
    ts.timedOut ts.tick t ↔ g.due t = true := by
  have h1 := h.notLate t ht
  have h2 := h.soon t ht
  unfold halfTickMax at h2
  unfold AppTimers.timedOut Agenda.due halfTickMax
  rw [h.tick, h.timeout t ht, decide_eq_true_eq]
  exact sub32_mod_lt_iff (by omega) (by omega) (by omega)

theorem later_iff {time : ℕ} (h : Clocked ts g T late) (hlate : late ≤ 1) (htime : time < halfTickMax) {u : Fin n}
    (hu : u ∈ T) : (!ts.later (add32 ts.tick time) u) = decide (g.deadline u ≤ g.now + time) := by
  have h1 := h.notLate u hu
  have h2 := h.soon u hu
  unfold halfTickMax at h2 htime
  have hadd : add32 ts.tick time = (g.now + time) % 2^32 := by
    unfold add32
    rw [h.tick, mod_add_mod]
  have hzero : sub32 (g.deadline u % 2^32) ((g.now + time) % 2^32) = 0 ↔ g.deadline u = g.now + time := by
    unfold sub32
    omega
  have hlt : sub32 (g.deadline u % 2^32) ((g.now + time) % 2^32) < halfTickMax ↔ g.now + time ≤ g.deadline u :=
    sub32_mod_lt_iff (by unfold halfTickMax; omega) (by unfold halfTickMax; omega) (by unfold halfTickMax; omega)
  unfold Timers.later
  rw [hadd, h.timeout u hu, ← decide_not, decide_eq_decide, ne_eq, hzero, hlt]
  omega

/-- Starting a timer keeps the timers and the agenda in step. -/
theorem start (h : Clocked ts g T late) (hlate : late ≤ 1) (htime : ts.initTick t < halfTickMax)
    (hper : ts.periodic t = true → 0 < ts.initTick t) :
    ∃ ts' T', ts.rtTimerStart t = .ok ts' ∧ Clocked ts' (g.start t (ts.initTick t)) T' late ∧
      T' = insertWhile (fun u => g.deadline u ≤ g.now + ts.initTick t) t (T.erase t) ∧
      ts'.initTick = ts.initTick ∧ ts'.periodic = ts.periodic := by
  obtain ⟨rows, hstart, hrings⟩ := rtTimerStart_rings h.armed.rings htime
  have hnot : t ∉ T.erase t := h.armed.nodup.not_mem_erase
  have hremoved := h.remove t
  have hplace : insertWhile (fun u => !ts.later (add32 ts.tick (ts.initTick t)) u) t (T.erase t) =
      insertWhile (fun u => g.deadline u ≤ g.now + ts.initTick t) t (T.erase t) :=
    insertWhile_congr fun u hu => h.later_iff hlate htime (mem_of_mem_erase hu)
  rw [hplace] at hrings
  have hts : ts.rtTimerStart t = .ok { ts with toTimers := ts.toTimers.started t rows } := by
    unfold AppTimers.rtTimerStart
    rw [hstart]
    rfl
  have hne : ∀ {u}, u ∈ T.erase t → u ≠ t := fun hu heq => hnot (heq ▸ hu)
  -- What holds of the started timer and of the others on the list.
  have hcases : ∀ {p : Fin n → Prop}, p t → (∀ u ∈ T.erase t, p u) → ∀ u ∈
      insertWhile (fun u => decide (g.deadline u ≤ g.now + ts.initTick t)) t (T.erase t), p u := by
    intro p hself hother u hu
    rcases mem_insertWhile.mp hu with rfl | hu
    · exact hself
    · exact hother u hu
  refine ⟨_, _, hts, ⟨⟨hrings, ?_⟩, hremoved.sorted.start hnot _, hremoved.tick, ?_, ?_, ?_, ?_⟩, rfl, rfl, rfl⟩
  · refine hcases (update_self ..) fun u hu => ?_
    exact (update_of_ne (hne hu) ..).trans (hremoved.armed.activated u hu)
  · refine hcases ?_ fun u hu => ?_
    · rw [Agenda.start_deadline_self]
      change update ts.timeoutTick t (add32 ts.tick (ts.initTick t)) t = _
      unfold add32
      rw [update_self, h.tick, mod_add_mod]
    · rw [Agenda.start_deadline_of_ne _ (hne hu)]
      exact (update_of_ne (hne hu) ..).trans (hremoved.timeout u hu)
  · refine hcases ?_ fun u hu => ?_
    · rw [Agenda.start_deadline_self]
      change g.now ≤ _
      omega
    · rw [Agenda.start_deadline_of_ne _ (hne hu)]
      exact hremoved.notLate u hu
  · refine hcases ?_ fun u hu => ?_
    · rw [Agenda.start_deadline_self]
      exact Nat.add_lt_add_left htime _
    · rw [Agenda.start_deadline_of_ne _ (hne hu)]
      exact hremoved.soon u hu
  · exact hcases ⟨htime, hper⟩ hremoved.time

/-- So does an iteration of the check. -/
theorem fire (h : Clocked ts g (t :: T) late) (hlate : late ≤ 1) :
    ∃ ts' T', ts.fire (Callbacks.quiet 0 t) t = .ok ts' ∧ Clocked ts' (ts.refresh g t) T' late ∧
      T'.filter (ts.refresh g t).due = T.filter g.due ∧ ts'.initTick = ts.initTick ∧
      ts'.periodic = ts.periodic := by
  have hmem : t ∈ t :: T := mem_cons_self
  have hnot : t ∉ T := (nodup_cons.mp h.armed.nodup).1
  obtain ⟨htime, hper⟩ := h.time t hmem
  have hremoved : Clocked (ts.remove t) g T late := by
    have herase := h.remove t
    rwa [erase_cons_head] at herase
  have hfire : ts.fire (Callbacks.quiet 0 t) t = (ts.remove t).rearm t := rfl
  rw [hfire]
  unfold AppTimers.rearm AppTimers.refresh
  by_cases hp : ts.periodic t = true
  · -- A periodic timer is started again, with its deadline ahead.
    obtain ⟨ts', T', hs, hclocked, hT', hinit, hperiodic⟩ := hremoved.start hlate htime hper
    rw [if_pos ⟨hp, h.armed.activated t hmem⟩, if_pos hp, rtTimerStart_clearActivated]
    refine ⟨ts', T', hs, hclocked, ?_, hinit, hperiodic⟩
    have hahead : (g.start t (ts.initTick t)).due t = false := by
      have := hper hp
      unfold Agenda.due
      rw [Agenda.start_deadline_self, decide_eq_false_iff_not]
      change ¬g.now + ts.initTick t ≤ g.now
      omega
    have hothers : ∀ u ∈ T, (g.start t (ts.initTick t)).due u = g.due u := by
      intro u hu
      have hut : u ≠ t := fun heq => hnot (heq ▸ hu)
      unfold Agenda.due
      rw [Agenda.start_deadline_of_ne _ hut]
      rfl
    rw [hT', filter_insertWhile _ hahead, erase_of_not_mem hnot]
    exact filter_congr hothers
  · rw [if_neg fun hboth => hp hboth.1, if_neg hp]
    exact ⟨_, T, rfl, hremoved.clearActivated hnot, rfl, rfl, rfl⟩

/-- The check fires the timers that are due, in the agenda's order. -/
theorem checkLoop {fuel : ℕ} (h : Clocked ts g T late) (hlate : late ≤ 1)
    (hfuel : (T.filter g.due).length < fuel) :
    ∃ ts' T', AppTimers.rtTimerCheckLoop fuel Callbacks.quiet ts ts.tick =
        ⟨(T.filter g.due).map (⟨·, true⟩), .ok ts'⟩ ∧
      Clocked ts' ((T.filter g.due).foldl ts.refresh g) T' late ∧
      T'.filter ((T.filter g.due).foldl ts.refresh g).due = [] := by
  -- Along the timers that are due.
  induction fuel generalizing ts g T with
  | zero => omega
  | succ fuel ih =>
    have hfirst := h.armed.rings.next_head ()
    cases T with
    | nil =>
      rw [AppTimers.rtTimerCheckLoop_end (by rw [hfirst]; exact id)]
      exact ⟨ts, [], rfl, h, rfl⟩
    | cons t T =>
      rw [Node.first_cons] at hfirst
      have hmem : t ∈ t :: T := mem_cons_self
      by_cases hdue : g.due t = true
      · obtain ⟨ts₁, T₁, hfire, h₁, hrest, hinit, hperiodic⟩ := h.fire hlate
        have hlinked : decide (ts.Linked t) = true := decide_eq_true ((Timers.linked_iff_mem h.armed.rings).mpr hmem)
        have hrefresh : ts₁.refresh = ts.refresh := by
          funext g' u
          unfold AppTimers.refresh
          rw [hinit, hperiodic]
        rw [filter_cons_of_pos hdue, length_cons, ← hrest] at hfuel
        obtain ⟨ts', T', hloop, hclocked, hnone⟩ := ih h₁ (by omega)
        rw [hrefresh, hrest] at hclocked hnone
        rw [AppTimers.rtTimerCheckLoop_item hfirst ((h.timedOut_iff hlate hmem).mpr hdue),
          AppTimers.call_ok _ hfire, hlinked, filter_cons_of_pos hdue, map_cons, foldl_cons]
        refine ⟨ts', T', ?_, hclocked, hnone⟩
        rw [Callbacks.tail_quiet, hloop, hrest]
      · have hnone := h.sorted.filter_due_eq_nil (Bool.not_eq_true _ ▸ hdue)
        have hend : ¬ts.NodeTimedOut ts.tick (ts.rows.next (.head ())) := by
          rw [hfirst]
          exact fun hout => hdue ((h.timedOut_iff hlate hmem).mp hout)
        rw [AppTimers.rtTimerCheckLoop_end hend, hnone]
        exact ⟨ts, t :: T, rfl, h, hnone⟩

theorem punctual (h : Clocked ts g T late) (hnone : T.filter g.due = []) : Clocked ts g T 0 := by
  refine { h with notLate := fun t ht => ?_ }
  have hnot := filter_eq_nil_iff.mp hnone t ht
  unfold Agenda.due at hnot
  rw [decide_eq_true_eq] at hnot
  omega

theorem remaining_eq (h : Clocked ts g T 0) (ht : t ∈ T) : ts.remaining t = g.deadline t - g.now := by
  have h1 := h.notLate t ht
  have h2 := h.soon t ht
  unfold halfTickMax at h2
  unfold AppTimers.remaining sub32
  rw [h.tick, h.timeout t ht]
  omega

end Clocked

theorem rtTimerCheckLoop_add {fuel currentTick : ℕ} {cb : Callbacks n} {ts ts' : AppTimers n}
    (h : (AppTimers.rtTimerCheckLoop fuel cb ts currentTick).outcome = .ok ts') (k : ℕ) :
    AppTimers.rtTimerCheckLoop (fuel + k) cb ts currentTick =
      AppTimers.rtTimerCheckLoop fuel cb ts currentTick := by
  induction fuel generalizing cb ts currentTick with
  | zero => cases h
  | succ fuel ih =>
    rw [add_right_comm]
    rcases ts.nodeTimedOut_cases currentTick (ts.rows.next (.head ())) with hend | ⟨t, hfirst, hdue⟩
    · rw [AppTimers.rtTimerCheckLoop_end hend, AppTimers.rtTimerCheckLoop_end hend]
    · rw [AppTimers.rtTimerCheckLoop_item hfirst hdue] at h ⊢
      rw [AppTimers.rtTimerCheckLoop_item hfirst hdue]
      cases hfire : ts.fire (cb 0 t) t with
      | error e => rw [AppTimers.call_error _ hfire, AppTimers.call_error _ hfire]
      | ok ts₁ =>
        rw [AppTimers.call_ok _ hfire] at h
        rw [AppTimers.call_ok _ hfire, AppTimers.call_ok _ hfire, ih h]

namespace TimerRun

variable {s s' : TimerRun n} {T : List (Fin n)}

/-- A tick from a state that follows its agenda: the check ends, within any number of iterations
larger than the number of timers, and its result does not depend on that number. -/
theorem tick (h : Clocked s.ts s.agenda T 0) :
    ∃ s' T', (∀ fuel, T.length < fuel → (OrderAct.tick fuel).exec s = .ok s') ∧
      (∀ fuel r, (OrderAct.tick fuel).exec s = .ok r → r = s') ∧
      Clocked s'.ts s'.agenda T' 0 ∧ s'.fired = T.filter s.agenda.advance.due := by
  have hshort : (T.filter s.agenda.advance.due).length ≤ T.length := length_filter_le ..
  obtain ⟨ts', T', hcheck, hclocked, hnone⟩ :=
    h.elapse.checkLoop le_rfl (lt_of_le_of_lt hshort (lt_succ_self _))
  have hcalls : ((T.filter s.agenda.advance.due).map fun t => (⟨t, true⟩ : TimerCall n)).map (·.timer) =
      T.filter s.agenda.advance.due := by
    rw [map_map]
    exact map_id _
  obtain ⟨s', hs'⟩ : ∃ s' : TimerRun n, s' =
      ⟨ts', (T.filter s.agenda.advance.due).foldl s.ts.refresh s.agenda.advance,
        T.filter s.agenda.advance.due⟩ := ⟨_, rfl⟩
  have hexec : (OrderAct.tick (T.length + 1)).exec s = .ok s' := by
    unfold OrderAct.exec AppTimers.rtTimerCheck
    dsimp only
    rw [hcheck]
    rw [hcalls, hs']
    rfl
  -- A check that has ended would end in the same way with more iterations.
  have hadd : ∀ {fuel r} k, (OrderAct.tick fuel).exec s = .ok r → (OrderAct.tick (fuel + k)).exec s = .ok r := by
    intro fuel r k hr
    obtain ⟨ts₁, hout, -⟩ := of_bind_ok hr
    rw [← hr]
    unfold OrderAct.exec
    dsimp only
    unfold AppTimers.rtTimerCheck at hout ⊢
    rw [rtTimerCheckLoop_add hout]
  refine ⟨s', T', fun fuel hfuel => ?_, fun fuel r hr => ?_, ?_, ?_⟩
  · have hmore := hadd (fuel - (T.length + 1)) hexec
    rwa [Nat.add_sub_cancel' hfuel] at hmore
  · have h₁ := hadd (T.length + 1) hr
    have h₂ := hadd fuel hexec
    rw [add_comm] at h₂
    exact Except.ok.inj (h₁.symm.trans h₂)
  · rw [hs']
    exact hclocked.punctual hnone
  · rw [hs']

/-- Every step that starts no periodic timer with time zero keeps the timers to the agenda. -/
theorem step {a : OrderAct n} (h : Clocked s.ts s.agenda T 0) (hpos : a.positive s) (hs : a.exec s = .ok s') :
    ∃ T', Clocked s'.ts s'.agenda T' 0 := by
  cases a with
  | start t =>
    obtain ⟨ts', hstart, heq⟩ := of_bind_ok hs
    cases heq
    obtain ⟨htime, -⟩ := rtTimerStart_inv h.armed.rings hstart
    obtain ⟨ts₁, T₁, h₁, hclocked, -⟩ := h.start (zero_le 1) htime hpos
    rw [hstart] at h₁
    cases h₁
    exact ⟨T₁, hclocked⟩
  | stop t =>
    cases hs
    exact ⟨T.erase t, h.stop t⟩
  | tick fuel =>
    obtain ⟨s₁, T₁, -, hunique, hclocked, -⟩ := TimerRun.tick h
    rw [hunique fuel s' hs]
    exact ⟨T₁, hclocked⟩

end TimerRun

/-- In every run in which no periodic timer is started with time zero, the timers on the list stand
in the order of their remaining times modulo `2^32`, those with equal ones in the order of their
starts, and no deadline has passed. The check that follows the next tick ends, and the timers that
it fires are those whose deadline has been reached, in the order of the list. -/
theorem timer_order {s : TimerRun n} (h : Reachable (orderSystem n) OrderAct.positive s) :
    ∃ T : List (Fin n), (Rings s.ts.rows fun _ : Unit => T) ∧
      T.Pairwise (fun t u => s.ts.remaining t < s.ts.remaining u ∨
        s.ts.remaining t = s.ts.remaining u ∧ s.agenda.number t < s.agenda.number u) ∧
      (∀ t ∈ T, s.agenda.now ≤ s.agenda.deadline t ∧
        s.ts.remaining t = s.agenda.deadline t - s.agenda.now) ∧
      ∃ s', (∀ fuel, T.length < fuel → (OrderAct.tick fuel).exec s = .ok s') ∧
        (∀ fuel r, (OrderAct.tick fuel).exec s = .ok r → r = s') ∧
        s'.fired = T.filter fun t => s.agenda.deadline t ≤ s.agenda.now + 1 := by
  have hinv : ∃ T, Clocked s.ts s.agenda T 0 := by
    refine h.invariant ?_ ?_
    · rintro s ⟨time, periodic, tick, htick, rfl⟩
      exact ⟨[], {
        armed := ⟨Rings.empty, by simp⟩
        sorted := Agenda.Sorted.nil _
        tick := (Nat.mod_eq_of_lt htick).symm
        timeout := by simp
        notLate := by simp
        soon := by simp
        time := by simp }⟩
    · rintro s a s' ⟨T, hT⟩ hpos hs
      exact TimerRun.step hT hpos hs
  obtain ⟨T, hT⟩ := hinv
  obtain ⟨s', -, hexec, hunique, -, hfired⟩ := TimerRun.tick hT
  refine ⟨T, hT.armed.rings, ?_, fun t ht => ⟨hT.notLate t ht, hT.remaining_eq ht⟩, s', hexec, hunique, hfired⟩
  -- Remaining times are differences of deadlines from now, none of which has passed.
  refine hT.sorted.order.imp_of_mem fun {t u} ht hu htu => ?_
  have h1 := hT.notLate t ht
  unfold Agenda.Before at htu
  rw [hT.remaining_eq ht, hT.remaining_eq hu]
  omega

/-- A run over the wrap of the tick counter: the timer started second is due first, and the check
after the third tick fires both timers that are then due in the order of their starts. -/
theorem timer_order_run : ∃ s : TimerRun 3, Reachable (orderSystem 3) OrderAct.positive s ∧ s.ts.tick = 1 ∧
    s.fired = [1, 2] ∧ ∃ T : List (Fin 3), (Rings s.ts.rows fun _ : Unit => T) ∧
      T.Pairwise fun t u => s.ts.remaining t < s.ts.remaining u ∨
        s.ts.remaining t = s.ts.remaining u ∧ s.agenda.number t < s.agenda.number u := by
  have hinit : (orderSystem 3).init
      (TimerRun.boot (fun t => if t = 0 then 9 else 3) (fun t => decide (t = 1)) (2^32 - 2)) :=
    ⟨_, _, _, by norm_num, rfl⟩
  have hrun : ∃ s : TimerRun 3, Reachable (orderSystem 3) OrderAct.positive s ∧ s.ts.tick = 1 ∧
      s.fired = [1, 2] := by
    refine exists_reachable_of_run (f := fun s a => (a.exec s).toOption)
      hinit [.start 0, .start 1, .start 2, .tick 4, .tick 4, .tick 4] ?_ fun _ _ _ => ok_of_toOption
    decide
  obtain ⟨s, hs, htick, hfired⟩ := hrun
  obtain ⟨T, hrings, horder, -⟩ := timer_order hs
  exact ⟨s, hs, htick, hfired, T, hrings, horder⟩

variable {ts : AppTimers n}

theorem AppTimers.fire_quiet {t : Fin n} {T : List (Fin n)}
    (hr : Rings ts.rows fun _ : Unit => t :: T) (htime : ts.initTick t < halfTickMax) :
    ∃ ts' T', ts.fire (Callbacks.quiet 0 t) t = .ok ts' ∧ (Rings ts'.rows fun _ : Unit => T') ∧
      (ts'.tick = ts.tick ∧ ts'.initTick = ts.initTick ∧ ts'.periodic = ts.periodic) ∧
      (∀ u ≠ t, ts'.timeoutTick u = ts.timeoutTick u ∧ ts'.activated u = ts.activated u) ∧
      ((ts.periodic t = true ∧ ts.activated t = true) ∧
          T' = insertWhile (fun u => !ts.later (add32 ts.tick (ts.initTick t)) u) t T ∧
          ts'.activated t = true ∧ ts'.timeoutTick t = add32 ts.tick (ts.initTick t) ∨
        ¬(ts.periodic t = true ∧ ts.activated t = true) ∧ T' = T) := by
  have hremoved : Rings (ts.remove t).rows fun _ : Unit => T := by
    have herase := rings_rtListRemove hr t
    rwa [erase_cons_head] at herase
  have hnot : t ∉ T := (nodup_cons.mp (hr.nodup ())).1
  change ∃ ts' T', (ts.remove t).rearm t = .ok ts' ∧ _
  unfold AppTimers.rearm
  by_cases hagain : (ts.remove t).periodic t = true ∧ (ts.remove t).activated t = true
  · obtain ⟨rows, hstart, hrings⟩ := rtTimerStart_rings hremoved htime
    rw [erase_of_not_mem hnot] at hrings
    rw [if_pos hagain, rtTimerStart_clearActivated]
    unfold AppTimers.rtTimerStart
    rw [hstart]
    exact ⟨_, _, rfl, hrings, ⟨rfl, rfl, rfl⟩, fun u hu => ⟨update_of_ne hu .., update_of_ne hu ..⟩,
      .inl ⟨hagain, rfl, update_self .., update_self ..⟩⟩
  · rw [if_neg hagain]
    exact ⟨_, T, rfl, hremoved, ⟨rfl, rfl, rfl⟩, fun u hu => ⟨rfl, update_of_ne hu ..⟩, .inr ⟨hagain, rfl⟩⟩

theorem rtTimerCheckLoop_zero {t : Fin n} (hr : Rings ts.rows fun _ : Unit => [t])
    (hper : ts.periodic t = true) (hact : ts.activated t = true) (htime : ts.initTick t = 0)
    (hdue : ts.timedOut ts.tick t) (fuel : ℕ) :
    AppTimers.rtTimerCheckLoop fuel Callbacks.quiet ts ts.tick = ⟨replicate fuel ⟨t, true⟩, .error .fuel⟩ := by
  induction fuel generalizing ts with
  | zero => rfl
  | succ fuel ih =>
    have hlinked : decide (ts.Linked t) = true := decide_eq_true ((Timers.linked_iff_mem hr).mpr (by simp))
    obtain ⟨ts₁, T₁, hfire, hrings, ⟨htick, hinit, hperiodic⟩, -, hcases⟩ :=
      AppTimers.fire_quiet hr (by rw [htime]; decide)
    obtain ⟨-, rfl, hact', htimeout⟩ := hcases.resolve_right fun hleft => hleft.1 ⟨hper, hact⟩
    -- The timer is due again at once.
    have hagain : ts₁.timedOut ts₁.tick t := by
      unfold AppTimers.timedOut
      rw [htimeout, htick, htime]
      unfold sub32 add32 halfTickMax
      omega
    have hloop := ih hrings (by rw [hperiodic, hper]) hact' (by rw [hinit, htime]) hagain
    rw [AppTimers.rtTimerCheckLoop_item (hr.next_head ()) hdue, AppTimers.call_ok _ hfire, hlinked,
      Callbacks.tail_quiet, hloop, replicate_succ]

/-- A periodic timer with time zero is started. From the next tick on, `rt_timer_check` calls its
timeout function again and again and does not end. -/
theorem check_never_ends : ∃ s : TimerRun 1, Reachable (orderSystem 1) always s ∧
    (∀ fuel, ((s.ts.elapse 1).rtTimerCheck fuel Callbacks.quiet).calls = replicate fuel ⟨0, true⟩) ∧
    ∀ fuel s', (OrderAct.tick fuel).exec s ≠ .ok s' := by
  have hboot : (orderSystem 1).init (TimerRun.boot (fun _ => 0) (fun _ => true) 0) :=
    ⟨_, _, 0, by norm_num, rfl⟩
  have hempty : Rings (AppTimers.boot (fun _ : Fin 1 => 0) (fun _ => true) 0).rows fun _ : Unit => [] :=
    Rings.empty
  obtain ⟨rows, hrows, hrings⟩ := rtTimerStart_rings hempty (t := 0) (by decide)
  obtain ⟨ts, hts⟩ : ∃ ts : AppTimers 1, ts = { AppTimers.boot (fun _ => 0) (fun _ => true) 0 with
    toTimers := (AppTimers.boot (fun _ => 0) (fun _ => true) 0).toTimers.started 0 rows } := ⟨_, rfl⟩
  have hstart : (AppTimers.boot (fun _ : Fin 1 => 0) (fun _ => true) 0).rtTimerStart 0 = .ok ts := by
    unfold AppTimers.rtTimerStart
    rw [hrows, hts]
    rfl
  have hexec : (OrderAct.start 0).exec (TimerRun.boot (fun _ : Fin 1 => 0) (fun _ => true) 0) =
      .ok ⟨ts, Agenda.start ⟨0, fun _ => 0, fun _ => 0, 0⟩ 0 0, []⟩ := by
    unfold OrderAct.exec TimerRun.boot
    dsimp only
    rw [hstart]
    rfl
  -- The deadline of the timer is always now.
  have hloop : ∀ fuel, (ts.elapse 1).rtTimerCheck fuel Callbacks.quiet =
      ⟨replicate fuel ⟨0, true⟩, .error .fuel⟩ := by
    rw [hts]
    exact rtTimerCheckLoop_zero hrings rfl rfl rfl (by decide : sub32 1 0 < halfTickMax)
  refine ⟨_, (Reachable.init hboot).step (a := .start 0) trivial hexec, fun fuel => ?_, fun fuel s' hs => ?_⟩
  · rw [hloop]
  · unfold OrderAct.exec at hs
    dsimp only at hs
    rw [hloop] at hs
    cases hs

/-! ## Which checks end -/

namespace AppTimers

/-- A timer that the check starts again with a deadline that has been reached. -/
def Repeats (ts : AppTimers n) (t : Fin n) : Prop :=
  ts.periodic t = true ∧ ts.activated t = true ∧ ts.initTick t = 0

/-- The timers `due` have timed out, none so late that a timer started again would be linked in front
of it, and the timers `ahead` are due later. -/
structure Punctual (ts : AppTimers n) (due ahead : List (Fin n)) : Prop where
  timedOut : ∀ t ∈ due, ts.timedOut ts.tick t
  late : ∀ t ∈ due, ∀ u, sub32 ts.tick (ts.timeoutTick t) + ts.initTick u ≤ 2^31
  later : ∀ t ∈ ahead, ts.later ts.tick t = true

variable {T : List (Fin n)} {t : Fin n} {fuel : ℕ}

theorem not_timedOut_of_later {ts : AppTimers n} (h : ts.later ts.tick t = true) : ¬ts.timedOut ts.tick t := by
  have hlater : sub32 (ts.timeoutTick t) ts.tick ≠ 0 ∧ sub32 (ts.timeoutTick t) ts.tick < halfTickMax := by
    simpa [Timers.later] using h
  unfold timedOut
  unfold sub32 halfTickMax at *
  omega

/-- A check with timeout functions that do nothing ends, if no timer that is due repeats: the timers
that are due become fewer with each iteration. -/
theorem rtTimerCheckLoop_ends (hr : Rings ts.rows fun _ : Unit => T)
    (htime : ∀ t, ts.initTick t < halfTickMax) (hnone : ∀ t ∈ T, ts.timedOut ts.tick t → ¬ts.Repeats t)
    (hfuel : (T.filter fun t => ts.timedOut ts.tick t).length < fuel) :
    ∃ ts', (rtTimerCheckLoop fuel Callbacks.quiet ts ts.tick).outcome = .ok ts' := by
  induction fuel generalizing ts T with
  | zero => omega
  | succ fuel ih =>
    rcases ts.nodeTimedOut_cases ts.tick (ts.rows.next (.head ())) with hend | ⟨t, hfirst, hdue⟩
    · exact ⟨ts, by rw [rtTimerCheckLoop_end hend]⟩
    have hhead := hr.next_head ()
    cases T with
    | nil =>
      rw [hfirst] at hhead
      cases hhead
    | cons u T =>
      obtain rfl : t = u := by
        rw [hfirst, Node.first_cons] at hhead
        exact Node.item.inj hhead
      have hnot : t ∉ T := (nodup_cons.mp (hr.nodup ())).1
      have hne : ∀ u ∈ T, u ≠ t := fun u hu heq => hnot (heq ▸ hu)
      obtain ⟨ts₁, T₁, hfire, hrings, ⟨htick, hinit, hperiodic⟩, hothers, hcases⟩ :=
        fire_quiet hr (htime t)
      have hsame : ∀ u ∈ T, ts₁.timedOut ts₁.tick u ↔ ts.timedOut ts.tick u := by
        intro u hu
        unfold timedOut
        rw [(hothers u (hne u hu)).1, htick]
      have hfilter : (T.filter fun u => ts₁.timedOut ts₁.tick u) = T.filter fun u => ts.timedOut ts.tick u :=
        filter_congr fun u hu => decide_eq_decide.mpr (hsame u hu)
      -- A timer that is started again is not due, since it does not repeat.
      have hahead : T₁ ≠ T → ¬ts₁.timedOut ts₁.tick t := by
        intro hchanged
        obtain ⟨⟨hper, hact⟩, -, -, htimeout⟩ := hcases.resolve_right fun hleft => hchanged hleft.2
        have hpos : ts.initTick t ≠ 0 := fun hzero => hnone t mem_cons_self hdue ⟨hper, hact, hzero⟩
        have hlt := htime t
        unfold timedOut
        rw [htimeout, htick]
        unfold sub32 add32 halfTickMax at *
        omega
      have hdue₁ : (T₁.filter fun u => ts₁.timedOut ts₁.tick u) = T.filter fun u => ts.timedOut ts.tick u := by
        rcases hcases with ⟨-, hinsert, -⟩ | ⟨-, rfl⟩
        · have hchanged : T₁ ≠ T := fun heq => hnot (by rw [← heq, hinsert, mem_insertWhile]; exact .inl rfl)
          rw [hinsert, filter_insertWhile (q := fun u => ts₁.timedOut ts₁.tick u) _
            (decide_eq_false (hahead hchanged)), hfilter]
        · exact hfilter
      have hnone₁ : ∀ u ∈ T₁, ts₁.timedOut ts₁.tick u → ¬ts₁.Repeats u := by
        intro u hu hdue'
        have hmem : u ∈ T.filter fun u => ts.timedOut ts.tick u := by
          rw [← hdue₁]
          exact mem_filter.mpr ⟨hu, decide_eq_true hdue'⟩
        have hmem : u ∈ T := (mem_filter.mp hmem).1
        unfold Repeats
        rw [hperiodic, hinit, (hothers u (hne u hmem)).2]
        exact hnone u (mem_cons_of_mem t hmem) ((hsame u hmem).mp hdue')
      rw [filter_cons_of_pos (by simpa using hdue), length_cons, ← hdue₁] at hfuel
      rw [rtTimerCheckLoop_item hfirst hdue, call_ok _ hfire]
      exact ih hrings (by rwa [hinit]) hnone₁ (by omega)

namespace Punctual

variable {ts₁ : AppTimers n} {due ahead : List (Fin n)}

/-- An iteration leaves the timers other than the one that it takes off as they are. -/
theorem others (h : ts.Punctual (t :: due) ahead) (hnot : t ∉ due ++ ahead)
    (hsame : ts₁.tick = ts.tick ∧ ts₁.initTick = ts.initTick ∧ ts₁.periodic = ts.periodic)
    (hothers : ∀ u ≠ t, ts₁.timeoutTick u = ts.timeoutTick u ∧ ts₁.activated u = ts.activated u) :
    ts₁.Punctual due ahead ∧ ∀ z ∈ due, ts.Repeats z → ts₁.Repeats z := by
  obtain ⟨htick, hinit, hperiodic⟩ := hsame
  have hdue : ∀ u ∈ due, u ≠ t := fun u hu heq => hnot (heq ▸ mem_append_left _ hu)
  have hahead : ∀ u ∈ ahead, u ≠ t := fun u hu heq => hnot (heq ▸ mem_append_right _ hu)
  refine ⟨⟨fun u hu => ?_, fun u hu => ?_, fun u hu => ?_⟩, fun z hz hrep => ?_⟩
  · unfold AppTimers.timedOut
    rw [htick, (hothers u (hdue u hu)).1]
    exact h.timedOut u (mem_cons_of_mem t hu)
  · rw [htick, hinit, (hothers u (hdue u hu)).1]
    exact h.late u (mem_cons_of_mem t hu)
  · unfold Timers.later
    rw [htick, (hothers u (hahead u hu)).1]
    exact h.later u hu
  · unfold Repeats
    rwa [hperiodic, hinit, (hothers z (hdue z hz)).2]

/-- A timer started again goes behind all that are due. -/
theorem behind (h : ts.Punctual due ahead) (htime : ts.initTick t < halfTickMax) :
    ∀ u ∈ due, (!ts.later (add32 ts.tick (ts.initTick t)) u) = true := by
  intro u hu
  have hdue := h.timedOut u hu
  have hlate := h.late u hu t
  unfold AppTimers.timedOut at hdue
  unfold Timers.later
  simp only [Bool.not_eq_true', decide_eq_false_iff_not]
  unfold sub32 add32 halfTickMax at *
  omega

/-- With time zero it stands in front of those that are ahead. -/
theorem front (h : ts.Punctual due ahead) :
    insertWhile (fun u => !ts.later (add32 ts.tick 0) u) t ahead = t :: ahead := by
  cases ahead with
  | nil => rfl
  | cons u ahead =>
    have hlater := h.later u mem_cons_self
    have hsame : sub32 (ts.timeoutTick u) (add32 ts.tick 0) = sub32 (ts.timeoutTick u) ts.tick := by
      unfold sub32 add32
      omega
    refine insertWhile_cons_of_neg ?_
    unfold Timers.later at hlater ⊢
    rw [hsame, hlater]
    rfl

/-- A timer whose deadline is now is due, with no lateness. -/
theorem append_now (h : ts.Punctual due ahead) (htimeout : ts.timeoutTick t = add32 ts.tick 0)
    (htime : ∀ u, ts.initTick u < halfTickMax) : ts.Punctual (due ++ [t]) ahead := by
  have hself : sub32 ts.tick (add32 ts.tick 0) = 0 := by
    unfold sub32 add32
    omega
  refine ⟨?_, ?_, h.later⟩
  · refine forall_mem_append.mpr ⟨h.timedOut, forall_mem_singleton.mpr ?_⟩
    unfold AppTimers.timedOut
    rw [htimeout, hself]
    decide
  · refine forall_mem_append.mpr ⟨h.late, forall_mem_singleton.mpr fun u => ?_⟩
    have htime := htime u
    rw [htimeout, hself]
    unfold halfTickMax at htime
    omega

/-- An iteration with a timer that is due leaves the timers punctual, and those that repeat due. -/
theorem fire (h : ts.Punctual (t :: due) ahead)
    (hr : Rings ts.rows fun _ : Unit => t :: (due ++ ahead)) (htime : ∀ u, ts.initTick u < halfTickMax) :
    ∃ ts' due' ahead', ts.fire (Callbacks.quiet 0 t) t = .ok ts' ∧ ts'.initTick = ts.initTick ∧
      (Rings ts'.rows fun _ : Unit => due' ++ ahead') ∧ ts'.Punctual due' ahead' ∧
      ∀ z ∈ t :: due, ts.Repeats z → z ∈ due' ∧ ts'.Repeats z := by
  obtain ⟨ts₁, T₁, hfire, hrings, hsame, hothers, hcases⟩ := fire_quiet hr (htime t)
  obtain ⟨hpunctual, hrepeats⟩ := h.others (nodup_cons.mp (hr.nodup ())).1 hsame hothers
  obtain ⟨htick, hinit, hperiodic⟩ := hsame
  rcases hcases with ⟨⟨hper, -⟩, rfl, hact, htimeout⟩ | ⟨hend, rfl⟩
  · rw [insertWhile_append fun u hu => h.behind (htime t) u (mem_cons_of_mem t hu)] at hrings
    by_cases hzero : ts.initTick t = 0
    · -- With time zero it is due again.
      rw [hzero, h.front, append_cons] at hrings
      refine ⟨ts₁, due ++ [t], ahead, hfire, hinit, hrings, ?_, fun z hz hrep => ?_⟩
      · exact hpunctual.append_now (by rw [htimeout, htick, hzero]) (by rwa [hinit])
      · rcases mem_cons.mp hz with rfl | hz
        · exact ⟨mem_append_right _ mem_cons_self, by rwa [hperiodic], hact, by rwa [hinit]⟩
        · exact ⟨mem_append_left _ hz, hrepeats z hz hrep⟩
    · -- With another time it is ahead, and does not repeat.
      refine ⟨ts₁, due, _, hfire, hinit, hrings, ⟨hpunctual.timedOut, hpunctual.late, fun u hu => ?_⟩, ?_⟩
      · rcases mem_insertWhile.mp hu with rfl | hu
        · have htime := htime u
          unfold Timers.later
          rw [htimeout, htick, decide_eq_true_eq]
          unfold sub32 add32 halfTickMax at *
          omega
        · exact hpunctual.later u hu
      · intro z hz hrep
        rcases mem_cons.mp hz with rfl | hz
        · exact absurd hrep.2.2 hzero
        · exact ⟨hz, hrepeats z hz hrep⟩
  · -- A timer that is not started again does not repeat either.
    refine ⟨ts₁, due, ahead, hfire, hinit, hrings, hpunctual, fun z hz hrep => ?_⟩
    rcases mem_cons.mp hz with rfl | hz
    · exact absurd ⟨hrep.1, hrep.2.1⟩ hend
    · exact ⟨hz, hrepeats z hz hrep⟩

/-- The check does not end while a timer that is due repeats. -/
theorem stuck (h : ts.Punctual due ahead)
    (hr : Rings ts.rows fun _ : Unit => due ++ ahead) (htime : ∀ t, ts.initTick t < halfTickMax)
    {z : Fin n} (hz : z ∈ due) (hrep : ts.Repeats z) :
    (rtTimerCheckLoop fuel Callbacks.quiet ts ts.tick).outcome = .error .fuel := by
  induction fuel generalizing ts due ahead with
  | zero => rfl
  | succ fuel ih =>
    cases due with
    | nil => cases hz
    | cons t due =>
      obtain ⟨ts₁, due', ahead', hfire, hinit, hrings, hpunctual, hkept⟩ := h.fire hr htime
      obtain ⟨hz, hrep⟩ := hkept z hz hrep
      rw [rtTimerCheckLoop_item (hr.next_head ()) (h.timedOut t mem_cons_self), call_ok _ hfire]
      exact ih hpunctual hrings (by rwa [hinit]) hz hrep

end Punctual

end AppTimers

/-- With timeout functions that do nothing, `rt_timer_check` ends from every list on which no timer
that is due is periodic with time zero. From a list on which the timers are punctual it ends in no
other case. -/
theorem check_ends_iff {T : List (Fin n)} (hr : Rings ts.rows fun _ : Unit => T)
    (htime : ∀ t, ts.initTick t < halfTickMax) :
    ((∀ t ∈ T, ts.timedOut ts.tick t → ¬ts.Repeats t) →
      ∃ fuel ts', (ts.rtTimerCheck fuel Callbacks.quiet).outcome = .ok ts') ∧
    ∀ due ahead, T = due ++ ahead → ts.Punctual due ahead →
      ((∃ fuel ts', (ts.rtTimerCheck fuel Callbacks.quiet).outcome = .ok ts') ↔
        ∀ t ∈ T, ts.timedOut ts.tick t → ¬ts.Repeats t) := by
  have hends : (∀ t ∈ T, ts.timedOut ts.tick t → ¬ts.Repeats t) →
      ∃ fuel ts', (ts.rtTimerCheck fuel Callbacks.quiet).outcome = .ok ts' := fun hnone =>
    ⟨_, AppTimers.rtTimerCheckLoop_ends hr htime hnone (lt_succ_self _)⟩
  refine ⟨hends, ?_⟩
  rintro due ahead rfl hpunctual
  refine ⟨?_, hends⟩
  rintro ⟨fuel, ts', hs⟩ t ht hdue hrep
  rcases mem_append.mp ht with hmem | hmem
  · rw [AppTimers.rtTimerCheck, hpunctual.stuck hr htime hmem hrep] at hs
    cases hs
  · exact AppTimers.not_timedOut_of_later (hpunctual.later t hmem) hdue

/-- A periodic timer with five ticks that is due. -/
theorem check_ends_five : ∃ ts : AppTimers 1, (Rings ts.rows fun _ : Unit => [0]) ∧
    ts.timedOut ts.tick 0 ∧ ts.periodic 0 = true ∧ ts.Punctual [0] [] ∧
    ∃ fuel ts', (ts.rtTimerCheck fuel Callbacks.quiet).outcome = .ok ts' := by
  obtain ⟨ts, hr, hinit, hper, -, htick, hdeadline⟩ :=
    AppTimers.exists_single (fun _ : Fin 1 => 5) (fun _ => true) 0 (t := 0) (by decide)
  have hdue : (ts.elapse 5).timedOut (ts.elapse 5).tick 0 := by
    change sub32 (add32 ts.tick 5) (ts.timeoutTick 0) < halfTickMax
    rw [hdeadline, htick]
    decide
  have hpunctual : (ts.elapse 5).Punctual [0] [] := by
    refine ⟨by simpa using hdue, ?_, by simp⟩
    simp only [mem_singleton, forall_eq]
    intro u
    change sub32 (add32 ts.tick 5) (ts.timeoutTick 0) + ts.initTick u ≤ 2^31
    rw [hdeadline, htick, hinit]
    change sub32 (add32 0 5) (add32 0 5) + 5 ≤ 2^31
    decide
  have htime : ∀ t, (ts.elapse 5).initTick t = 5 := fun t => congrFun hinit t
  refine ⟨ts.elapse 5, hr, hdue, congrFun hper 0, hpunctual, ?_⟩
  obtain ⟨-, hiff⟩ := @check_ends_iff 1 (ts.elapse 5) [0] hr fun t => by rw [htime]; decide
  refine (hiff [0] [] rfl hpunctual).mpr fun t _ _ hrep => ?_
  have hzero := hrep.2.2
  rw [htime] at hzero
  cases hzero

/-- A periodic timer with time zero that is due fires again and again. -/
theorem zero_period_check_stuck : ∃ ts : AppTimers 1, (Rings ts.rows fun _ : Unit => [0]) ∧
    ts.initTick 0 < halfTickMax ∧ ∀ fuel, (ts.rtTimerCheck fuel Callbacks.quiet).outcome = .error .fuel := by
  obtain ⟨ts, hr, hinit, hper, hact, htick, hdeadline⟩ :=
    AppTimers.exists_single (fun _ : Fin 1 => 0) (fun _ => true) 0 (t := 0) (by decide)
  refine ⟨ts, hr, by rw [hinit]; decide, fun fuel => ?_⟩
  unfold AppTimers.rtTimerCheck
  rw [rtTimerCheckLoop_zero hr (by rw [hper]) hact (by rw [hinit])]
  unfold AppTimers.timedOut
  rw [hdeadline, htick]
  decide

end RtThread
