import RtThread.Signal.Runs

/-!
# Blocked signals

`rt_thread_handle_sig` looks whether a signal is pending that is not blocked, and then it takes the
first node of the list, whatever its signal is. The proof adds two facts to the invariant of the lists
(`Screened`): every call of a handler was in order, and the signals that are being handled are not
blocked. Most steps do not touch what these are about (`Calm`).
-/

namespace RtThread.Signal

open Lib Function Option

variable {τ σ H : Type}

/-! ## The condition -/

variable (s : Signals τ σ H)

/-- If a signal is pending that is not blocked, the first node of the list is one of an unblocked
signal. -/
def Signals.FirstUnblocked (t : τ) (pending : Sigset) : Prop :=
  pending &&& (s.thread t).mask ≠ 0 →
    ∀ a ∈ (s.nodes t).head?, (s.thread t).mask.getLsbD (s.si a).signo = true

instance (s : Signals τ σ H) (t : τ) (pending : Sigset) : Decidable (s.FirstUnblocked t pending) := by
  unfold Signals.FirstUnblocked; infer_instance

/-- The step is orderly; when the loop of `rt_thread_handle_sig` takes a node, the first one is of an
unblocked signal; and no signal is blocked while it is handled. -/
def Act.Mindful (a : Act τ σ H) : Prop :=
  a.Orderly s ∧ match a with
    | .handle t => (s.thread t).waiting = none → s.FirstUnblocked t (s.thread t).pending
    | .handled t => ∀ f ∈ (s.thread t).frames.head?,
      s.FirstUnblocked t ((s.thread t).pending &&& ~~~sigMask f.signo)
    | .mask t sig => ∀ f ∈ (s.thread t).frames, f.signo ≠ sig
    | _ => True

instance (s : Signals τ σ H) (a : Act τ σ H) : Decidable (a.Mindful s) := by
  apply @Act.casesOn τ σ H _ a <;> intros <;> unfold Act.Mindful <;> infer_instance

/-- The step waits for the signal `sig` of the thread `t`. -/
def Act.WaitsFor (t : τ) (sig : ℕ) : Act τ σ H → Prop
  | .wait t' set _ => t = t' ∧ sigMask sig &&& set ≠ 0
  | .resume t' => t = t' ∧ ∃ set ∈ (s.thread t').waiting, sigMask sig &&& set ≠ 0
  | _ => False

/-! ## Steps that leave masks and handlers alone -/

/-- No handler has been called or has returned, and the masks are the same. -/
structure Calm (s s' : Signals τ σ H) : Prop where
  called : s'.called = s.called
  frames : ∀ t, (s'.thread t).frames = (s.thread t).frames
  mask : ∀ t, (s'.thread t).mask = (s.thread t).mask

theorem Calm.refl : Calm s s := ⟨rfl, fun _ => rfl, fun _ => rfl⟩

section

variable {s s' s'' : Signals τ σ H}

theorem Calm.trans (h : Calm s s') (h' : Calm s' s'') : Calm s s'' :=
  ⟨h'.called.trans h.called, fun t => (h'.frames t).trans (h.frames t), fun t => (h'.mask t).trans (h.mask t)⟩

variable [DecidableEq τ]

theorem Calm.of_update {t : τ} {th : Thread H} (hcalled : s'.called = s.called)
    (hthread : s'.thread = update s.thread t th) (hframes : th.frames = (s.thread t).frames)
    (hmask : th.mask = (s.thread t).mask) : Calm s s' := by
  refine ⟨hcalled, fun t' => ?_, fun t' => ?_⟩
  · rw [hthread]
    by_cases ht : t' = t
    · rw [ht, update_self, hframes]
    · rw [update_of_ne ht]
  · rw [hthread]
    by_cases ht : t' = t
    · rw [ht, update_self, hmask]
    · rw [update_of_ne ht]

variable {set : Sigset} {r : Option Siginfo}

theorem calm_waitTake {t : τ} (h : s.waitTake t set = .ok (s', r)) : Calm s s' := by
  obtain ⟨found, -, hrest⟩ := of_bind_ok h
  cases found with
  | none =>
    cases hrest
    exact Calm.refl s
  | some found =>
    cases hrest
    refine Calm.of_update rfl rfl ?_ ?_
    · split_ifs <;> rfl
    · split_ifs <;> rfl

theorem calm_waitEnter {t : τ} {ticks : ℤ}
    (h : s.waitEnter t set ticks = .ok (s', r)) : Calm s s' := by
  unfold Signals.waitEnter at h
  dsimp only at h
  split_ifs at h
  · cases h
    exact Calm.refl s
  · exact calm_waitTake h
  · cases h
    exact Calm.refl s
  · cases h
    exact Calm.of_update rfl rfl rfl rfl

theorem calm_waitResume {t : τ} (h : s.waitResume t set = .ok (s', r)) : Calm s s' := by
  unfold Signals.waitResume at h
  dsimp only at h
  split_ifs at h
  · cases h
    exact Calm.of_update rfl rfl rfl rfl
  · have hawake : Calm s (s.setThread t { s.thread t with waiting := none }) :=
      Calm.of_update rfl rfl rfl rfl
    exact hawake.trans (calm_waitTake h)

theorem calm_install (t : τ) (sig : ℤ) (d : Disposition H) : Calm s (s.install t sig d) := by
  unfold Signals.install
  split_ifs
  · exact Calm.of_update rfl rfl rfl rfl
  · exact Calm.refl s

variable [DecidableEq σ]

theorem calm_killEnter (k : σ) (t : τ) (sig : ℤ) : Calm s (s.killEnter k t sig) := by
  unfold Signals.killEnter
  dsimp only
  split_ifs
  · exact ⟨rfl, fun _ => rfl, fun _ => rfl⟩
  · exact Calm.of_update rfl rfl rfl rfl
  · exact Calm.refl s

theorem calm_killStep {k : σ} {x : Send τ} (h : s.killStep k x = .ok s') : Calm s s' := by
  unfold Signals.killStep at h
  split at h
  · obtain ⟨found, -, hrest⟩ := of_bind_ok h
    cases found with
    | none =>
      cases hrest
      exact ⟨rfl, fun _ => rfl, fun _ => rfl⟩
    | some a =>
      cases hrest
      exact ⟨rfl, fun _ => rfl, fun _ => rfl⟩
  · cases h
    unfold Signals.killAlloc
    split
    · exact ⟨rfl, fun _ => rfl, fun _ => rfl⟩
    · exact ⟨rfl, fun _ => rfl, fun _ => rfl⟩
  · unfold Signals.killAppend at h
    dsimp only at h
    split_ifs at h
    · cases h
      exact Calm.of_update rfl rfl rfl rfl
    · obtain ⟨p, -, hrest⟩ := of_bind_ok h
      cases hrest
      exact ⟨rfl, fun _ => rfl, fun _ => rfl⟩

end

/-! ## The invariant -/

/-- Every call of a handler was for a signal that was pending and not blocked, and no signal that is
being handled is blocked. -/
structure Screened (s : Signals τ σ H) : Prop where
  called : ∀ e ∈ s.called, e.pending.getLsbD e.signo = true ∧ e.mask.getLsbD e.signo = true
  frames : ∀ t, ∀ f ∈ (s.thread t).frames, (s.thread t).mask.getLsbD f.signo = true

namespace Screened

variable {s s' : Signals τ σ H} {L : τ → List ℕ} {own : ℕ → Option (τ × ℕ)} {loc : τ → ℕ → Option (Loc σ)}
  {t : τ}

theorem calm (h : Screened s) (hcalm : Calm s s') : Screened s' := by
  refine ⟨hcalm.called ▸ h.called, fun t => ?_⟩
  rw [hcalm.frames, hcalm.mask]
  exact h.frames t

theorem not_removes {a : Act τ σ H} {sig : ℕ} (h : Screened s) (hok : a.Mindful s)
    (hblocked : (s.thread t).mask.getLsbD sig = false) (hwaits : ¬a.WaitsFor s t sig) : ¬a.Removes s t sig := by
  have hhandles : ∀ {pending}, s.FirstUnblocked t pending → s.handles t pending ≠ some sig := by
    intro pending hfirst hhandles
    obtain ⟨hsome, hhead⟩ := ite_none_left_eq_some.mp hhandles
    obtain ⟨b, hb, rfl⟩ := map_eq_some_iff.mp hhead
    rw [hfirst hsome b hb] at hblocked
    cases hblocked
  intro hremoves
  cases a with
  | kill | killStep | install | mask | unmask | timeout => exact hremoves
  | wait => exact hwaits hremoves
  | resume => exact hwaits hremoves
  | handle t' =>
    obtain ⟨rfl, hwaiting, hhandle⟩ := hremoves
    exact hhandles (hok.2 hwaiting) hhandle
  | handled t' =>
    obtain ⟨rfl, f, hf, rfl | hhandle⟩ := hremoves
    · rw [h.frames t f (List.mem_of_mem_head? hf)] at hblocked
      cases hblocked
    · exact hhandles (hok.2 f hf) hhandle

variable [DecidableEq τ]

theorem of_update {th : Thread H} (h : Screened s) (hcalled : s'.called = s.called)
    (hthread : s'.thread = update s.thread t th)
    (hframes : ∀ f ∈ th.frames, th.mask.getLsbD f.signo = true) : Screened s' := by
  refine ⟨hcalled ▸ h.called, fun t' => ?_⟩
  rw [hthread]
  by_cases ht : t' = t
  · rw [ht, update_self]
    exact hframes
  · rw [update_of_ne ht]
    exact h.frames t'

theorem pop {a : ℕ} {vectors : ℕ → Handler H} (h : Screened s)
    (hpending : (s.thread t).pending.getLsbD (s.si a).signo = true)
    (hmask : (s.thread t).mask.getLsbD (s.si a).signo = true) : Screened (s.popped t a vectors) := by
  have hthread : ∀ f ∈ (⟨a, (s.si a).signo⟩ : Frame) :: (s.thread t).frames,
      (s.thread t).mask.getLsbD f.signo = true := by
    intro f hf
    rcases List.mem_cons.mp hf with rfl | hf
    · exact hmask
    · exact h.frames t f hf
  refine ⟨fun e he => ?_, fun t' => ?_⟩
  · unfold Signals.popped at he
    dsimp only at he
    split at he
    · exact h.called e he
    · rcases List.mem_append.mp he with he | he
      · exact h.called e he
      · rw [List.mem_singleton.mp he]
        exact ⟨hpending, hmask⟩
  · show ∀ f ∈ (update s.thread t _ t').frames, (update s.thread t _ t').mask.getLsbD f.signo = true
    by_cases ht : t' = t
    · rw [ht, update_self]
      exact hthread
    · rw [update_of_ne ht]
      exact h.frames t'

theorem handleLoop (h : Screened s) (hinv : SigInv s L own loc)
    (hvectors : (s.thread t).pending &&& (s.thread t).mask ≠ 0 → (s.thread t).siList ≠ 0 →
      (s.thread t).vectors.isSome = true)
    (hfirst : s.FirstUnblocked t (s.thread t).pending) (hrun : s.handleLoop t = .ok s') : Screened s' := by
  rcases hinv.handleLoop_cases hvectors with hsame | ⟨a, l, vectors, hl, hsome, -, hpop⟩
  · rw [hsame] at hrun
    cases hrun
    exact h
  · rw [hpop] at hrun
    cases hrun
    have hlisted := ((hinv.thread t).listed a (hl ▸ List.mem_cons_self)).2
    have hhead : a ∈ (s.nodes t).head? := by
      rw [hinv.nodes_eq, hl]
      rfl
    exact h.pop (((hinv.thread t).pending _).mpr (by rw [hlisted]; rfl)) (hfirst hsome a hhead)

theorem handled {f : Frame} {frames : List Frame} (h : Screened s) (hinv : SigInv s L own loc)
    (hf : (s.thread t).frames = f :: frames)
    (hfirst : s.FirstUnblocked t ((s.thread t).pending &&& ~~~sigMask f.signo))
    (hrun : s.handled t f frames = .ok s') : Screened s' := by
  have hfinish := hinv.finish hf
  have hvectors : (s.thread t).vectors.isSome = true := (hinv.thread t).vectors (by rw [hf]; nofun)
  have hscreened : Screened (s.finished t f frames) :=
    h.of_update rfl rfl fun f' hf' => h.frames t f' (hf ▸ List.mem_cons_of_mem _ hf')
  refine hscreened.handleLoop hfinish (fun _ _ => ?_) ?_ hrun
  · rw [s.finished_thread]
    exact hvectors
  · unfold Signals.FirstUnblocked at hfirst ⊢
    rw [hinv.nodes_eq] at hfirst
    rw [hfinish.nodes_eq, s.finished_thread]
    exact hfirst

variable [DecidableEq σ]

/-- A mindful step keeps what is screened. -/
theorem step {a : Act τ σ H} (h : Screened s) (hinv : SigInv s L own loc) (hok : a.Mindful s)
    (hrun : a.run s = some (.ok s')) : Screened s' := by
  obtain ⟨horderly, hok⟩ := hok
  cases a with
  | kill k tid sig =>
    obtain ⟨-, hr⟩ := ite_none_right_eq_some.mp hrun
    cases hr
    exact h.calm (calm_killEnter k tid sig)
  | killStep k =>
    obtain ⟨x, -, hr⟩ := map_eq_some_iff.mp hrun
    exact h.calm (calm_killStep hr)
  | install t sig disposition =>
    obtain ⟨-, hr⟩ := ite_none_right_eq_some.mp hrun
    cases hr
    exact h.calm (calm_install t sig disposition)
  -- A signal whose handler runs is not blocked in a mindful run.
  | mask t sig =>
    obtain ⟨⟨-, hsig⟩, hr⟩ := ite_none_right_eq_some.mp hrun
    cases hr
    refine h.of_update rfl rfl fun f hf => ?_
    exact (getLsbD_clear hsig).mpr ⟨h.frames t f hf, hok f hf⟩
  | unmask t sig =>
    obtain ⟨⟨-, hsig⟩, hr⟩ := ite_none_right_eq_some.mp hrun
    cases hr
    refine h.of_update rfl rfl fun f hf => ?_
    exact (getLsbD_set hsig).mpr (Or.inl (h.frames t f hf))
  | wait t set ticks =>
    obtain ⟨-, hr⟩ := ite_none_right_eq_some.mp hrun
    obtain ⟨r, hr⟩ := ok_of_map_fst (some.inj hr)
    exact h.calm (calm_waitEnter hr)
  | timeout t =>
    obtain ⟨-, hr⟩ := ite_none_right_eq_some.mp hrun
    cases hr
    exact h.calm (Calm.of_update rfl rfl rfl rfl)
  | resume t =>
    obtain ⟨set, -, hr⟩ := map_eq_some_iff.mp hrun
    obtain ⟨r, hr⟩ := ok_of_map_fst hr
    exact h.calm (calm_waitResume hr)
  | handle t =>
    have hr : s.handle t = .ok s' := some.inj hrun
    unfold Signals.handle at hr
    split_ifs at hr with hwaiting
    · exact h.handleLoop hinv (horderly hwaiting) (hok hwaiting) hr
    · cases hr
      exact h
  | handled t =>
    obtain ⟨f, frames, hf, hr⟩ := Act.handled_run hrun
    exact h.handled hinv hf (hok f (by rw [hf]; rfl)) hr.symm

end Screened

variable [DecidableEq τ] [DecidableEq σ]

/-- In every run of mindful steps, every handler was called for a signal that was pending and not
blocked. A signal that is pending and blocked has a node, unless it is just being sent, and it stays
pending with its node in every step but one that waits for it. -/
theorem signal_masking (s : Signals τ σ H) (h : Reachable (signalSystem τ σ H) (fun s a => a.Mindful s) s) :
    (∀ e ∈ s.called, e.pending.getLsbD e.signo = true ∧ e.mask.getLsbD e.signo = true) ∧
    (∀ t sig, (s.thread t).pending.getLsbD sig = true → (s.thread t).mask.getLsbD sig = false →
      (∃ b ∈ s.nodes t, s.si b = killInfo sig) ∨ ∃ k x, s.sending k = some x ∧ x.tid = t ∧ x.sig = sig) ∧
    (∀ (a : Act τ σ H) s' t sig, a.Mindful s → a.run s = some (.ok s') →
      (s.thread t).pending.getLsbD sig = true → (s.thread t).mask.getLsbD sig = false →
      ¬a.WaitsFor s t sig → (s'.thread t).pending.getLsbD sig = true ∧
        ∀ b ∈ s.nodes t, (s.si b).signo = sig → b ∈ s'.nodes t ∧ s'.si b = s.si b) := by
  obtain ⟨⟨L, own, loc, hinv⟩, hscreened⟩ : (∃ L own loc, SigInv s L own loc) ∧ Screened s := by
    refine h.invariant ?_ ?_
    · intro s hs
      refine ⟨⟨_, _, _, Booted.inv hs⟩, ?_, fun t => ?_⟩
      · rw [hs.called]
        nofun
      · rw [hs.thread]
        nofun
    · rintro s a s' ⟨⟨L, own, loc, hinv⟩, hscreened⟩ hok hs
      obtain ⟨s'', L', own', loc', hr, hinv', -⟩ := hinv.step hok.1 hs
      cases hr
      exact ⟨⟨L', own', loc', hinv'⟩, hscreened.step hinv hok hs⟩
  refine ⟨hscreened.called, fun t sig hpending hblocked => ?_, fun a s' t sig hok hrun hpending hblocked hwaits => ?_⟩
  · have hok := hinv.listOk t
    by_cases hsending : ∃ k x, s.sending k = some x ∧ x.tid = t ∧ x.sig = sig
    · exact Or.inr hsending
    · have hframes : ∀ f ∈ (s.thread t).frames, f.signo ≠ sig := by
        rintro f hf rfl
        rw [hscreened.frames t f hf] at hblocked
        cases hblocked
      obtain ⟨b, hb, rfl⟩ := (hok.pending sig).mpr
        ⟨hpending, hframes, fun k x hx hsame => hsending ⟨k, x, hx, hsame⟩⟩
      exact Or.inl ⟨b, hb, (hok.node b hb).2⟩
  · obtain ⟨s'', L', own', loc', hr, hinv', hkept⟩ := hinv.step hok.1 hrun
    cases hr
    obtain ⟨hloc, hnodes⟩ := hkept t sig (hscreened.not_removes hok hblocked hwaits)
      (((hinv.thread t).pending sig).mp hpending)
    refine ⟨((hinv'.thread t).pending sig).mpr hloc, ?_⟩
    rw [hinv.nodes_eq, hinv'.nodes_eq]
    exact hnodes

/-- A handler is called for a signal in front of one that is blocked, which stays pending. -/
theorem signal_masking_run : ∃ s : Signals (Fin 1) (Fin 1) Unit,
    Reachable (signalSystem (Fin 1) (Fin 1) Unit) (fun s a => a.Mindful s) s ∧ s.called.length = 1 ∧
      s.nodes 0 = [200] ∧
      ∀ e ∈ s.called, e.pending.getLsbD e.signo = true ∧ e.mask.getLsbD e.signo = true := by
  have hrun : ∃ s : Signals (Fin 1) (Fin 1) Unit,
      Reachable (signalSystem (Fin 1) (Fin 1) Unit) (fun s a => a.Mindful s) s ∧
        (s.called.length = 1 ∧ s.nodes 0 = [200]) := by
    refine exists_reachable_of_run (f := fun s a => Act.exec s a) booted_boot
      [.install 0 1 (.handler ()), .unmask 0 1, .kill 0 0 1, .killStep 0, .killStep 0, .kill 0 0 2,
        .killStep 0, .killStep 0, .handle 0, .handled 0] ?_ fun _ _ _ => Act.run_of_exec
    decide
  obtain ⟨s, hs, hcalled, hnodes⟩ := hrun
  exact ⟨s, hs, hcalled, hnodes, (signal_masking s hs).1⟩

/-- The handler of a blocked signal is called, as its node is in front of the one that is not blocked. -/
theorem blocked_handler : ¬∀ s : Signals (Fin 1) (Fin 1) Unit,
    Reachable (signalSystem (Fin 1) (Fin 1) Unit) always s →
      ∀ e ∈ s.called, e.pending.getLsbD e.signo = true ∧ e.mask.getLsbD e.signo = true := by
  have hrun : ∃ s : Signals (Fin 1) (Fin 1) Unit, Reachable (signalSystem (Fin 1) (Fin 1) Unit) always s ∧
      ∃ e ∈ s.called, e.mask.getLsbD e.signo = false := by
    refine exists_reachable_of_run (f := fun s a => Act.exec s a) booted_boot
      [.install 0 1 (.handler ()), .unmask 0 2, .kill 0 0 1, .killStep 0, .killStep 0, .kill 0 0 2,
        .killStep 0, .killStep 0, .handle 0] ?_ fun _ _ _ => Act.run_of_exec
    decide
  obtain ⟨s, hs, e, he, hblocked⟩ := hrun
  intro hall
  have hmask := (hall s hs e he).2
  rw [hblocked] at hmask
  cases hmask

end RtThread.Signal
