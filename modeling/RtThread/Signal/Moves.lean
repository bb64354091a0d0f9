import RtThread.Signal.Nodes

/-!
# Steps that move a signal

Each section of `src/signal.c` that touches the nodes concerns one signal of one thread. What `Moves`
says of such a step is all that the other threads and the other calls need (`Moves.thread`,
`Moves.send`); what is left to show is what happens to the thread itself.
-/

namespace RtThread.Signal

open Lib Function

variable {τ σ H : Type}

/-- The step concerns only the signal `n₀` of the thread `t₀`, and the links of the nodes that are on
the list of that thread. -/
structure Moves (s s' : Signals τ σ H) (own own' : ℕ → Option (τ × ℕ)) (loc : τ → ℕ → Option (Loc σ)) (t₀ : τ)
    (n₀ : ℕ) : Prop where
  blocks : s'.blocks = s.blocks
  thread : ∀ t, t ≠ t₀ → s'.thread t = s.thread t
  node : ∀ a t sig, own a = some (t, sig) → (t, sig) ≠ (t₀, n₀) → own' a = own a ∧ s'.si a = s.si a
  next : ∀ a t sig, own a = some (t, sig) → (t, sig) ≠ (t₀, n₀) → (t = t₀ → loc t sig ≠ some .listed) →
    s'.next a = s.next a

theorem Moves.holds {s s' : Signals τ σ H} {own own' : ℕ → Option (τ × ℕ)} {loc : τ → ℕ → Option (Loc σ)}
    {t₀ t : τ} {n₀ sig a : ℕ} (hm : Moves s s' own own' loc t₀ n₀) (h : Holds s own a t sig)
    (hne : (t, sig) ≠ (t₀, n₀)) : Holds s' own' a t sig := by
  obtain ⟨hown, hsi⟩ := hm.node a t sig h.own hne
  exact ⟨hm.blocks ▸ h.block, hown.trans h.own, hsi.trans h.si⟩

variable [DecidableEq τ]

/-- A signal is at a place. -/
def setLoc (loc : τ → ℕ → Option (Loc σ)) (t : τ) (sig : ℕ) (v : Option (Loc σ)) : τ → ℕ → Option (Loc σ) :=
  update loc t (update (loc t) sig v)

section

variable {loc : τ → ℕ → Option (Loc σ)} {t t' : τ} {sig sig' : ℕ} {v : Option (Loc σ)}

theorem setLoc_self : setLoc loc t sig v t sig = v := by
  unfold setLoc
  rw [update_self, update_self]

theorem setLoc_of_ne (h : (t', sig') ≠ (t, sig)) : setLoc loc t sig v t' sig' = loc t' sig' := by
  unfold setLoc
  by_cases ht : t' = t
  · subst ht
    rw [update_self, update_of_ne fun heq => h (by rw [heq])]
  · rw [update_of_ne ht]

theorem setLoc_same (h : loc t sig = v) : setLoc loc t sig v = loc := by
  unfold setLoc
  rw [← h, update_eq_self, update_eq_self]

theorem setLoc_thread (h : t' ≠ t) : setLoc loc t sig v t' = loc t' := update_of_ne h _ _

end

namespace Moves

variable {s s' : Signals τ σ H} {own own' : ℕ → Option (τ × ℕ)} {loc : τ → ℕ → Option (Loc σ)} {t₀ t : τ}
  {n₀ sig a : ℕ} {v : Option (Loc σ)} {l : List ℕ} {k : σ} {x : Send τ}

theorem other (hm : Moves s s' own own' loc t₀ n₀) (h : ThreadInv s own loc t l) (ht : t ≠ t₀) :
    ThreadInv s' own' (setLoc loc t₀ n₀ v) t l := by
  refine h.congr hm.blocks (hm.thread t ht) (setLoc_thread ht) fun a sig hown => ?_
  have hne : (t, sig) ≠ (t₀, n₀) := fun heq => ht (Prod.ext_iff.mp heq).1
  obtain ⟨hown', hsi⟩ := hm.node a t sig hown hne
  exact ⟨hown', hsi, hm.next a t sig hown hne fun heq => absurd heq ht⟩

theorem send (hm : Moves s s' own own' loc t₀ n₀) (h : SendInv s own loc k x) (hne : (x.tid, x.sig) ≠ (t₀, n₀)) :
    SendInv s' own' (setLoc loc t₀ n₀ v) k x := by
  refine ⟨(setLoc_of_ne hne).trans h.loc, h.stage.imp_right fun ⟨a, hstage, ha, hnext⟩ => ⟨a, hstage, hm.holds ha hne, ?_⟩⟩
  refine (hm.next a x.tid x.sig ha.own hne fun _ hlisted => ?_).trans hnext
  rw [h.loc] at hlisted
  cases hlisted

end Moves

namespace SigInv

variable {s s' : Signals τ σ H} {L : τ → List ℕ} {own own' : ℕ → Option (τ × ℕ)}
  {loc : τ → ℕ → Option (Loc σ)} {t₀ : τ} {n₀ a : ℕ} {v : Option (Loc σ)} {l' : List ℕ} {k : σ} {x : Send τ}

theorem move (h : SigInv s L own loc) (hm : Moves s s' own own' loc t₀ n₀)
    (hbefore : ∀ k, loc t₀ n₀ ≠ some (.sending k)) (hafter : ∀ k, v ≠ some (.sending k))
    (hsending : s'.sending = s.sending) (hthread : ThreadInv s' own' (setLoc loc t₀ n₀ v) t₀ l')
    (hfree : ∀ a ∈ s'.pool, a ∈ s'.blocks ∧ own' a = none) (hnodup : s'.pool.Nodup) :
    SigInv s' (update L t₀ l') own' (setLoc loc t₀ n₀ v) := by
  refine ⟨fun t => ?_, fun k x hx => ?_, fun t sig k hloc => ?_, hfree, hnodup, hm.blocks ▸ h.block⟩
  · by_cases ht : t = t₀
    · rw [ht, update_self]
      exact hthread
    · rw [update_of_ne ht]
      exact hm.other (h.thread t) ht
  · have hsend := h.send k x (hsending ▸ hx)
    refine hm.send hsend fun heq => hbefore k ?_
    rw [Prod.mk.injEq] at heq
    rw [← heq.1, ← heq.2, hsend.loc]
  · have hne : (t, sig) ≠ (t₀, n₀) := by
      intro heq
      rw [Prod.mk.injEq] at heq
      rw [heq.1, heq.2, setLoc_self] at hloc
      exact hafter k hloc
    rw [setLoc_of_ne hne] at hloc
    rw [hsending]
    exact h.of_sending t sig k hloc

/-- The rule for a step of `rt_thread_kill`. -/
theorem move_send [DecidableEq σ] {y : Option (Send τ)} (h : SigInv s L own loc) (hm : Moves s s' own own' loc t₀ n₀)
    (hold : ∀ x, s.sending k = some x → x.tid = t₀ ∧ x.sig = n₀) (hbefore : ∀ k', loc t₀ n₀ = some (.sending k') → k' = k)
    (hsending : s'.sending = update s.sending k y)
    (hnew : ∀ x, y = some x → SendInv s' own' (setLoc loc t₀ n₀ v) k x)
    (hafter : ∀ k', v = some (.sending k') → k' = k ∧ ∃ x, y = some x ∧ x.tid = t₀ ∧ x.sig = n₀)
    (hthread : ThreadInv s' own' (setLoc loc t₀ n₀ v) t₀ l')
    (hfree : ∀ a ∈ s'.pool, a ∈ s'.blocks ∧ own' a = none) (hnodup : s'.pool.Nodup) :
    SigInv s' (update L t₀ l') own' (setLoc loc t₀ n₀ v) := by
  refine ⟨fun t => ?_, fun k' x hx => ?_, fun t sig k' hloc => ?_, hfree, hnodup, hm.blocks ▸ h.block⟩
  · by_cases ht : t = t₀
    · rw [ht, update_self]
      exact hthread
    · rw [update_of_ne ht]
      exact hm.other (h.thread t) ht
  · rw [hsending] at hx
    by_cases hk : k' = k
    · rw [hk, update_self] at hx
      rw [hk]
      exact hnew x hx
    · rw [update_of_ne hk] at hx
      have hsend := h.send k' x hx
      refine hm.send hsend fun heq => hk (hbefore k' ?_)
      rw [Prod.mk.injEq] at heq
      rw [← heq.1, ← heq.2, hsend.loc]
  · by_cases heq : (t, sig) = (t₀, n₀)
    · rw [Prod.mk.injEq] at heq
      rw [heq.1, heq.2, setLoc_self] at hloc
      obtain ⟨rfl, x, hy, htid, hsig⟩ := hafter k' hloc
      refine ⟨x, ?_, htid.trans heq.1.symm, hsig.trans heq.2.symm⟩
      rw [hsending, update_self, hy]
    · rw [setLoc_of_ne heq] at hloc
      obtain ⟨x, hx, htid, hsig⟩ := h.of_sending t sig k' hloc
      have hk : k' ≠ k := by
        rintro rfl
        obtain ⟨htid', hsig'⟩ := hold x hx
        exact heq (by rw [← htid, ← hsig, htid', hsig'])
      exact ⟨x, by rw [hsending, update_of_ne hk, hx], htid, hsig⟩

end SigInv

end RtThread.Signal
