import Mathlib.Order.Basic

/-!
# Loops

A loop is given by its body, which takes a state and goes on with the next one, leaves the loop with a
result, or fails. `loop` makes a bounded number of passes; `Returns` says that some number of passes is
enough. An invariant and a measure that decreases show that a loop returns (`exists_loop_eq`), and an
invariant under which it always goes on that it does not (`not_returns_of_invariant`).
-/

namespace RtThread.Lib

variable {ε σ ρ : Type*}

/-- At most `n` passes of a loop; `out` is the failure of a loop that needs more. -/
def loop (out : ε) (body : σ → Except ε (σ ⊕ ρ)) : ℕ → σ → Except ε ρ
  | 0, _ => .error out
  | n + 1, s =>
    match body s with
    | .error e => .error e
    | .ok (.inl s') => loop out body n s'
    | .ok (.inr r) => .ok r

/-- The loop ends with the result `r`. -/
def Returns (out : ε) (body : σ → Except ε (σ ⊕ ρ)) (s : σ) (r : ρ) : Prop :=
  ∃ n, loop out body n s = .ok r

/-- The loop comes from `s₀` to a state. -/
inductive Comes (body : σ → Except ε (σ ⊕ ρ)) (s₀ : σ) : σ → Prop
  | start : Comes body s₀ s₀
  | pass {s s' : σ} (h : Comes body s₀ s) (hs : body s = .ok (.inl s')) : Comes body s₀ s'

section Rules

variable {out : ε} {body : σ → Except ε (σ ⊕ ρ)} {s s' : σ} {r r' : ρ} {m n : ℕ}

theorem loop_succ_of_next (h : body s = .ok (.inl s')) :
    loop out body (n + 1) s = loop out body n s' := by
  rw [loop, h]

theorem loop_succ_of_leave (h : body s = .ok (.inr r)) : loop out body (n + 1) s = .ok r := by
  rw [loop, h]

theorem loop_of_le (h : loop out body n s = .ok r) (hle : n ≤ m) : loop out body m s = .ok r := by
  induction n generalizing s m with
  | zero => cases h
  | succ n ih =>
    obtain ⟨m, rfl⟩ : ∃ k, m = k + 1 := ⟨m - 1, by omega⟩
    rw [loop] at h ⊢
    split at h
    · cases h
    · exact ih h (by omega)
    · exact h

theorem Returns.unique (h : Returns out body s r) (h' : Returns out body s r') : r = r' := by
  obtain ⟨n, hn⟩ := h
  obtain ⟨m, hm⟩ := h'
  have hn := loop_of_le hn (Nat.le_max_left n m)
  have hm := loop_of_le hm (Nat.le_max_right n m)
  exact Except.ok.inj (hn.symm.trans hm)

/-- Every pass keeps the invariant and decreases its index, or leaves with a good result; then the index
bounds the number of passes. -/
theorem exists_loop_eq {I : ℕ → σ → Prop} {Q : ρ → Prop}
    (hpass : ∀ k s, I k s → (∃ k' < k, ∃ s', body s = .ok (.inl s') ∧ I k' s') ∨
      ∃ r, body s = .ok (.inr r) ∧ Q r)
    (hI : I m s) (hn : m < n) : ∃ r, loop out body n s = .ok r ∧ Q r := by
  induction n generalizing s m with
  | zero => exact absurd hn (Nat.not_lt_zero _)
  | succ n ih =>
    rcases hpass m s hI with ⟨k', hlt, s', hs', hI'⟩ | ⟨r, hr, hQ⟩
    · obtain ⟨r, hr, hQ⟩ := ih hI' (by omega)
      exact ⟨r, (loop_succ_of_next hs').trans hr, hQ⟩
    · exact ⟨r, loop_succ_of_leave hr, hQ⟩

theorem exists_returns {I : σ → Prop} {Q : ρ → Prop} (μ : σ → ℕ)
    (hpass : ∀ s, I s → (∃ s', body s = .ok (.inl s') ∧ I s' ∧ μ s' < μ s) ∨
      ∃ r, body s = .ok (.inr r) ∧ Q r) (hI : I s) : ∃ r, Returns out body s r ∧ Q r := by
  have hloop : ∃ r, loop out body (μ s + 1) s = .ok r ∧ Q r := by
    apply exists_loop_eq (I := fun k s => I s ∧ μ s = k) _ ⟨hI, rfl⟩ (Nat.lt_succ_self _)
    rintro _ s ⟨hI, rfl⟩
    rcases hpass s hI with ⟨s', hs', hI', hlt⟩ | hleave
    · exact .inl ⟨μ s', hlt, s', hs', hI', rfl⟩
    · exact .inr hleave
  obtain ⟨r, hr, hQ⟩ := hloop
  exact ⟨r, ⟨_, hr⟩, hQ⟩

theorem not_returns_of_invariant {I : σ → Prop}
    (hpass : ∀ s, I s → ∃ s', body s = .ok (.inl s') ∧ I s') (hI : I s) :
    ¬ Returns out body s r := by
  rintro ⟨n, hn⟩
  induction n generalizing s with
  | zero => cases hn
  | succ n ih =>
    obtain ⟨s', hs', hI'⟩ := hpass s hI
    exact ih hI' ((loop_succ_of_next hs').symm.trans hn)

/-- Two loops whose passes keep a relation end after the same number of passes. -/
theorem loop_rel {body' : σ → Except ε (σ ⊕ ρ)} {R : σ → σ → Prop} {Q : ρ → ρ → Prop} {t : σ}
    (hnext : ∀ s t s', R s t → body s = .ok (.inl s') → ∃ t', body' t = .ok (.inl t') ∧ R s' t')
    (hleave : ∀ s t r, R s t → body s = .ok (.inr r) → ∃ r', body' t = .ok (.inr r') ∧ Q r r')
    (h : R s t) (hs : loop out body n s = .ok r) : ∃ r', loop out body' n t = .ok r' ∧ Q r r' := by
  induction n generalizing s t with
  | zero => cases hs
  | succ n ih =>
    rw [loop] at hs
    split at hs
    · cases hs
    · next s' hpass =>
      obtain ⟨t', ht, hrel⟩ := hnext s t s' h hpass
      rw [loop_succ_of_next ht]
      exact ih hrel hs
    · next r₁ hpass =>
      obtain ⟨r', ht, hrel⟩ := hleave s t r₁ h hpass
      cases hs
      exact ⟨r', loop_succ_of_leave ht, hrel⟩

end Rules

end RtThread.Lib
